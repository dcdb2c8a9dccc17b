import DocumentShare.Proofs.Vault.Unlocking

/-!
# What the operations of a vault come to

An unlocked vault lists the records that its master key opens (`listing`). The `_answers` lemmas say what
its operations answer and leave.
-/

namespace DocumentShare

open Work

namespace Vault

variable [Crypto] {c : Config} {st : State} {lock : Option (Except VaultError SealingKey)}
  {contents : Contents} {entropy : Entropy} {master : SealingKey}

/-! ### Records -/

/-- A record that a master key opens, as its key and text. -/
def opened? (master : SealingKey) (x : Bytes × Bytes) : Option (Bytes × Bytes) :=
  (openRecord? master x.2).map (x.1, ·)

/-- The records under a front that a master key opens, in key order. -/
def listing (master : SealingKey) (front : Bytes) (contents : Contents) : List (Bytes × Bytes) :=
  (contents.within (.startingWith front)).filterMap (opened? master)

theorem mem_listing {front key plaintext : Bytes} :
    (key, plaintext) ∈ listing master front contents ↔ front <+: key ∧
      ∃ record, contents.get? key = some record ∧ openRecord? master record = some plaintext := by
  rw [listing, List.mem_filterMap]
  constructor
  · rintro ⟨⟨k, record⟩, member, listed⟩
    obtain ⟨stored, inside⟩ := Contents.mem_within.mp member
    obtain ⟨_, opened, same⟩ := Option.map_eq_some_iff.mp listed
    cases same
    exact ⟨KeyRange.contains_startingWith.mp inside, record, stored, opened⟩
  · rintro ⟨inside, record, stored, opened⟩
    refine ⟨(key, record), Contents.mem_within.mpr ⟨stored, ?_⟩, by simp [opened?, opened]⟩
    exact KeyRange.contains_startingWith.mpr inside

theorem sorted_listing (master : SealingKey) (front : Bytes) (contents : Contents) :
    (listing master front contents).Pairwise (fun a b => a.1 < b.1) := by
  refine List.Pairwise.filterMap _ ?_ (contents.sorted_within _)
  rintro a a' less b listed b' listed'
  obtain ⟨_, _, rfl⟩ := Option.map_eq_some_iff.mp listed
  obtain ⟨_, _, rfl⟩ := Option.map_eq_some_iff.mp listed'
  exact less

/-- The contents without the records under a front that a master key opens. -/
def cleared (master : SealingKey) (front : Bytes) (contents : Contents) : Contents :=
  contents.eraseAll ((listing master front contents).map Prod.fst)

theorem get?_cleared {front key record : Bytes} :
    (cleared master front contents).get? key = some record ↔
      contents.get? key = some record ∧ (front <+: key → openRecord? master record = none) := by
  rw [cleared, Contents.get?_eraseAll]
  constructor
  · intro stays
    split at stays
    · cases stays
    · next unlisted =>
      refine ⟨stays, fun inside => Option.eq_none_iff_forall_not_mem.mpr fun plaintext opened => ?_⟩
      exact unlisted (List.mem_map_of_mem (mem_listing.mpr ⟨inside, record, stays, opened⟩))
  · rintro ⟨stored, shut⟩
    rw [if_neg, stored]
    rintro listed
    obtain ⟨⟨k, plaintext⟩, member, rfl⟩ := List.mem_map.mp listed
    obtain ⟨inside, record', stored', opened⟩ := mem_listing.mp member
    rw [stored] at stored'
    cases stored'
    rw [shut inside] at opened
    cases opened

/-- The contents after a wipe. -/
def wiped (c : Config) (master : SealingKey) (contents : Contents) : Contents :=
  (RecordKind.all.foldl (fun contents kind => cleared master (c.front kind) contents) contents).erase
    c.checkKey

theorem get?_wiped {key record : Bytes} :
    (wiped c master contents).get? key = some record ↔ contents.get? key = some record ∧
      key ≠ c.checkKey ∧ ∀ kind, c.front kind <+: key → openRecord? master record = none := by
  have clearing (kinds : List RecordKind) (contents : Contents) :
      (kinds.foldl (fun contents kind => cleared master (c.front kind) contents) contents).get? key
        = some record ↔ contents.get? key = some record ∧
          ∀ kind ∈ kinds, c.front kind <+: key → openRecord? master record = none := by
    induction kinds generalizing contents with
    | nil => simp
    | cons kind kinds ih => rw [List.foldl_cons, ih, get?_cleared, List.forall_mem_cons, and_assoc]
  have every (kind : RecordKind) : kind ∈ RecordKind.all := by cases kind <;> decide
  rw [wiped, Contents.get?_erase]
  split
  · next same => simp [same]
  · next other => simp [clearing, other, every]

/-- The record of a text that is put next. -/
def nextRecord (master : SealingKey) (entropy : Entropy) (plaintext : Bytes) : Bytes :=
  sealRecord master (entropy.ahead 16) ((entropy.past 16).ahead 12) plaintext

section Unlocked

variable (stands : st.Stands (some (.ok master)) contents entropy)

include stands

theorem masterKey_answers : (masterKey c).Answers st fun m u =>
    m = master ∧ u.Stands (some (.ok master)) contents entropy := by
  unfold Answers Ends
  rw [runOn_masterKey stands.locked]
  exact ⟨rfl, stands⟩

theorem records_answers (kind : RecordKind) : (records c kind).Answers st fun items u =>
    items = listing master (c.front kind) contents ∧
      u.Stands (some (.ok master)) contents entropy := by
  refine (masterKey_answers stands).bind ?_
  rintro m u ⟨rfl, stands⟩
  refine (scan_answers stands _).bind ?_
  rintro items u ⟨rfl, stands⟩
  refine (Ends.filterMapM (fun rest found v => found ++ rest.filterMap (opened? m)
    = listing m (c.front kind) contents ∧ v.Stands (some (.ok m)) contents entropy)
    ⟨rfl, stands⟩ ?_).mono ?_ fun _ _ => id
  · rintro ⟨key, record⟩ rest found v ⟨listed, stands⟩
    refine (askItem_answers stands).bind fun _ v stands => Ends.pure ⟨?_, stands⟩
    rw [← listed, List.append_assoc]
    cases opened : openRecord? m record with
    | none => simp [opened?, opened]
    | some plaintext => simp [opened?, opened]
  · rintro found v ⟨listed, stands⟩
    rw [List.filterMap_nil, List.append_nil] at listed
    exact ⟨listed, stands⟩

theorem find_answers {α : Type} {visit : Bytes → VaultWork (Option α)} (found : Bytes → Option α)
    (kind : RecordKind)
    (visited : ∀ plaintext u, u.Stands (some (.ok master)) contents entropy →
      (visit plaintext).Answers u fun o v =>
        o = found plaintext ∧ v.Stands (some (.ok master)) contents entropy) :
    (find c kind visit).Answers st fun o u =>
      o = (listing master (c.front kind) contents).findSome? (fun x => found x.2) ∧
        u.Stands (some (.ok master)) contents entropy := by
  refine (masterKey_answers stands).bind ?_
  rintro m u ⟨rfl, stands⟩
  refine (scan_answers stands _).bind ?_
  rintro items u ⟨rfl, stands⟩
  let ahead (rest : List (Bytes × Bytes)) : Option α :=
    (rest.filterMap (opened? m)).findSome? fun x => found x.2
  let answer : Option α := (listing m (c.front kind) contents).findSome? fun x => found x.2
  refine (Ends.findSomeM?
    (fun rest v => ahead rest = answer ∧ v.Stands (some (.ok m)) contents entropy)
    (fun x v => some x = answer ∧ v.Stands (some (.ok m)) contents entropy)
    ⟨rfl, stands⟩ ?_).mono ?_ fun _ _ => id
  · rintro ⟨key, record⟩ rest v ⟨left, stands⟩
    refine (askItem_answers stands).bind fun _ v stands => ?_
    cases opened : openRecord? m record with
    | none =>
      have passed : ahead ((key, record) :: rest) = ahead rest := by simp [ahead, opened?, opened]
      exact Ends.pure ⟨passed ▸ left, stands⟩
    | some plaintext =>
      refine (visited plaintext v stands).mono ?_ fun _ _ => id
      rintro o v ⟨rfl, stands⟩
      cases visit : found plaintext with
      | none =>
        have passed : ahead ((key, record) :: rest) = ahead rest := by
          simp [ahead, opened?, opened, visit]
        exact ⟨passed ▸ left, stands⟩
      | some x =>
        have here : ahead ((key, record) :: rest) = some x := by
          simp [ahead, opened?, opened, visit]
        exact ⟨here ▸ left, stands⟩
  · intro o v outcome
    cases o with
    | none => exact outcome
    | some x => exact outcome

theorem put_answers (kind : RecordKind) (plaintext : Bytes) :
    (put c kind plaintext).Answers st fun key u =>
      key = storageKey c kind (nextRecord master entropy plaintext) ∧
        u.Stands (some (.ok master))
          (contents.insert key (nextRecord master entropy plaintext)) ((entropy.past 16).past 12) := by
  refine (masterKey_answers stands).bind ?_
  rintro m u ⟨rfl, stands⟩
  refine (draw_answers stands 16).bind ?_
  rintro salt u ⟨rfl, stands⟩
  refine (draw_answers stands 12).bind ?_
  rintro nonce u ⟨rfl, stands⟩
  refine (set_answers stands _ _).bind fun _ u stands => ?_
  exact Ends.pure ⟨rfl, stands⟩

theorem delete_answers (key : Bytes) : (delete c key).Answers st fun removed u =>
    removed = (contents.get? key).isSome ∧
      u.Stands (some (.ok master)) (contents.erase key) entropy := by
  refine (masterKey_answers stands).bind fun m u ⟨_, stands⟩ => ?_
  exact erase_answers stands key

theorem wipeKind_answers (kind : RecordKind) : (wipeKind c kind).Answers st fun _ u =>
    u.Stands (some (.ok master)) (cleared master (c.front kind) contents) entropy := by
  refine (records_answers stands kind).bind ?_
  rintro items u ⟨rfl, stands⟩
  refine (Ends.forM (fun rest v => ∃ now, v.Stands (some (.ok master)) now entropy ∧
    now.eraseAll (rest.map Prod.fst) = cleared master (c.front kind) contents)
    ⟨contents, stands, rfl⟩ ?_).mono ?_ fun _ _ => id
  · rintro ⟨key, plaintext⟩ rest v ⟨now, stands, left⟩
    refine (erase_answers stands key).bind fun _ v ⟨_, stands⟩ => Ends.pure ?_
    exact ⟨now.erase key, stands, left⟩
  · rintro _ v ⟨now, stands, left⟩
    have all : now = cleared master (c.front kind) contents := left
    rwa [all] at stands

theorem wipe_answers : (wipe c).Answers st fun _ u =>
    u.Stands (some (.ok master)) (wiped c master contents) entropy := by
  let clear (contents : Contents) (kind : RecordKind) := cleared master (c.front kind) contents
  have cleaning : (RecordKind.all.forM (wipeKind c)).Answers st fun _ u =>
      u.Stands (some (.ok master)) (RecordKind.all.foldl clear contents) entropy := by
    refine (Ends.forM (fun kinds v => ∃ now, v.Stands (some (.ok master)) now entropy ∧
      kinds.foldl clear now = RecordKind.all.foldl clear contents)
      ⟨contents, stands, rfl⟩ ?_).mono ?_ fun _ _ => id
    · rintro kind kinds v ⟨now, stands, left⟩
      refine (wipeKind_answers stands kind).mono (fun _ v stands => ?_) fun _ _ => id
      exact ⟨clear now kind, stands, left⟩
    · rintro _ v ⟨now, stands, left⟩
      have all : now = RecordKind.all.foldl clear contents := left
      rwa [all] at stands
  refine cleaning.bind fun _ u stands => ?_
  exact (erase_answers stands c.checkKey).bind fun _ u ⟨_, stands⟩ => Ends.pure stands

end Unlocked

end Vault

end DocumentShare
