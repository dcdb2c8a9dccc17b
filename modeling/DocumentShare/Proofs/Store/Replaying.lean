import DocumentShare.Proofs.Store.Ledger

/-!
# Replaying events

Who knows some documents and is told what changed replays it (`Event.replay`), and fails where the document
that is removed is not the one in its place. What a ledger tells while documents are removed replays to the
documents without these, and of a payload it tells once, when the payload goes (`Ledger.Removes`).
-/

namespace DocumentShare

def Document.place (d : Document) : Identity × Path := (d.identity, d.path)

theorem Document.key_eq_of_place {d e : Document} (same : d.place = e.place) : d.key = e.key := by
  obtain ⟨identities, paths⟩ := Prod.mk.inj same
  exact Document.key_inj.mpr ⟨identities, paths⟩

namespace Event

def isRemovalFor (cause : Document) : Event → Bool
  | .entryRemoved _ c => c = cause
  | .payloadRemoved _ _ c => c = cause
  | _ => false

def isErasureOf (g : Digest) : Event → Bool
  | .payloadRemoved g' _ _ => g' = g
  | _ => false

/-- The documents after an event. What is removed has to be what there is in its place. -/
def after? (documents : Finset Document) : Event → Option (Finset Document)
  | .documentSet d => some (insert d (documents.filter (·.place ≠ d.place)))
  | .entryIngest d => some (insert d (documents.filter (·.place ≠ d.place)))
  | .entryRemoved d _ =>
    if documents.filter (·.place = d.place) = {d} then some (documents.erase d) else none
  | _ => some documents

def replay (documents : Finset Document) (events : List Event) : Option (Finset Document) :=
  events.foldlM after? documents

section Replay

variable {documents after : Finset Document} {events later : List Event} {d cause : Document}

theorem replay_append (h : replay documents events = some after) :
    replay documents (events ++ later) = replay after later := by
  unfold replay at h ⊢
  rw [List.foldlM_append, h]
  rfl

def Single (documents : Finset Document) : Prop :=
  ∀ d ∈ documents, ∀ e ∈ documents, d.place = e.place → d = e

theorem Single.after?_removed (single : Single documents) (live : d ∈ documents) :
    after? documents (.entryRemoved d cause) = some (documents.erase d) := by
  have alone : documents.filter (·.place = d.place) = {d} := by
    ext e
    rw [Finset.mem_filter, Finset.mem_singleton]
    constructor
    · rintro ⟨there, same⟩
      exact single e there d live same
    · rintro rfl
      exact ⟨live, rfl⟩
  exact if_pos alone

theorem replay_arrivals (arrivals : ∀ e ∈ events, e = .payloadIngest d) :
    replay documents events = some documents := by
  induction events with
  | nil => rfl
  | cons e events ih =>
    obtain ⟨rfl, rest⟩ := List.forall_mem_cons.mp arrivals
    exact ih rest

end Replay

/-- Without a miss, what is received is all that was told in the meantime. -/
theorem received_eq {told seen news : List Event}
    (received : backlog seen.length (told.reverse ++ seen) = (0, news)) : news = told := by
  have waiting : (told.reverse ++ seen).length - seen.length = told.length := by simp
  unfold backlog at received
  dsimp only at received
  rw [waiting] at received
  obtain ⟨none, rfl⟩ := Prod.mk.inj received
  have all : min told.length capacity = told.reverse.length := by
    rw [List.length_reverse]
    omega
  rw [all, List.take_left, List.reverse_reverse]

end Event

namespace Ledger

/-! ### Removals -/

/-- What is told, the first first, while documents are removed. -/
structure Removes (l : Ledger) (ds : List Document) (cause : Document) (told : List Event)
    (l' : Ledger) : Prop where
  events : l'.events = told.reverse ++ l.events
  removals : ∀ e ∈ told, e.isRemovalFor cause
  fewer : l'.payloads ⊆ l.payloads
  erased : ∀ g, told.countP (Event.isErasureOf g) = if g ∈ l.payloads ∧ g ∉ l'.payloads then 1 else 0
  replays : ∀ documents, Event.Single documents → (∀ d ∈ ds, d ∈ documents) → ds.Nodup →
    Event.replay documents told = some (documents \ ds.toFinset)

section Removal

variable {l m l' : Ledger} {d cause : Document} {ds es : List Document} {told later : List Event}

theorem Removes.nil (l : Ledger) (cause : Document) : l.Removes [] cause [] l where
  events := rfl
  removals _ member := absurd member List.not_mem_nil
  fewer := Finset.Subset.refl _
  erased g := by simp
  replays documents _ _ _ := by simp [Event.replay]

theorem Removes.append (first : l.Removes ds cause told m) (second : m.Removes es cause later l') :
    l.Removes (ds ++ es) cause (told ++ later) l' where
  events := by rw [second.events, first.events, List.reverse_append, List.append_assoc]
  removals e member := by
    rcases List.mem_append.mp member with early | late
    · exact first.removals e early
    · exact second.removals e late
  fewer := second.fewer.trans first.fewer
  erased g := by
    rw [List.countP_append, first.erased, second.erased]
    -- A payload that is gone is gone in one of the two parts only.
    by_cases held : g ∈ l.payloads
    · by_cases kept : g ∈ m.payloads
      · simp [held, kept]
      · have gone : g ∉ l'.payloads := fun there => kept (second.fewer there)
        simp [held, kept, gone]
    · have never : g ∉ m.payloads := fun there => held (first.fewer there)
      simp [held, never]
  replays documents single live distinct := by
    obtain ⟨distinctFirst, distinctSecond, disjoint⟩ := List.nodup_append.mp distinct
    have early : ∀ d ∈ ds, d ∈ documents := fun d member => live d (List.mem_append_left es member)
    rw [Event.replay_append (first.replays documents single early distinctFirst)]
    rw [second.replays _ ?_ ?_ distinctSecond, List.toFinset_append]
    · exact congrArg some (sdiff_sdiff_left)
    · intro d there e there' same
      exact single d (Finset.mem_sdiff.mp there).1 e (Finset.mem_sdiff.mp there').1 same
    · intro d member
      refine Finset.mem_sdiff.mpr ⟨live d (List.mem_append_right ds member), fun before => ?_⟩
      exact disjoint d (List.mem_toFinset.mp before) d member rfl

def erasure (l : Ledger) (d cause : Document) : List Event :=
  if l.erases d.entry.payloadDigest then [.payloadRemoved d.entry.payloadDigest d cause] else []

theorem eq_of_mem_erasure {e : Event} (member : e ∈ l.erasure d cause) :
    e = .payloadRemoved d.entry.payloadDigest d cause := by
  unfold erasure at member
  split at member
  · exact List.mem_singleton.mp member
  · cases member

theorem countP_erasure (g : Digest) : (l.erasure d cause).countP (Event.isErasureOf g) =
    if g ∈ l.payloads ∧ g ∉ (l.remove d cause).payloads then 1 else 0 := by
  rw [payloads_remove]
  unfold erasure erases release
  by_cases left : d.entry.payloadDigest ∈ l.references.erase d.entry.payloadDigest
  · simp [left]
  · by_cases stored : d.entry.payloadDigest ∈ l.payloads
    · by_cases same : g = d.entry.payloadDigest
      · simp [left, stored, same, Event.isErasureOf]
      · simp [left, stored, same, Ne.symm same, Event.isErasureOf]
    · simp [left, stored]

theorem removes_remove (l : Ledger) (d cause : Document) :
    l.Removes [d] cause (.entryRemoved d cause :: l.erasure d cause) (l.remove d cause) where
  events := by
    unfold remove erasure
    dsimp only
    split
    · rfl
    · rfl
  removals e member := by
    rcases List.mem_cons.mp member with rfl | member
    · simp [Event.isRemovalFor]
    · simp [eq_of_mem_erasure member, Event.isRemovalFor]
  fewer := by
    rw [payloads_remove, release]
    dsimp only
    split
    · exact Finset.Subset.refl _
    · exact Finset.erase_subset _ _
  erased g := by
    rw [← countP_erasure]
    exact List.countP_cons_of_neg (by simp [Event.isErasureOf])
  replays documents single live _ := by
    have here := live d List.mem_cons_self
    rw [Event.replay, List.foldlM_cons, single.after?_removed here, List.toFinset_cons,
      List.toFinset_nil, insert_empty_eq, Finset.sdiff_singleton_eq_erase]
    unfold erasure
    split
    · rfl
    · rfl

theorem removes_removeAll (l : Ledger) (ds : List Document) (cause : Document) :
    ∃ told, l.Removes ds cause told (l.removeAll ds cause) := by
  induction ds generalizing l with
  | nil => exact ⟨[], .nil l cause⟩
  | cons d ds ih =>
    obtain ⟨told, removes⟩ := ih (l.remove d cause)
    exact ⟨_, (removes_remove l d cause).append removes⟩

theorem removes_insertion (l : Ledger) (d : Document) (previous : Option Document)
    (stale : List Document) :
    ∃ told, l.Removes (previous.toList ++ stale) d told (l.insertion d previous stale) := by
  obtain ⟨told, first⟩ := removes_removeAll (l.retain d.entry.payloadDigest) previous.toList d
  obtain ⟨later, second⟩ := removes_removeAll (l.replacement d previous) stale d
  -- Counting a payload and adding a document tell nothing and leave the payloads alone.
  have replaced : l.Removes previous.toList d told (l.replacement d previous) :=
    ⟨first.events, first.removals, first.fewer, first.erased, first.replays⟩
  exact ⟨told ++ later, replaced.append second⟩

end Removal

end Ledger

end DocumentShare
