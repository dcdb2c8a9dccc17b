import DocumentShare.Proofs.Crypto.Exclusive
import DocumentShare.Proofs.Vault.Keys
import DocumentShare.Proofs.Vault.Turns

/-!
# What a request has to do with others

A request of a vault leaves every key alone that is not the vault's own (`Serves.get?_of_foreign`), and
what it comes to depends on the vault's own keys alone (`Serves.agrees`). Both rest on the master key:
a scan of the vault's fronts may meet records of others, but it opens none of them.
-/

namespace DocumentShare.Vault

variable [Crypto] {c : Config} {lock : Lock} {contents contents' after after' : Contents}
  {entropy rest rest' : Entropy} {master m m' : SealingKey} {r : Request} {key : Bytes}

/-! ### Keys of others -/

/-- What is sealed under the second key, as a record or to prove it, does not open under the first. -/
def KeysApart (m m' : SealingKey) : Prop :=
  ∀ salt, recordKey m salt ≠ recordKey m' salt ∧ recordKey m salt ≠ m'

theorem openRecord?_sealed (m key : SealingKey) (salt : Salt) (nonce : Nonce) (plaintext : Bytes) :
    openRecord? m (salt.bytes ++ sealText key nonce plaintext)
      = Crypto.decrypt (recordKey m salt) nonce (Crypto.encrypt key nonce plaintext) := by
  have salted : Block.fit 16 (salt.bytes ++ sealText key nonce plaintext) = salt :=
    Block.fit_append salt _
  have sealed : (salt.bytes ++ sealText key nonce plaintext).drop 16 = sealText key nonce plaintext :=
    List.drop_left' salt.length_bytes
  have nonced : Block.fit 12 (sealText key nonce plaintext) = nonce := Block.fit_append nonce _
  have rest : (sealText key nonce plaintext).drop 12 = Crypto.encrypt key nonce plaintext :=
    List.drop_left' nonce.length_bytes
  have long : ¬(salt.bytes ++ sealText key nonce plaintext).length < 16 := by
    rw [List.length_append, salt.length_bytes]
    omega
  have long' : ¬(sealText key nonce plaintext).length < 12 := by
    rw [sealText, List.length_append, nonce.length_bytes]
    omega
  rw [openRecord?, if_neg long, salted, sealed, openText?, if_neg long', nonced, rest]

theorem openRecord?_eq_none [Crypto.Exclusive] {key : SealingKey} {salt : Salt}
    (other : recordKey m salt ≠ key) (nonce : Nonce) (plaintext : Bytes) :
    openRecord? m (salt.bytes ++ sealText key nonce plaintext) = none := by
  rw [openRecord?_sealed]
  refine Option.eq_none_iff_forall_not_mem.mpr fun opened opens => ?_
  exact other (Crypto.Exclusive.key_of_decrypt opens)

theorem KeysApart.sealRecord [Crypto.Exclusive] (apart : KeysApart m m') (salt : Salt) (nonce : Nonce)
    (plaintext : Bytes) : openRecord? m (Vault.sealRecord m' salt nonce plaintext) = none :=
  openRecord?_eq_none (apart salt).1 nonce plaintext

theorem KeysApart.checkRecord [Crypto.Exclusive] (apart : KeysApart m m') (salt : Salt)
    (nonce : Nonce) : openRecord? m (Vault.checkRecord salt m' nonce) = none :=
  openRecord?_eq_none (apart salt).2 nonce checkText

/-- Under the fronts of a vault a master key opens nothing but records of the vault's own. -/
def Discreet (c : Config) (master : SealingKey) (contents : Contents) : Prop :=
  ∀ kind, ∀ x ∈ listing master (c.front kind) contents, c.Owns kind x.1

theorem Unlocks.mem_listing_iff {result : Except VaultError SealingKey} {kind : RecordKind}
    {x : Bytes × Bytes} (unlocks : Unlocks c contents entropy lock result after rest) :
    x ∈ listing m (c.front kind) after ↔ x ∈ listing m (c.front kind) contents :=
  mem_listing_congr fun inside => unlocks.get?_of_ne (ne_checkKey_of_front inside)

theorem Discreet.unlocks {result : Except VaultError SealingKey} (discreet : Discreet c m contents)
    (unlocks : Unlocks c contents entropy lock result after rest) : Discreet c m after :=
  fun kind x member => discreet kind x (unlocks.mem_listing_iff.mp member)

/-- A wipe removes what is listed, and the check record. -/
theorem get?_wiped_of_discreet (discreet : Discreet c master contents) {record : Bytes} :
    (wiped c master contents).get? key = some record ↔ contents.get? key = some record ∧
      key ≠ c.checkKey ∧ ∀ kind, c.Owns kind key → openRecord? master record = none := by
  rw [get?_wiped]
  refine and_congr_right fun stored => and_congr_right fun _ => forall_congr' fun kind => ?_
  constructor
  · rintro shut ⟨digest, rfl⟩
    exact shut (List.prefix_append _ _)
  · intro shut inside
    refine Option.eq_none_iff_forall_not_mem.mpr fun opened opens => ?_
    have owns : c.Owns kind key :=
      discreet kind (key, opened) (mem_listing.mpr ⟨inside, record, stored, opens⟩)
    rw [shut owns] at opens
    cases opens

/-! ### Requests leave the keys of others alone -/

theorem Responds.get?_of_foreign {reply : Reply}
    (responds : Responds c master contents entropy r reply after rest)
    (discreet : Discreet c master contents) (deletes : ∀ k, r = .delete k → c.Own k)
    (foreign : ¬c.Own key) : after.get? key = contents.get? key := by
  cases responds with
  | ready => rfl
  | put stored =>
    refine Contents.get?_insert_of_ne fun same => foreign (.inr ?_)
    rw [same, stored]
    exact ⟨_, c.owns_storageKey _ _⟩
  | records => rfl
  | delete => exact Contents.get?_erase_of_ne fun same => foreign (same ▸ deletes _ rfl)
  | wipe =>
    refine Option.ext fun record => ?_
    rw [get?_wiped_of_discreet discreet]
    constructor
    · exact fun stays => stays.1
    · exact fun stored => ⟨stored, fun same => foreign (.inl same),
        fun kind owns => absurd (.inr ⟨kind, owns⟩) foreign⟩

theorem Serves.get?_of_foreign {reply : Except VaultError Reply} {locked : Lock}
    (serves : Serves c lock contents entropy r reply locked after rest)
    (discreet : ∀ m, locked = some (.ok m) → Discreet c m contents)
    (deletes : ∀ k, r = .delete k → c.Own k) (foreign : ¬c.Own key) :
    after.get? key = contents.get? key := by
  have other : key ≠ c.checkKey := fun same => foreign (.inl same)
  rcases serves.cases with ⟨e, _, _, unlocks⟩ | ⟨m, between, left, answer, _, locked, unlocks, responds⟩
  · exact unlocks.get?_of_ne other
  · rw [responds.get?_of_foreign ((discreet m locked).unlocks unlocks) deletes foreign,
      unlocks.get?_of_ne other]

/-! ### Requests depend on the keys of the vault alone -/

/-- The vault's own keys hold the same. -/
def Agree (c : Config) (contents contents' : Contents) : Prop :=
  ∀ key, c.Own key → contents.get? key = contents'.get? key

omit [Crypto] in
theorem Agree.insert (agree : Agree c contents contents') (key value : Bytes) :
    Agree c (contents.insert key value) (contents'.insert key value) := by
  intro k own
  rw [Contents.get?_insert, Contents.get?_insert, agree k own]

omit [Crypto] in
theorem Agree.erase (agree : Agree c contents contents') (key : Bytes) :
    Agree c (contents.erase key) (contents'.erase key) := by
  intro k own
  rw [Contents.get?_erase, Contents.get?_erase, agree k own]

theorem Agree.listing_eq (agree : Agree c contents contents') (discreet : Discreet c m contents)
    (discreet' : Discreet c m contents') (kind : RecordKind) :
    listing m (c.front kind) contents = listing m (c.front kind) contents' := by
  have members (x : Bytes × Bytes) :
      x ∈ listing m (c.front kind) contents ↔ x ∈ listing m (c.front kind) contents' := by
    obtain ⟨key, plaintext⟩ := x
    constructor
    · intro member
      have owns := discreet kind _ member
      rw [mem_listing, agree key (.inr ⟨kind, owns⟩)] at member
      exact mem_listing.mpr member
    · intro member
      have owns := discreet' kind _ member
      rw [mem_listing, ← agree key (.inr ⟨kind, owns⟩)] at member
      exact mem_listing.mpr member
  exact Contents.eq_of_sorted (sorted_listing m _ contents) (sorted_listing m _ contents') members

theorem Unlocks.agrees {result result' : Except VaultError SealingKey}
    (unlocks : Unlocks c contents entropy lock result after rest)
    (unlocks' : Unlocks c contents' entropy lock result' after' rest')
    (agree : Agree c contents contents') : result' = result ∧ rest' = rest ∧ Agree c after after' := by
  have check := agree c.checkKey (.inl rfl)
  cases unlocks with
  | again =>
    cases unlocks'
    exact ⟨rfl, rfl, agree⟩
  | checked found =>
    cases unlocks' with
    | checked found' =>
      rw [found, found'] at check
      cases check
      exact ⟨rfl, rfl, agree⟩
    | refused absent' _ => rw [found, absent'] at check; cases check
    | created absent' _ => rw [found, absent'] at check; cases check
  | refused absent rounds =>
    cases unlocks' with
    | checked found' => rw [absent, found'] at check; cases check
    | refused _ _ => exact ⟨rfl, rfl, agree⟩
    | created _ stretched =>
      rw [stretch, if_pos rounds] at stretched
      cases stretched
  | created absent stretched =>
    cases unlocks' with
    | checked found' => rw [absent, found'] at check; cases check
    | refused _ rounds =>
      rw [stretch, if_pos rounds] at stretched
      cases stretched
    | created _ stretched' =>
      rw [stretched] at stretched'
      cases stretched'
      exact ⟨rfl, rfl, agree.insert _ _⟩

theorem Responds.agrees {reply reply' : Reply}
    (responds : Responds c master contents entropy r reply after rest)
    (responds' : Responds c master contents' entropy r reply' after' rest')
    (agree : Agree c contents contents') (discreet : Discreet c master contents)
    (discreet' : Discreet c master contents') (deletes : ∀ k, r = .delete k → c.Own k) :
    reply' = reply ∧ rest' = rest ∧ Agree c after after' := by
  cases responds with
  | ready =>
    cases responds'
    exact ⟨rfl, rfl, agree⟩
  | put stored =>
    cases responds' with
    | put stored' =>
      subst stored stored'
      exact ⟨rfl, rfl, agree.insert _ _⟩
  | records =>
    cases responds'
    rw [agree.listing_eq discreet discreet']
    exact ⟨rfl, rfl, agree⟩
  | delete =>
    cases responds'
    rw [agree _ (deletes _ rfl)]
    exact ⟨rfl, rfl, agree.erase _⟩
  | wipe =>
    cases responds'
    refine ⟨rfl, rfl, fun key own => Option.ext fun record => ?_⟩
    rw [get?_wiped_of_discreet discreet, get?_wiped_of_discreet discreet', agree key own]

/-- From the same lock and the same entropy, what a request comes to does not depend on the keys of
others. -/
theorem Serves.agrees {reply reply' : Except VaultError Reply} {locked locked' : Lock}
    (serves : Serves c lock contents entropy r reply locked after rest)
    (serves' : Serves c lock contents' entropy r reply' locked' after' rest')
    (agree : Agree c contents contents')
    (discreet : ∀ m, locked = some (.ok m) → Discreet c m contents)
    (discreet' : ∀ m, locked = some (.ok m) → Discreet c m contents')
    (deletes : ∀ k, r = .delete k → c.Own k) :
    reply' = reply ∧ locked' = locked ∧ rest' = rest ∧ Agree c after after' := by
  cases serves with
  | refused unlocks =>
    cases serves' with
    | refused unlocks' =>
      obtain ⟨same, drawn, agree⟩ := unlocks.agrees unlocks' agree
      cases same
      exact ⟨rfl, rfl, drawn, agree⟩
    | answered unlocks' _ =>
      obtain ⟨same, _⟩ := unlocks.agrees unlocks' agree
      cases same
  | answered unlocks responds =>
    cases serves' with
    | refused unlocks' =>
      obtain ⟨same, _⟩ := unlocks.agrees unlocks' agree
      cases same
    | answered unlocks' responds' =>
      obtain ⟨same, drawn, agree⟩ := unlocks.agrees unlocks' agree
      cases same
      subst drawn
      obtain ⟨rfl, drawn, agree⟩ := responds.agrees responds' agree
        ((discreet _ rfl).unlocks unlocks) ((discreet' _ rfl).unlocks unlocks') deletes
      exact ⟨rfl, rfl, drawn, agree⟩

end DocumentShare.Vault
