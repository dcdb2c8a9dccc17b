import DocumentShare.Proofs.Text.Base64
import DocumentShare.Proofs.Vault.Keeping
import DocumentShare.Proofs.Vault.Operating

/-!
# The keys of a vault

The name of a vault, the kind of a record and the digest are joined by underscores, which names may
contain, so the keys of one vault can begin like those of another. But neither a kind nor a digest
contains an underscore, so a key can be read from its end: it tells the vault, the kind and the digest
(`storageKey_eq_iff`), and no key of a record is that of a check record (`Config.Owns.ne_checkKey`).
A record that is put is listed under its own kind and under no other (`mem_listing_insert`).
-/

namespace DocumentShare

theorem Bytes.eq_of_last_underscore {front front' rest rest' : Bytes} (plain : 95 ∉ rest)
    (plain' : 95 ∉ rest') (same : front ++ 95 :: rest = front' ++ 95 :: rest') :
    front = front' ∧ rest = rest' := by
  obtain ⟨gap, rfl, tail⟩ | ⟨gap, rfl, tail⟩ := List.append_eq_append_iff.mp same
  · cases gap with
    | nil => exact ⟨(List.append_nil _).symm, (List.cons.inj tail).2⟩
    | cons x gap =>
      refine absurd ?_ plain
      rw [(List.cons.inj tail).2]
      simp
  · cases gap with
    | nil => exact ⟨List.append_nil _, (List.cons.inj tail).2.symm⟩
    | cons x gap =>
      refine absurd ?_ plain'
      rw [(List.cons.inj tail).2]
      simp

namespace Vault

namespace Config

variable {c c' : Config} {kind kind' : RecordKind} {key : Bytes}

/-- A key as the vault gives it to a record of a kind. -/
def Owns (c : Config) (kind : RecordKind) (key : Bytes) : Prop :=
  ∃ digest : Digest, key = c.front kind ++ Bytes.ofText (Base64.encode digest.bytes)

/-- A key of a vault's records, or of its check record. -/
def Own (c : Config) (key : Bytes) : Prop := key = c.checkKey ∨ ∃ kind, c.Owns kind key

theorem underscore_notMem_name (kind : RecordKind) : 95 ∉ Bytes.ofText kind.name := by
  cases kind with
  | identityKeypair => decide
  | shareKeypair => decide
  | read => decide
  | write => decide

theorem front_eq (c : Config) (kind : RecordKind) (rest : Bytes) : c.front kind ++ rest
    = (Bytes.ofText c.name ++ 95 :: Bytes.ofText kind.name) ++ 95 :: rest := by
  have underscore : Bytes.ofText "_" = [95] := by decide
  rw [front_append, underscore]
  simp

theorem checkKey_eq (c : Config) : c.checkKey
    = (Bytes.ofText c.name ++ 95 :: Bytes.ofText "vault") ++ 95 :: Bytes.ofText "check" := by
  have suffix : Bytes.ofText "_vault_check"
      = 95 :: Bytes.ofText "vault" ++ 95 :: Bytes.ofText "check" := by decide
  rw [checkKey, Bytes.ofText_append, suffix]
  simp

theorem name_of_checkKey (same : c.checkKey = c'.checkKey) : c.name = c'.name := by
  rw [checkKey, checkKey, Bytes.ofText_append, Bytes.ofText_append, List.append_cancel_right_eq] at same
  exact Bytes.ofText_inj same

theorem Owns.unique (owns : c.Owns kind key) (owns' : c'.Owns kind' key) :
    c.name = c'.name ∧ kind = kind' := by
  obtain ⟨digest, rfl⟩ := owns
  obtain ⟨digest', same⟩ := owns'
  rw [front_eq, front_eq] at same
  have ⟨fronts, _⟩ := Bytes.eq_of_last_underscore (Base64.underscore_notMem_encode _)
    (Base64.underscore_notMem_encode _) same
  have ⟨names, kinds⟩ := Bytes.eq_of_last_underscore (underscore_notMem_name kind)
    (underscore_notMem_name kind') fronts
  refine ⟨Bytes.ofText_inj names, ?_⟩
  cases kind <;> cases kind' <;> first | rfl | exact absurd (Bytes.ofText_inj kinds) (by decide)

theorem Owns.ne_checkKey (owns : c.Owns kind key) (c' : Config) : key ≠ c'.checkKey := by
  obtain ⟨digest, rfl⟩ := owns
  rw [front_eq, checkKey_eq]
  intro same
  have ⟨fronts, _⟩ := Bytes.eq_of_last_underscore (Base64.underscore_notMem_encode _) (by decide) same
  have ⟨_, kinds⟩ := Bytes.eq_of_last_underscore (underscore_notMem_name kind) (by decide) fronts
  revert kinds
  cases kind with
  | identityKeypair => decide
  | shareKeypair => decide
  | read => decide
  | write => decide

theorem Own.name (own : c.Own key) (own' : c'.Own key) : c.name = c'.name := by
  obtain rfl | ⟨kind, owns⟩ := own
  · obtain same | ⟨kind', owns'⟩ := own'
    · exact name_of_checkKey same
    · exact absurd rfl (owns'.ne_checkKey c)
  · obtain rfl | ⟨kind', owns'⟩ := own'
    · exact absurd rfl (owns.ne_checkKey c')
    · exact (owns.unique owns').1

theorem owns_storageKey [Crypto] (c : Config) (kind : RecordKind) (record : Bytes) :
    c.Owns kind (storageKey c kind record) :=
  ⟨_, rfl⟩

end Config

variable [Crypto] {c c' : Config} {contents : Contents} {master : SealingKey}
  {kind kind' : RecordKind} {key record record' plaintext opened : Bytes}

/-- The digest of the ciphertext of a record. -/
def recordDigest (record : Bytes) : Digest := Crypto.digest (record.drop 28)

theorem storageKey_eq_iff : storageKey c kind record = storageKey c' kind' record' ↔
    c.name = c'.name ∧ kind = kind' ∧ recordDigest record = recordDigest record' := by
  constructor
  · intro same
    obtain ⟨names, rfl⟩ := (c.owns_storageKey kind record).unique (same ▸ c'.owns_storageKey kind' record')
    rw [storageKey, storageKey, Config.front_eq, Config.front_eq] at same
    obtain ⟨_, digests⟩ := Bytes.eq_of_last_underscore (Base64.underscore_notMem_encode _)
      (Base64.underscore_notMem_encode _) same
    have length : (recordDigest record).bytes.length = (recordDigest record').bytes.length :=
      (recordDigest record).length_bytes.trans (recordDigest record').length_bytes.symm
    exact ⟨names, rfl, Block.ext (Base64.encode_inj length (Bytes.ofText_inj digests))⟩
  · rintro ⟨names, rfl, digests⟩
    rw [storageKey, storageKey, Config.front, Config.front, names]
    exact congrArg (fun digest : Digest => _ ++ Bytes.ofText (Base64.encode digest.bytes)) digests

/-! ### Listings -/

theorem front_storageKey (c : Config) (kind : RecordKind) (record : Bytes) :
    c.front kind <+: storageKey c kind record :=
  List.prefix_append _ _

theorem kind_of_front (inside : c.front kind' <+: storageKey c kind record) : kind' = kind := by
  obtain ⟨rest, same⟩ := inside
  exact Config.front_inj same

omit [Crypto] in
theorem ne_checkKey_of_front (inside : c.front kind <+: key) : key ≠ c.checkKey := by
  obtain ⟨rest, rfl⟩ := inside
  exact c.checkKey_ne kind rest

theorem mem_listing_congr {before after : Contents} {x : Bytes × Bytes}
    (same : c.front kind <+: x.1 → after.get? x.1 = before.get? x.1) :
    x ∈ listing master (c.front kind) after ↔ x ∈ listing master (c.front kind) before := by
  obtain ⟨key, plaintext⟩ := x
  rw [mem_listing, mem_listing]
  constructor
  · rintro ⟨inside, record, stored, opens⟩
    exact ⟨inside, record, (same inside).symm.trans stored, opens⟩
  · rintro ⟨inside, record, stored, opens⟩
    exact ⟨inside, record, (same inside).trans stored, opens⟩

theorem mem_listing_insert (opens : openRecord? master record = some plaintext) :
    (key, opened) ∈ listing master (c.front kind')
        (contents.insert (storageKey c kind record) record) ↔
      (kind' = kind ∧ key = storageKey c kind record ∧ opened = plaintext) ∨
        key ≠ storageKey c kind record ∧ (key, opened) ∈ listing master (c.front kind') contents := by
  rw [mem_listing, mem_listing]
  by_cases here : key = storageKey c kind record
  · subst here
    rw [Contents.get?_insert, if_pos rfl]
    constructor
    · rintro ⟨inside, _, stored, opens'⟩
      cases stored
      rw [opens] at opens'
      cases opens'
      exact .inl ⟨kind_of_front inside, rfl, rfl⟩
    · rintro (⟨rfl, _, rfl⟩ | ⟨other, _⟩)
      · exact ⟨front_storageKey c kind' record, record, rfl, opens⟩
      · exact absurd rfl other
  · rw [Contents.get?_insert, if_neg here]
    simp [here]

theorem mem_listing_erase {front : Bytes} {x : Bytes × Bytes} :
    x ∈ listing master front (contents.erase key) ↔ x ∈ listing master front contents ∧ x.1 ≠ key := by
  obtain ⟨k, opened⟩ := x
  rw [mem_listing, mem_listing]
  by_cases here : k = key
  · simp [Contents.get?_erase, here]
  · rw [Contents.get?_erase_of_ne here]
    simp [here]

theorem notMem_listing_wiped (x : Bytes × Bytes) :
    x ∉ listing master (c.front kind) (wiped c master contents) := by
  obtain ⟨k, opened⟩ := x
  intro member
  obtain ⟨inside, record, stored, opens⟩ := mem_listing.mp member
  rw [(get?_wiped.mp stored).2.2 kind inside] at opens
  cases opens

end Vault

end DocumentShare
