import DocumentShare.Proofs.Credentials.Selection
import Mathlib.Data.List.Nodup

/-!
# Texts of credentials

A text may be under many keys, so what tells those of a kind apart is not where they are but their
`label`: of a keypair its identifier, of a pack all of it. `Orderly` is that no two texts of a kind have
one label, `Effect` what an operation can do to the records, and `Orderly.effect` that it keeps the order.
-/

namespace DocumentShare

open Decoder Work

theorem Keypair.decode_encode [Crypto] {r : Role} (k : Keypair r) : decode r k.encode = .ok k := by
  have read : (do return (← Identifier.decode r, ← Decoder.block 32) :
      Decoder (Identifier r × Secret)).Reads (k.id, k.secret) (k.id.encode ++ (k.secret.bytes ++ []))
        (True ∧ True ∧ True) :=
    (Identifier.reads_decode k.id).bind ((Reads.block k.secret).bind (.pure _))
  have parts := read.runAll.1 ⟨trivial, trivial, trivial⟩
  rw [List.append_nil] at parts
  unfold decode encode
  rw [parts]
  exact dif_pos k.publicKey_secret

namespace Credentials

section General

variable [Crypto] {c : Vault.Config} {master : SealingKey} {contents after : Contents}
  {kind : Vault.RecordKind} {plaintext : Bytes} {sure sure' : Prop}

/-! ### Texts -/

/-- What may be kept as a record of a kind. -/
inductive Fits : Vault.RecordKind → Bytes → Prop
  | keypair {r : Role} (k : Keypair r) : Fits (keypairKind r) k.encode
  | pack {p : Pack} (valid : p.isValid) : Fits p.mode.recordKind p.encode

theorem Fits.exists_keypair {r : Role} (fits : Fits (keypairKind r) plaintext) :
    ∃ k : Keypair r, plaintext = k.encode := by
  generalize same : keypairKind r = kind at fits
  cases fits with
  | @keypair r' k =>
    obtain rfl : r = r' := by
      cases r <;> cases r' <;> first | rfl | cases same
    exact ⟨k, rfl⟩
  | @pack p _ => cases r <;> cases mode : p.mode <;> rw [mode] at same <;> cases same

theorem Fits.exists_pack {mode : AccessMode} (fits : Fits mode.recordKind plaintext) :
    ∃ p : Pack, p.mode = mode ∧ p.isValid ∧ plaintext = p.encode := by
  generalize same : mode.recordKind = kind at fits
  cases fits with
  | @keypair r _ => cases r <;> cases mode <;> cases same
  | @pack p valid =>
    refine ⟨p, ?_, valid, rfl⟩
    cases mode <;> cases here : p.mode <;> rw [here] at same <;> first | rfl | cases same

/-- What tells the texts of a kind apart: of a keypair all but the secret that ends it, of a pack all
of it. -/
def label : Vault.RecordKind → Bytes → Bytes
  | .identityKeypair, plaintext => plaintext.take (plaintext.length - 32)
  | .shareKeypair, plaintext => plaintext.take (plaintext.length - 32)
  | .read, plaintext => plaintext
  | .write, plaintext => plaintext

theorem label_keypair {r : Role} (k : Keypair r) : label (keypairKind r) k.encode = k.id.encode := by
  have front : k.encode.take (k.encode.length - 32) = k.id.encode := by
    apply List.take_left'
    rw [Keypair.encode, List.length_append, k.secret.length_bytes, Nat.add_sub_cancel]
  cases r with
  | identity => exact front
  | share => exact front

omit [Crypto] in
theorem label_pack (mode : AccessMode) (plaintext : Bytes) :
    label mode.recordKind plaintext = plaintext := by
  cases mode with
  | read => rfl
  | write => rfl

theorem keypairIn_encode {r : Role} (name : Identifier r) (k : Keypair r) :
    keypairIn name k.encode = if k.id = name then some k else none := by
  rw [keypairIn, k.decode_encode]

/-! ### The invariant -/

/-- All texts that a master key opens fit their kind, and under one kind no two have one label. -/
structure Orderly (c : Vault.Config) (master : SealingKey) (contents : Contents) (sure : Prop) :
    Prop where
  filed : Filed c contents
  fits : ∀ kind, ∀ x ∈ Vault.listing master (c.front kind) contents, Fits kind x.2
  apart : ∀ kind, ∀ x ∈ Vault.listing master (c.front kind) contents,
    ∀ y ∈ Vault.listing master (c.front kind) contents, label kind x.2 = label kind y.2 → x.1 = y.1
  /-- The receiver of each pack is held if it is sure that nothing was replaced. -/
  backed : sure → ∀ mode : AccessMode,
    ∀ x ∈ Vault.listing master (c.front mode.recordKind) contents,
      ∃ p : Pack, x.2 = p.encode ∧ (keypairAmong c master contents p.receiver).isSome

theorem Orderly.weaken (orderly : Orderly c master contents sure) (surer : sure' → sure) :
    Orderly c master contents sure' :=
  ⟨orderly.filed, orderly.fits, orderly.apart, fun here => orderly.backed (surer here)⟩

theorem Orderly.vacant (filed : Filed c contents)
    (vacant : ∀ kind x, x ∉ Vault.listing master (c.front kind) contents) :
    Orderly c master contents sure :=
  ⟨filed, fun kind x member => absurd member (vacant kind x),
    fun kind x member => absurd member (vacant kind x),
    fun _ _ x member => absurd member (vacant _ x)⟩

theorem Orderly.adds (orderly : Orderly c master contents sure) (fits : Fits kind plaintext)
    (fresh : ∀ x ∈ Vault.listing master (c.front kind) contents,
      label kind x.2 ≠ label kind plaintext)
    (backing : ∀ mode : AccessMode, mode.recordKind = kind →
      ∃ p : Pack, plaintext = p.encode ∧ (keypairAmong c master contents p.receiver).isSome)
    (adds : Adds c master contents kind plaintext after)
    (grows : sure' → sure ∧ Grows c master contents after) : Orderly c master after sure' where
  filed := orderly.filed.adds adds
  fits := by
    intro kind' x member
    obtain ⟨rfl, same⟩ | before := adds.known member
    · rw [same]
      exact fits
    · exact orderly.fits kind' x before
  apart := by
    obtain ⟨record, opens, rfl⟩ := adds
    intro kind' ⟨key, text⟩ member ⟨key', text'⟩ member' same
    obtain ⟨rfl, rfl, rfl⟩ | ⟨_, before⟩ := (Vault.mem_listing_insert opens).mp member
    · obtain ⟨_, rfl, _⟩ | ⟨_, before'⟩ := (Vault.mem_listing_insert opens).mp member'
      · rfl
      · exact absurd same.symm (fresh _ before')
    · obtain ⟨rfl, rfl, rfl⟩ | ⟨_, before'⟩ := (Vault.mem_listing_insert opens).mp member'
      · exact absurd same (fresh _ before)
      · exact orderly.apart kind' _ before _ before' same
  backed := by
    intro here mode x member
    obtain ⟨before, grows⟩ := grows here
    obtain ⟨same, encoded⟩ | listed := adds.known member
    · obtain ⟨p, text, held⟩ := backing mode same
      exact ⟨p, encoded.trans text, grows.keypairAmong held⟩
    · obtain ⟨p, text, held⟩ := orderly.backed before mode x listed
      exact ⟨p, text, grows.keypairAmong held⟩

theorem Orderly.keypairAmong_isSome_iff {r : Role} {name : Identifier r}
    (orderly : Orderly c master contents sure) : (keypairAmong c master contents name).isSome ↔
      ∃ x ∈ Vault.listing master (c.front (keypairKind r)) contents,
        ∃ k : Keypair r, x.2 = k.encode ∧ k.id = name := by
  rw [keypairAmong, List.findSome?_isSome_iff]
  constructor
  · intro ⟨x, member, found⟩
    obtain ⟨k, text⟩ := (orderly.fits _ x member).exists_keypair
    rw [text, keypairIn_encode] at found
    split at found
    · next same => exact ⟨x, member, k, text, same⟩
    · cases found
  · intro ⟨x, member, k, text, same⟩
    refine ⟨x, member, ?_⟩
    rw [text, keypairIn_encode, if_pos same]
    rfl

/-- No label is that of a keypair whose identifier is not held. -/
theorem Orderly.label_ne_of_absent {r : Role} (orderly : Orderly c master contents sure)
    (k : Keypair r) (absent : ¬(keypairAmong c master contents k.id).isSome) :
    ∀ x ∈ Vault.listing master (c.front (keypairKind r)) contents,
      label (keypairKind r) x.2 ≠ label (keypairKind r) k.encode := by
  intro x member same
  obtain ⟨l, text⟩ := (orderly.fits _ x member).exists_keypair
  rw [text, label_keypair, label_keypair] at same
  have ids : l.id = k.id := by
    apply And.left (Identifier.encode_append_inj (s := []) (t := []) ?_)
    rw [same]
  exact absent (orderly.keypairAmong_isSome_iff.mpr ⟨x, member, l, text, ids⟩)

/-! ### What an operation changes -/

/-- What an operation does to the contents of an unlocked vault. -/
inductive Effect (c : Vault.Config) (master : SealingKey) (contents : Contents) : Contents → Prop
  | nothing : Effect c master contents contents
  | keypair {r : Role} (k : Keypair r) {after : Contents}
      (ensures : Ensures c master contents (keypairKind r) k.encode
        (keypairAmong c master contents k.id).isSome after) : Effect c master contents after
  | pack {p : Pack} {after : Contents} (valid : p.isValid)
      (held : (keypairAmong c master contents p.receiver).isSome)
      (ensures : Ensures c master contents p.mode.recordKind p.encode
        (∃ key, (key, p.encode) ∈ Vault.listing master (c.front p.mode.recordKind) contents) after) :
      Effect c master contents after
  | wiped : Effect c master contents (Vault.wiped c master contents)

theorem Filed.wiped (filed : Filed c contents) : Filed c (Vault.wiped c master contents) := by
  intro key record stored
  exact filed key record (Vault.get?_wiped.mp stored).1

theorem Orderly.effect {before : Contents} (orderly : Orderly c master contents sure)
    (same : ∀ kind key, c.front kind <+: key → contents.get? key = before.get? key)
    (effect : Effect c master contents after) :
    Orderly c master after (Distinct before after ∧ sure) := by
  have grows {kind : Vault.RecordKind} {plaintext : Bytes}
      (adds : Adds c master contents kind plaintext after) (here : Distinct before after ∧ sure) :
      sure ∧ Grows c master contents after := ⟨here.2, adds.grows orderly.filed same here.1⟩
  cases effect with
  | nothing => exact orderly.weaken And.right
  | keypair k ensures =>
    cases ensures with
    | already _ => exact orderly.weaken And.right
    | added absent adds =>
      refine orderly.adds (.keypair k) (orderly.label_ne_of_absent k absent) ?_ adds (grows adds)
      intro mode same
      cases mode <;> rename_i r <;> cases r <;> cases same
  | @pack p _ valid held ensures =>
    cases ensures with
    | already _ => exact orderly.weaken And.right
    | added absent adds =>
      refine orderly.adds (.pack valid) ?_ (fun _ _ => ⟨p, rfl, held⟩) adds (grows adds)
      intro ⟨key, text⟩ member same
      rw [label_pack, label_pack] at same
      obtain rfl : text = p.encode := same
      exact absent ⟨key, member⟩
  | wiped => exact .vacant orderly.filed.wiped fun _ x => Vault.notMem_listing_wiped x

/-! ### What is listed -/

/-- The keypairs of a role that a master key opens. -/
def keypairsAmong (c : Vault.Config) (master : SealingKey) (contents : Contents) (r : Role) :
    List (Keypair r) :=
  (Vault.listing master (c.front (keypairKind r)) contents).filterMap fun x =>
    (Keypair.decode r x.2).toOption

/-- The packs that a master key opens and a query selects. -/
def packsAmong (c : Vault.Config) (master : SealingKey) (contents : Contents) (q : CapabilityQuery) :
    List Pack :=
  (q.kinds.map fun kind => Vault.listing master (c.front kind) contents).flatten.filterMap fun x =>
    (Pack.decode x.2).toOption.filter q.selects

omit [Crypto] in
theorem exists_mode_of_kinds {q : CapabilityQuery} (among : kind ∈ q.kinds) :
    ∃ mode : AccessMode, kind = mode.recordKind ∧ ∀ m ∈ q.mode, mode = m := by
  unfold CapabilityQuery.kinds at among
  cases wanted : q.mode with
  | none =>
    rw [wanted] at among
    obtain rfl | among := List.mem_cons.mp among
    · exact ⟨.read, rfl, by simp⟩
    · exact ⟨.write, List.mem_singleton.mp among, by simp⟩
  | some mode =>
    rw [wanted] at among
    exact ⟨mode, List.mem_singleton.mp among, by simp⟩

namespace Orderly

variable (orderly : Orderly c master contents sure)

include orderly

theorem nodup_labels (kind : Vault.RecordKind) :
    ((Vault.listing master (c.front kind) contents).map fun x => label kind x.2).Nodup := by
  rw [List.Nodup, List.pairwise_map]
  refine (Vault.sorted_listing master (c.front kind) contents).imp_of_mem ?_
  intro x y member member' less same
  rw [orderly.apart kind x member y member' same] at less
  exact absurd less (List.lt_irrefl _)

theorem map_encode_keypairs (r : Role) :
    (Vault.listing master (c.front (keypairKind r)) contents).map Prod.snd
      = (keypairsAmong c master contents r).map Keypair.encode := by
  have fits := orderly.fits (keypairKind r)
  unfold keypairsAmong
  generalize Vault.listing master (c.front (keypairKind r)) contents = items at fits ⊢
  induction items with
  | nil => rfl
  | cons x items ih =>
    obtain ⟨k, text⟩ := (fits x List.mem_cons_self).exists_keypair
    have read : (Keypair.decode r x.2).toOption = some k := by
      rw [text, k.decode_encode]
      rfl
    simp only [List.filterMap_cons, List.map_cons, read]
    rw [text, ih fun y member => fits y (List.mem_cons_of_mem x member)]

theorem nodup_ids (r : Role) : ((keypairsAmong c master contents r).map Keypair.id).Nodup := by
  have labels := orderly.nodup_labels (keypairKind r)
  have same : (Vault.listing master (c.front (keypairKind r)) contents).map
      (fun x => label (keypairKind r) x.2)
        = ((keypairsAmong c master contents r).map Keypair.id).map Identifier.encode := by
    have texts := congrArg (List.map (label (keypairKind r))) (orderly.map_encode_keypairs r)
    rw [List.map_map, List.map_map] at texts
    rw [List.map_map]
    exact texts.trans (List.map_congr_left fun k _ => label_keypair k)
  rw [same] at labels
  exact List.Nodup.of_map _ labels

theorem mem_ids_iff {r : Role} {name : Identifier r} :
    name ∈ (keypairsAmong c master contents r).map Keypair.id ↔
      (keypairAmong c master contents name).isSome := by
  rw [orderly.keypairAmong_isSome_iff, List.mem_map]
  constructor
  · intro ⟨k, member, same⟩
    have listed :
        k.encode ∈ (Vault.listing master (c.front (keypairKind r)) contents).map Prod.snd := by
      rw [orderly.map_encode_keypairs r]
      exact List.mem_map_of_mem member
    obtain ⟨x, member, text⟩ := List.mem_map.mp listed
    exact ⟨x, member, k, text, same⟩
  · intro ⟨x, member, k, text, same⟩
    refine ⟨k, List.mem_filterMap.mpr ⟨x, member, ?_⟩, same⟩
    rw [text, k.decode_encode]
    rfl

theorem exists_packs (mode : AccessMode) : ∃ ps : List Pack,
    (Vault.listing master (c.front mode.recordKind) contents).map Prod.snd = ps.map Pack.encode ∧
      ∀ p ∈ ps, p.mode = mode ∧ p.isValid := by
  have fits := orderly.fits mode.recordKind
  generalize Vault.listing master (c.front mode.recordKind) contents = items at fits ⊢
  induction items with
  | nil => exact ⟨[], rfl, by simp⟩
  | cons x items ih =>
    obtain ⟨p, inMode, valid, text⟩ := (fits x List.mem_cons_self).exists_pack
    obtain ⟨ps, texts, all⟩ := ih fun y member => fits y (List.mem_cons_of_mem x member)
    refine ⟨p :: ps, ?_, List.forall_mem_cons.mpr ⟨⟨inMode, valid⟩, all⟩⟩
    rw [List.map_cons, List.map_cons, text, texts]

theorem nodup_texts (mode : AccessMode) :
    ((Vault.listing master (c.front mode.recordKind) contents).map Prod.snd).Nodup := by
  have labels := orderly.nodup_labels mode.recordKind
  simp only [label_pack] at labels
  exact labels

theorem of_decode {mode : AccessMode} {x : Bytes × Bytes} {p : Pack}
    (member : x ∈ Vault.listing master (c.front mode.recordKind) contents)
    (read : (Pack.decode x.2).toOption = some p) : p.mode = mode ∧ p.isValid ∧ x.2 = p.encode := by
  obtain ⟨q, inMode, valid, text⟩ := (orderly.fits _ x member).exists_pack
  rw [text] at read
  obtain rfl := Pack.eq_of_decode_encode (Pack.decode_of_toOption read)
  exact ⟨inMode, valid, text⟩

theorem mem_packsAmong {q : CapabilityQuery} {p : Pack}
    (member : p ∈ packsAmong c master contents q) : p.isValid ∧ (∀ m ∈ q.mode, p.mode = m) ∧
      ∃ x ∈ Vault.listing master (c.front p.mode.recordKind) contents,
        x.2 = p.encode ∧ (Pack.decode x.2).toOption = some p := by
  obtain ⟨x, among, selected⟩ := List.mem_filterMap.mp member
  obtain ⟨items, within, here⟩ := List.mem_flatten.mp among
  obtain ⟨kind, wanted, rfl⟩ := List.mem_map.mp within
  obtain ⟨mode, rfl, right⟩ := exists_mode_of_kinds wanted
  obtain ⟨read, _⟩ := Option.filter_eq_some_iff.mp selected
  obtain ⟨rfl, valid, text⟩ := orderly.of_decode here read
  exact ⟨valid, right, x, here, text, read⟩

theorem receiver_held (here : sure) {q : CapabilityQuery} {p : Pack}
    (member : p ∈ packsAmong c master contents q) :
    (keypairAmong c master contents p.receiver).isSome := by
  obtain ⟨_, _, x, among, _, read⟩ := orderly.mem_packsAmong member
  obtain ⟨p', text', held⟩ := orderly.backed here _ x among
  rw [text'] at read
  obtain rfl := Pack.eq_of_decode_encode (Pack.decode_of_toOption read)
  exact held

theorem nodup_packsAmong (q : CapabilityQuery) : (packsAmong c master contents q).Nodup := by
  -- No pack is read from two records: within a kind their texts differ, across kinds their modes do.
  let unlike (x y : Bytes × Bytes) : Prop :=
    ∀ p, (Pack.decode x.2).toOption = some p → (Pack.decode y.2).toOption ≠ some p
  refine List.Pairwise.filterMap (R := unlike) _ ?_ (List.pairwise_flatten.mpr ⟨?_, ?_⟩)
  · intro x y differ p selected p' selected' same
    subst same
    obtain ⟨read, _⟩ := Option.filter_eq_some_iff.mp selected
    obtain ⟨read', _⟩ := Option.filter_eq_some_iff.mp selected'
    exact differ p read read'
  · intro items within
    obtain ⟨kind, wanted, rfl⟩ := List.mem_map.mp within
    obtain ⟨mode, rfl, _⟩ := exists_mode_of_kinds wanted
    refine (List.pairwise_map.mp (orderly.nodup_texts mode)).imp_of_mem ?_
    intro x y member member' differ p read read'
    obtain ⟨_, _, text⟩ := orderly.of_decode member read
    obtain ⟨_, _, text'⟩ := orderly.of_decode member' read'
    exact differ (text.trans text'.symm)
  · have kinds : q.kinds.Nodup := by
      unfold CapabilityQuery.kinds
      cases q.mode with
      | none => decide
      | some mode => exact List.pairwise_singleton _ _
    refine List.pairwise_map.mpr (kinds.imp_of_mem ?_)
    intro kind kind' wanted wanted' differ x member y member' p read read'
    obtain ⟨mode, rfl, _⟩ := exists_mode_of_kinds wanted
    obtain ⟨mode', rfl, _⟩ := exists_mode_of_kinds wanted'
    obtain ⟨rfl, _⟩ := orderly.of_decode member read
    obtain ⟨rfl, _⟩ := orderly.of_decode member' read'
    exact differ rfl

end Orderly

end General

end Credentials

end DocumentShare
