import DocumentShare.Authority.Entry
import DocumentShare.Proofs.Authority.Canonical

/-!
# What a signature covers

The parts of a signed message stand one behind the other with no length around them. Each ends where its
own bytes say, whatever they are and whatever follows, so that the bytes of an entry are those of no other
entry (`Entry.signedBytes_exact`), and the bytes of a handover tell what it follows, the area and the
recipient (`handovers_unambiguous`).
-/

namespace DocumentShare

open Decoder

/-! ### Entries -/

namespace Entry

theorem consumes_decode : decode.Consumes fun b e => b = e.encode := by
  unfold decode
  apply Identifier.consumes_decode.field
  intro share
  apply Identifier.consumes_decode.field
  intro identity
  apply Path.consumes_decodeOrdered.field
  intro path
  apply Consumes.word64.field
  intro timestamp
  apply Consumes.word64.field
  intro payloadLength
  apply (Consumes.block 32).field
  intro payloadDigest
  apply Consumes.pure
  simp [encode]

theorem exact_decode : decode.Exact encode := .of_reads reads_decode consumes_decode

/-- The bytes that a token signs are those of one entry, which is read from them alone, and no
entry's bytes begin those of another. -/
theorem signedBytes_exact (e f : Entry) (rest b : Bytes) (offset : Nat) (r after : Reader) :
    decode ⟨e.encode ++ rest, offset⟩ = .ok (e, ⟨rest, offset + e.encode.length⟩) ∧
    (decode r = .ok (e, after) ↔
      r.rest = e.encode ++ after.rest ∧ after.offset = r.offset + e.encode.length) ∧
    (decode.runAll b = .ok e ↔ e.encode = b) ∧
    (e.encode <+: f.encode ↔ e = f) ∧ (e.encode = f.encode ↔ e = f) := by
  refine ⟨(exact_decode _ _ _).mpr ⟨rfl, rfl⟩, exact_decode r e after, exact_decode.runAll_iff,
    exact_decode.prefix_iff, fun same => ?_, congrArg encode⟩
  exact exact_decode.prefix_iff.mp (same ▸ List.prefix_rfl)

end Entry

/-! ### Parts of a handover -/

/-- A range that ends before it starts is told from others too, though no reader accepts it. -/
theorem TimeRange.encode_append_inj {r r' : TimeRange} {s t : Bytes}
    (same : r.encode ++ s = r'.encode ++ t) : r = r' ∧ s = t := by
  obtain ⟨start, stop⟩ := r
  obtain ⟨start', stop'⟩ := r'
  rw [encode, encode, List.append_assoc, List.append_assoc] at same
  obtain ⟨rfl, flagged⟩ := Bytes.ofWord_append_inj same
  cases stop with
  | none =>
    cases stop' with
    | none => exact ⟨rfl, (List.cons.inj flagged).2⟩
    | some last' => exact absurd (List.cons.inj flagged).1 (by decide)
  | some last =>
    cases stop' with
    | none => exact absurd (List.cons.inj flagged).1 (by decide)
    | some last' =>
      obtain ⟨rfl, rest⟩ := Bytes.ofWord_append_inj (List.cons.inj flagged).2
      exact ⟨rfl, rest⟩

namespace Area

theorem encode_append_inj {a b : Area} {s t : Bytes} (same : a.encode ++ s = b.encode ++ t) :
    a = b ∧ s = t := by
  obtain ⟨subspace, path, times⟩ := a
  obtain ⟨subspace', path', times'⟩ := b
  simp only [encode, List.append_assoc] at same
  obtain ⟨rfl, paths⟩ := (reads_decodeSubspace subspace).unique (reads_decodeSubspace subspace')
    trivial trivial same
  obtain ⟨rfl, ranges⟩ := (reads_decodePath path).unique (reads_decodePath path') trivial trivial paths
  obtain ⟨rfl, rest⟩ := TimeRange.encode_append_inj ranges
  exact ⟨rfl, rest⟩

theorem length_encode_pos (a : Area) : 0 < a.encode.length := by
  rw [encode, encodePath]
  simp only [List.length_append, List.length_cons]
  omega

end Area

theorem Identifier.length_encode_identity (i : Identity) : i.encode.length = 36 := by
  have name : i.name.bytes.length = 4 := Nat.le_antisymm i.name.legal.greatest i.name.legal.least
  have full : ¬i.name.bytes.length < Role.identity.greatestLength := by
    rw [name]
    decide
  rw [encode, if_neg full, List.append_nil, List.length_append, name, i.key.length_bytes]

theorem AccessMode.byte_inj {mode mode' : AccessMode} (same : mode.byte = mode'.byte) :
    mode = mode' := by
  cases mode <;> cases mode' <;> first | rfl | exact absurd same (by decide)

/-! ### Handovers -/

/-- What a handover follows: the signature of the step before it or of an owned root, or what names the
root of a communal capability. -/
inductive Precedent
  | signed (signature : Signature)
  | communal (mode : AccessMode) (share : Share) (user : Identity)
deriving DecidableEq

namespace Precedent

def isSigned : Precedent → Bool
  | signed _ => true
  | communal _ _ _ => false

def bytes : Precedent → Bytes
  | signed signature => signature.bytes
  | communal mode share user => mode.byte :: (share.encode ++ user.encode)

theorem bytes_append_inj {p q : Precedent} {s t : Bytes} (alike : p.isSigned = q.isSigned)
    (same : p.bytes ++ s = q.bytes ++ t) : p = q ∧ s = t := by
  cases p with
  | signed signature =>
    cases q with
    | signed signature' =>
      obtain ⟨rfl, rest⟩ := Block.bytes_append_inj same
      exact ⟨rfl, rest⟩
    | communal _ _ _ => cases alike
  | communal mode share user =>
    cases q with
    | signed _ => cases alike
    | communal mode' share' user' =>
      simp only [bytes, List.cons_append, List.cons.injEq, List.append_assoc] at same
      obtain ⟨modes, shares⟩ := same
      obtain rfl := AccessMode.byte_inj modes
      obtain ⟨rfl, users⟩ := Identifier.encode_append_inj shares
      obtain ⟨rfl, rest⟩ := Identifier.encode_append_inj users
      exact ⟨rfl, rest⟩

end Precedent

namespace Capability

/-- What the next handover of a capability follows. -/
def precedent (c : Capability) : Precedent :=
  match c.chain.last?, c.root with
  | some d, _ => .signed d.signature
  | none, .owned signature => .signed signature
  | none, .communal => .communal c.mode c.share c.user

theorem previous_eq (c : Capability) : c.previous = c.precedent.bytes := by
  unfold previous precedent rootHandover
  cases c.chain.last? with
  | some d => rfl
  | none => cases c.root <;> rfl

theorem handoverMessage_inj {p q : Precedent} {a b : Area} {u v : Identity}
    (alike : p.isSigned = q.isSigned)
    (same : handoverMessage p.bytes a u = handoverMessage q.bytes b v) : p = q ∧ a = b ∧ u = v := by
  rw [handoverMessage, handoverMessage, List.append_assoc, List.append_assoc] at same
  obtain ⟨precedents, granted⟩ := Precedent.bytes_append_inj alike same
  rw [← List.append_nil u.encode, ← List.append_nil v.encode] at granted
  obtain ⟨areas, received⟩ := Area.encode_append_inj granted
  exact ⟨precedents, areas, (Identifier.encode_append_inj received).1⟩

end Capability

namespace SubspaceCapability

theorem handoverMessage_inj {s t : Signature} {u v : Identity}
    (same : handoverMessage s u = handoverMessage t v) : s = t ∧ u = v := by
  rw [handoverMessage, handoverMessage, ← List.append_nil u.encode, ← List.append_nil v.encode] at same
  obtain ⟨signatures, received⟩ := Block.bytes_append_inj same
  exact ⟨signatures, (Identifier.encode_append_inj received).1⟩

/-- Behind the signature there is an identity alone, and all identities are equally long. -/
theorem handoverMessage_ne (s t : Signature) (a : Area) (u v : Identity) :
    handoverMessage s u ≠ Capability.handoverMessage t.bytes a v := by
  intro same
  rw [handoverMessage, Capability.handoverMessage, List.append_assoc] at same
  have lengths := congrArg List.length (Block.bytes_append_inj same).2
  rw [List.length_append, Identifier.length_encode_identity, Identifier.length_encode_identity]
    at lengths
  have := a.length_encode_pos
  omega

end SubspaceCapability

/-- What is signed to hand on tells what it follows, the area and the recipient, as long as it is
known whether it follows a signature or a communal root. -/
theorem handovers_unambiguous :
    (∀ (p q : Precedent) (a b : Area) (u v : Identity), p.isSigned = q.isSigned →
      (Capability.handoverMessage p.bytes a u = Capability.handoverMessage q.bytes b v ↔
        p = q ∧ a = b ∧ u = v) ∧
      (p.bytes = q.bytes ↔ p = q)) ∧
    (∀ c : Capability, c.previous = c.precedent.bytes) ∧
    (∀ (s t : Signature) (u v : Identity),
      SubspaceCapability.handoverMessage s u = SubspaceCapability.handoverMessage t v ↔
        s = t ∧ u = v) ∧
    (∀ (mode : AccessMode) (u v : Identity),
      Capability.rootMessage mode u ≠ SubspaceCapability.rootMessage v) ∧
    ∀ (s t : Signature) (a : Area) (u v : Identity),
      SubspaceCapability.handoverMessage s u ≠ Capability.handoverMessage t.bytes a v := by
  refine ⟨fun p q a b u v alike => ⟨⟨Capability.handoverMessage_inj alike, ?_⟩, ?_, congrArg _⟩,
    Capability.previous_eq, fun s t u v => ⟨SubspaceCapability.handoverMessage_inj, ?_⟩, ?_,
    SubspaceCapability.handoverMessage_ne⟩
  · rintro ⟨rfl, rfl, rfl⟩
    rfl
  · intro same
    rw [← List.append_nil p.bytes, ← List.append_nil q.bytes] at same
    exact (Precedent.bytes_append_inj alike same).1
  · rintro ⟨rfl, rfl⟩
    rfl
  · -- A mode is written as 0 or 1, and the root of a subspace capability begins with 2.
    intro mode u v same
    have tags := (List.cons.inj same).1
    cases mode <;> exact absurd tags (by decide)

section Deeds

open Crypto.Transparent

/-- A communal root and the areas below a path of two time ranges, one of which ends before it starts. -/
def communalRoot : Precedent := .communal .write (share 1) (identity 1)

def orderedArea : Area := ⟨.of (identity 1), path 7, ⟨3, some 9⟩⟩

def invertedArea : Area := ⟨.of (identity 1), path 7, ⟨9, some 3⟩⟩

theorem handovers_unambiguous_inverted_times :
    communalRoot.isSigned = (Precedent.communal .read (share 1) (identity 1)).isSigned ∧
    communalRoot.bytes ≠ (Precedent.communal .read (share 1) (identity 1)).bytes ∧
    Capability.handoverMessage communalRoot.bytes orderedArea (identity 2)
      ≠ Capability.handoverMessage communalRoot.bytes invertedArea (identity 2) := by
  obtain ⟨behind, -⟩ := handovers_unambiguous
  have modes := behind communalRoot (.communal .read (share 1) (identity 1)) orderedArea orderedArea
    (identity 2) (identity 2) rfl
  have times :=
    behind communalRoot communalRoot orderedArea invertedArea (identity 2) (identity 2) rfl
  refine ⟨rfl, mt modes.2.mp (by decide), mt times.1.mp ?_⟩
  rintro ⟨-, same, -⟩
  exact absurd same (by decide)

/-- Behind the front of a communal root, as if it were a signature, what is left of the root may
read as the front of an area. -/
example :
    let user : Identity := ⟨name .identity, ⟨List.replicate 25 1 ++ [0, 1, 0, 5, 7, 7, 7], rfl⟩⟩
    let root := Precedent.communal .write ⟨⟨[97], by decide⟩, .zero 32⟩ user
    Capability.handoverMessage (Precedent.signed (.fit 64 root.bytes)).bytes
        ⟨.any, ⟨[[7, 7, 7, 0, 0]], by decide⟩, .full⟩ (identity 1)
      = Capability.handoverMessage root.bytes .full (identity 1) := by
  decide

end Deeds

end DocumentShare
