import DocumentShare.Proofs.Authority.Signing

/-!
# What a signature is given for

An identity signs entries and handovers with one key, and the bytes of neither say which they are. Behind
a communal root a handover begins with an access mode, which is no letter, and so it is never an entry.
Behind a signature it is one if it stands in the entry's bytes at the places of its own parts
(`Entry.encode_eq_handover_iff`): the signature at the front, where the share and the writer are, and the
recipient at the end, where the payload's length and digest are. A payload's length then reads as a
shortname, which makes the payload a large one.
-/

namespace DocumentShare

/-! ### The ends of an entry's bytes -/

theorem Identifier.encode_identity (i : Identity) : i.encode = i.name.bytes ++ i.key.bytes := by
  have full : ¬i.name.bytes.length < Role.identity.greatestLength :=
    Nat.not_lt.mpr i.name.legal.least
  rw [encode, if_neg full, List.append_nil]

namespace Shortname

theorem le_of_plain {x : UInt8} (plain : isLetter x || isDigit x) : 48 ≤ x.toNat := by
  simp [isLetter, isDigit, UInt8.le_iff_toNat_le] at plain
  omega

/-- As a number, the least shortname of an identity is `a000`. -/
theorem le_toNat (n : Shortname .identity) : 0x61303030 ≤ Bytes.toNat n.bytes := by
  obtain ⟨bytes, legal⟩ := n
  match bytes, legal, (Nat.le_antisymm legal.greatest legal.least : bytes.length = 4) with
  | [a, b, c, d], legal, _ =>
    have first : 97 ≤ a.toNat := by
      have letter : isLetter a := legal.letter
      simp [isLetter, UInt8.le_iff_toNat_le] at letter
      exact letter.1
    have second := le_of_plain (legal.plain b (by simp))
    have third := le_of_plain (legal.plain c (by simp))
    have fourth := le_of_plain (legal.plain d (by simp))
    have value : Bytes.toNat [a, b, c, d]
        = ((a.toNat * 256 + b.toNat) * 256 + c.toNat) * 256 + d.toNat := by
      simp [Bytes.toNat]
    change 0x61303030 ≤ Bytes.toNat [a, b, c, d]
    rw [value]
    omega

end Shortname

namespace Entry

/-- The share and the writer. -/
def names (e : Entry) : Bytes := e.share.encode ++ e.identity.encode

/-- What lies behind as many bytes as a signature has and in front of as many as an identity has. -/
def middle (e : Entry) : Bytes :=
  e.names.drop 64 ++ e.path.ordered ++ Bytes.ofWord e.timestamp ++
    (Bytes.ofWord e.payloadLength).take 4

/-- The last bytes of an entry that are not its digest, as many as an identity's shortname has. -/
def lastName (e : Entry) : Bytes := (Bytes.ofWord e.payloadLength).drop 4

theorem encode_eq_cut (e : Entry) :
    e.encode = e.names.take 64 ++ (e.middle ++ (e.lastName ++ e.payloadDigest.bytes)) := by
  have names : e.names = e.names.take 64 ++ e.names.drop 64 := (List.take_append_drop 64 _).symm
  have length : Bytes.ofWord e.payloadLength =
      (Bytes.ofWord e.payloadLength).take 4 ++ e.lastName := (List.take_append_drop 4 _).symm
  calc e.encode = e.names ++ e.path.ordered ++ Bytes.ofWord e.timestamp ++
        Bytes.ofWord e.payloadLength ++ e.payloadDigest.bytes := rfl
    _ = _ := by
      rw [length]
      conv_lhs => rw [names]
      simp only [middle, List.append_assoc]

theorem length_names (e : Entry) : 64 ≤ e.names.length := by
  have least := e.share.name.legal.least
  simp only [Role.leastLength] at least
  rw [names, List.length_append, Identifier.length_encode_identity, Identifier.encode]
  simp only [List.length_append, e.share.key.length_bytes]
  omega

theorem length_lastName (e : Entry) : e.lastName.length = 4 := by
  rw [lastName, List.length_drop, Bytes.ofWord, Bytes.length_ofNat]

theorem toNat_lastName (e : Entry) : Bytes.toNat e.lastName = e.payloadLength.toNat % 2 ^ 32 :=
  Bytes.toNat_ofNat 4 e.payloadLength.toNat

/-- Behind a signature a handover stands in an entry at the places of its own parts. -/
theorem encode_eq_signed_iff {e : Entry} {s : Signature} {a : Area} {u : Identity} :
    e.encode = Capability.handoverMessage s.bytes a u ↔
      s.bytes = e.names.take 64 ∧ a.encode = e.middle ∧
        u.name.bytes = e.lastName ∧ u.key = e.payloadDigest := by
  rw [encode_eq_cut, Capability.handoverMessage, Identifier.encode_identity, List.append_assoc]
  constructor
  · intro same
    have front : (e.names.take 64).length = s.bytes.length := by
      rw [List.length_take, s.length_bytes, Nat.min_eq_left e.length_names]
    obtain ⟨signature, rest⟩ := List.append_inj same front
    have back : (e.lastName ++ e.payloadDigest.bytes).length
        = (u.name.bytes ++ u.key.bytes).length := by
      rw [← Identifier.encode_identity, Identifier.length_encode_identity, List.length_append,
        length_lastName, e.payloadDigest.length_bytes]
    obtain ⟨area, recipient⟩ := List.append_inj' rest back
    have names : e.lastName.length = u.name.bytes.length := by
      rw [length_lastName]
      exact Nat.le_antisymm u.name.legal.least u.name.legal.greatest
    obtain ⟨name, key⟩ := List.append_inj recipient names
    exact ⟨signature.symm, area.symm, name.symm, Block.ext key.symm⟩
  · rintro ⟨signature, area, name, key⟩
    rw [signature, area, name, key]

/-- Behind a communal root a handover begins with an access mode, and no share does. -/
theorem encode_ne_communal (e : Entry) (mode : AccessMode) (share : Share) (user : Identity) (a : Area)
    (u : Identity) :
    e.encode ≠ Capability.handoverMessage (Precedent.communal mode share user).bytes a u := by
  intro same
  have nonempty := e.share.name.legal.least
  rcases named : e.share.name.bytes with _ | ⟨first, rest⟩
  · rw [named] at nonempty
    exact absurd nonempty (by decide)
  · have letter := e.share.name.legal.letter
    rw [named] at letter
    have letter : Shortname.isLetter first := letter
    have begins : first = mode.byte := by
      rw [encode, Identifier.encode, named] at same
      exact (List.cons.inj same).1
    rw [begins] at letter
    cases mode <;> exact absurd letter (by decide)

/-- An entry is written like a handover exactly if it is cut up like one, behind a signature. So no
entry is that has a payload of small length. -/
theorem encode_eq_handover_iff (e : Entry) (p : Precedent) (a : Area) (u : Identity) :
    (e.encode = Capability.handoverMessage p.bytes a u ↔
      ∃ s, p = .signed s ∧ s.bytes = e.names.take 64 ∧ a.encode = e.middle ∧
        u.name.bytes = e.lastName ∧ u.key = e.payloadDigest) ∧
    (e.payloadLength.toNat % 2 ^ 32 < 0x61303030 →
      e.encode ≠ Capability.handoverMessage p.bytes a u) := by
  have told : e.encode = Capability.handoverMessage p.bytes a u ↔
      ∃ s, p = .signed s ∧ s.bytes = e.names.take 64 ∧ a.encode = e.middle ∧
        u.name.bytes = e.lastName ∧ u.key = e.payloadDigest := by
    cases p with
    | signed s =>
      constructor
      · intro same
        exact ⟨s, rfl, encode_eq_signed_iff.mp same⟩
      · rintro ⟨_, same, parts⟩
        cases same
        exact encode_eq_signed_iff.mpr parts
    | communal mode share user =>
      constructor
      · intro same
        exact absurd same (e.encode_ne_communal mode share user a u)
      · rintro ⟨_, none, _⟩
        cases none
  refine ⟨told, fun small same => ?_⟩
  obtain ⟨s, _, _, _, name, _⟩ := told.mp same
  have least := u.name.le_toNat
  rw [name, toNat_lastName] at least
  exact absurd small (Nat.not_lt.mpr least)

section Disguise

/-- The digest of what is written, and the key of a recipient. -/
def sharedKey : Digest := .zero 32

def recipient : Identity := ⟨⟨[103, 97, 114, 121], by decide⟩, sharedKey⟩

/-- An entry whose writer's key ends like the front of an area. -/
def disguised : Entry where
  share := ⟨⟨[112, 108, 97, 110, 116, 115], by decide⟩, .zero 32⟩
  identity := ⟨⟨[111, 100, 101, 115], by decide⟩,
    ⟨List.replicate 21 1 ++ [0, 1, 0, 12, 118, 101, 114, 115, 101, 47, 49], rfl⟩⟩
  path := .empty
  timestamp := 8
  payloadLength := 0x67617279
  payloadDigest := sharedKey

def handedArea : Area :=
  ⟨.any, ⟨[[118, 101, 114, 115, 101, 47, 49, 0, 0, 0, 0, 0]], by decide⟩,
  ⟨0x8000000, none⟩⟩

/-- Signed to write an entry, these bytes hand on a capability, and the other way round. -/
theorem encode_disguised_eq_handover : disguised.encode =
    Capability.handoverMessage (Precedent.signed (.fit 64 disguised.names)).bytes handedArea
      recipient := by
  decide

theorem encode_ne_handover_of_small :
    { disguised with payloadLength := 121 }.payloadLength.toNat % 2 ^ 32 < 0x61303030 ∧
    { disguised with payloadLength := 121 }.encode ≠
      Capability.handoverMessage (Precedent.signed (.fit 64 disguised.names)).bytes handedArea
        recipient :=
  ⟨by decide, (encode_eq_handover_iff _ _ _ _).2 (by decide)⟩

end Disguise

end Entry

end DocumentShare
