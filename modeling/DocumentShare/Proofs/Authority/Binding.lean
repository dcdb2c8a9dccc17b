import DocumentShare.Proofs.Authority.Encoding
import DocumentShare.Proofs.Authority.Handover

/-!
# What binds a capability to its share

The share of an owned capability is in no message that is signed: the root signature is over the mode
and the first user, and the first step is signed over the root signature. Only the key that verifies
the root signature is left of the share, so `isValid_inShare_iff` says that a capability with another
share put in is valid exactly if its root signature verifies under the key of that share, however long
its chain is.
-/

namespace DocumentShare

namespace Capability

variable {c : Capability} {n : Share} {signature : Signature}

/-- The capability with another share in it and all else as it was. -/
def inShare (c : Capability) (n : Share) : Capability := { c with share := n }

/-- What is written after the share. -/
def tail (c : Capability) : Bytes :=
  c.user.encode ++ c.root.encode ++ c.chain.encode Area.encode

theorem encode_eq (c : Capability) :
    c.encode = c.root.kind :: c.mode.byte :: (c.share.encode ++ c.tail) := by
  simp [encode, tail]

/-- Put in by replacing the bytes of the share, the other share is read as if it had been there. -/
theorem decode_inShare (upright : c.Upright) (n : Share) :
    Decoder.runAll decode (c.root.kind :: c.mode.byte :: (n.encode ++ c.tail))
      = .ok (c.inShare n) := by
  have bytes : c.root.kind :: c.mode.byte :: (n.encode ++ c.tail) = (c.inShare n).encode :=
    (encode_eq (c.inShare n)).symm
  rw [bytes]
  exact ((reads_decode (c.inShare n)).runAll).1 upright

variable [Crypto]

/-- A valid capability of an owned share has the signature of that share at its root. -/
theorem root_of_owned (valid : c.isValid) (owned : c.share.isCommunal = false) :
    ∃ signature, c.root = .owned signature := by
  obtain ⟨kind, -⟩ := isValid_iff.mp valid
  cases root : c.root with
  | communal => simp [rootValid, root, owned] at kind
  | owned signature => exact ⟨signature, rfl⟩

/-- The steps of an owned capability check or not whatever its share is. -/
theorem isValid_inShare (owned : c.root = .owned signature) :
    (c.inShare n).isValid ↔
      (n.isCommunal = false ∧ n.verify (rootMessage c.mode c.user) signature) ∧
      stepsValid c.rootArea c.user signature.bytes c.chain.steps := by
  have root : (c.inShare n).rootValid
      = (!n.isCommunal && n.verify (rootMessage c.mode c.user) signature) := by
    simp [rootValid, inShare, owned]
  have handover : (c.inShare n).rootHandover = signature.bytes := by
    simp [rootHandover, inShare, owned]
  have area : (c.inShare n).rootArea = c.rootArea := rfl
  rw [isValid_iff, root, handover, area, Bool.and_eq_true, Bool.not_eq_true']
  rfl

theorem isValid_inShare_of_key (owned : c.root = .owned signature) (valid : c.isValid)
    (same : n.key = c.share.key) : (c.inShare n).isValid := by
  have itself : (c.inShare c.share).isValid := valid
  obtain ⟨⟨kind, verified⟩, steps⟩ := (isValid_inShare owned).mp itself
  refine (isValid_inShare owned).mpr ⟨⟨?_, ?_⟩, steps⟩
  · rw [Identifier.isCommunal, same]
    exact kind
  · rw [Identifier.verify, same]
    exact verified

end Capability

/-- With another share in its place, a valid capability of an owned share is valid iff its root
verifies under that share's key. A share's name is not signed. -/
theorem isValid_inShare_iff [Crypto] {c : Capability} (valid : c.isValid)
    (owned : c.share.isCommunal = false) :
    ∃ signature, c.root = .owned signature ∧ ∀ n : Share,
      ((c.inShare n).isValid ↔
        n.isCommunal = false ∧ n.verify (Capability.rootMessage c.mode c.user) signature) ∧
      (n.key = c.share.key → (c.inShare n).isValid) ∧
      ((∀ key, Crypto.verify key (Capability.rootMessage c.mode c.user) signature →
          key = c.share.key) →
        ((c.inShare n).isValid ↔ n.key = c.share.key)) ∧
      (c.Upright → Decoder.runAll Capability.decode
        (c.root.kind :: c.mode.byte :: (n.encode ++ c.tail)) = .ok (c.inShare n)) ∧
      ∀ (s : Signature) (e : Entry),
        ((⟨c, s⟩ : Token).authorises e → e.share = c.share) ∧
        ((⟨c.inShare n, s⟩ : Token).authorises e ↔ c.mode = .write ∧ n = e.share ∧
          e.isIn c.area ∧ (c.inShare n).isValid ∧ c.receiver.verify e.encode s) := by
  obtain ⟨signature, root⟩ := Capability.root_of_owned valid owned
  have itself : (c.inShare c.share).isValid := valid
  obtain ⟨_, steps⟩ := (Capability.isValid_inShare root).mp itself
  refine ⟨signature, root, fun n => ?_⟩
  have checked : (c.inShare n).isValid ↔
      n.isCommunal = false ∧ n.verify (Capability.rootMessage c.mode c.user) signature := by
    rw [Capability.isValid_inShare root]
    exact and_iff_left steps
  have sameKey := Capability.isValid_inShare_of_key (n := n) root valid
  refine ⟨checked, sameKey, fun exclusive => ⟨fun still => ?_, sameKey⟩, ?_, fun s e => ⟨?_, ?_⟩⟩
  · exact exclusive n.key (checked.mp still).2
  · exact fun upright => Capability.decode_inShare upright n
  · intro proof
    exact (Token.authorises_iff.mp proof).2.1.symm
  · exact Token.authorises_iff

section Charter

open Crypto.Transparent

attribute [local instance] Crypto.transparent

/-- The share with the key of another under a name of its own. -/
def renamedShare : Share := ⟨⟨[98], by decide⟩, (share 2).key⟩

/-- What identity 1 is granted to write in an owned share, handed on to identity 2 below a path. -/
def ownedGrant : Capability :=
  let below : Area := ⟨.any, path 7, .full⟩
  let root := (keypair .share 2).sign (Capability.rootMessage .write (identity 1))
  ⟨.write, share 2, identity 1, .owned root,
    ⟨[⟨below, identity 2, (keypair .identity 1).sign
      (Capability.handoverMessage root.bytes below (identity 2))⟩]⟩, by decide⟩

/-- An entry in the renamed share, and its signature by the receiver of the grant. -/
def renamedEntry : Entry := ⟨renamedShare, identity 3, path 7, 8, 0, .zero 32⟩

def renamedToken : Token :=
  ⟨ownedGrant.inShare renamedShare, (keypair .identity 2).sign renamedEntry.encode⟩

theorem isValid_inShare_iff_same_key :
    (ownedGrant.isValid ∧ ownedGrant.share.isCommunal = false) ∧
    (ownedGrant.inShare renamedShare).isValid ∧ (ownedGrant.inShare (share 4)).isValid = false := by
  have valid : ownedGrant.isValid := by decide +kernel
  obtain ⟨signature, root, anywhere⟩ := isValid_inShare_iff valid (by decide)
  cases root
  obtain ⟨_, sameKey, _⟩ := anywhere renamedShare
  obtain ⟨checked, _⟩ := anywhere (share 4)
  refine ⟨⟨valid, by decide⟩, sameKey rfl, ?_⟩
  rw [Bool.eq_false_iff]
  intro still
  exact absurd (checked.mp still) (by decide +kernel)

/-- With a share of the same key and another name in its bytes, an owned capability is read, is
valid and lets its receiver write there. -/
theorem ownedGrant_valid_in_renamedShare :
    ownedGrant.isValid ∧ ownedGrant.share.isCommunal = false ∧ renamedShare.isCommunal = false ∧
    renamedShare ≠ ownedGrant.share ∧
    Decoder.runAll Capability.decode
      (ownedGrant.root.kind :: ownedGrant.mode.byte :: (renamedShare.encode ++ ownedGrant.tail))
        = .ok (ownedGrant.inShare renamedShare) ∧
    (ownedGrant.inShare renamedShare).isValid ∧ renamedToken.authorises renamedEntry := by
  decide +kernel

end Charter

end DocumentShare
