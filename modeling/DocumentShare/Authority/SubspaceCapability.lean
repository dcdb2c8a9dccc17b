import DocumentShare.Authority.Delegation
import DocumentShare.Naming.Keypair

/-!
# Subspace capabilities

Proof that its receiver may list every identity of an owned share. A capability to read any
subspace is usable only beside one.
-/

namespace DocumentShare

structure SubspaceCapability where
  share : Share
  /-- The first user. -/
  user : Identity
  /-- The share's signature over the first user. -/
  signature : Signature
  chain : Chain Unit
  length_chain : chain.length ≤ Chain.limit
deriving DecidableEq

namespace SubspaceCapability

def rootMessage (user : Identity) : Bytes := 2 :: user.encode

/-- What the holder signs to hand the capability on. -/
def handoverMessage (previous : Signature) (user : Identity) : Bytes :=
  previous.bytes ++ user.encode

/-- A subspace capability of an owned share. -/
def ofOwned [Crypto] (share : ShareKeypair) (user : Identity) :
    Except ValidationError SubspaceCapability :=
  if share.id.isCommunal then .error (.capability (.subspaceOfCommunal (toString share.id)))
  else .ok ⟨share.id, user, share.sign (rootMessage user), .empty, Nat.zero_le _⟩

def receiver (c : SubspaceCapability) : Identity := c.chain.receiver c.user

def previous (c : SubspaceCapability) : Signature :=
  (c.chain.last?.map (·.signature)).getD c.signature

/-- Hands the capability from its receiver to another identity. -/
def delegate [Crypto] (c : SubspaceCapability) (holder : IdentityKeypair) (recipient : Identity) :
    Except ValidationError SubspaceCapability := do
  if holder.id ≠ c.receiver then
    throw (.notReceiver (toString holder.id) (toString c.receiver))
  let ⟨room⟩ ← c.chain.checkRoom
  let signature := holder.sign (handoverMessage c.previous recipient)
  return { c with
    chain := c.chain.push ⟨(), recipient, signature⟩
    length_chain := by rw [Chain.length_push]; exact room }

/-- Whether steps are each signed by the receiver before. -/
def stepsValid [Crypto] (receiver : Identity) (previous : Signature) : List (Delegation Unit) → Bool
  | [] => true
  | d :: rest =>
    receiver.verify (handoverMessage previous d.user) d.signature &&
      stepsValid d.user d.signature rest

def isValid [Crypto] (c : SubspaceCapability) : Bool :=
  !c.share.isCommunal && c.share.verify (rootMessage c.user) c.signature &&
    stepsValid c.user c.signature c.chain.steps

def encode (c : SubspaceCapability) : Bytes :=
  c.share.encode ++ c.user.encode ++ c.signature.bytes ++ c.chain.encode (fun _ => [])

def decode : Decoder SubspaceCapability := do
  let share ← Identifier.decode .share
  let user ← Identifier.decode .identity
  let signature ← Decoder.block 64
  let ⟨chain, length_chain⟩ ← Chain.decode (return ())
  return ⟨share, user, signature, chain, length_chain⟩

end SubspaceCapability

end DocumentShare
