import DocumentShare.Authority.Area
import DocumentShare.Authority.Delegation
import DocumentShare.Naming.Keypair

/-!
# Capabilities

A capability grants reading or writing an area of a share. It is rooted in a communal share, where
any identity holds its own part, or in the signature of an owned share's keypair, and is handed on
along a chain whose every step stays within the area before it.
-/

namespace DocumentShare

inductive AccessMode
  | read
  | write
deriving DecidableEq, Repr

namespace AccessMode

def byte : AccessMode → UInt8
  | read => 0
  | write => 1

instance : ToString AccessMode :=
  ⟨fun
    | read => "Read"
    | write => "Write"⟩

def decode : Decoder AccessMode := do
  let b ← Decoder.byte
  if b = 0 then return read
  else if b = 1 then return write
  else Decoder.reject (.encoding (.accessMode b.toNat))

end AccessMode

inductive Root
  | communal
  /-- The share's signature over the access mode and the first user. -/
  | owned (signature : Signature)
deriving DecidableEq

namespace Root

def kind : Root → UInt8
  | communal => 0
  | owned _ => 1

/-- What is written besides the kind. -/
def encode : Root → Bytes
  | communal => []
  | owned signature => signature.bytes

end Root

structure Capability where
  mode : AccessMode
  share : Share
  /-- The first user. -/
  user : Identity
  root : Root
  chain : Chain Area
  length_chain : chain.length ≤ Chain.limit
deriving DecidableEq

namespace Capability

def rootMessage (mode : AccessMode) (user : Identity) : Bytes := mode.byte :: user.encode

/-- What the holder signs to hand on an area, after the bytes that the step before left. -/
def handoverMessage (previous : Bytes) (area : Area) (user : Identity) : Bytes :=
  previous ++ area.encode ++ user.encode

/-- A capability over one's own part of a communal share. -/
def ofCommunal (share : Share) (user : Identity) (mode : AccessMode) :
    Except ValidationError Capability :=
  if share.isCommunal then .ok ⟨mode, share, user, .communal, .empty, Nat.zero_le _⟩
  else .error (.capability (.needsOwner (toString share)))

/-- A capability over all of an owned share. -/
def ofOwned [Crypto] (share : ShareKeypair) (user : Identity) (mode : AccessMode) :
    Except ValidationError Capability :=
  if share.id.isCommunal then .error (.capability (.noOwner (toString share.id)))
  else
    .ok ⟨mode, share.id, user, .owned (share.sign (rootMessage mode user)), .empty, Nat.zero_le _⟩

def isCommunal (c : Capability) : Bool := c.root = .communal

def receiver (c : Capability) : Identity := c.chain.receiver c.user

/-- The area of the first user. -/
def rootArea (c : Capability) : Area :=
  match c.root with
  | .communal => .ofIdentity c.user
  | .owned _ => .full

/-- The area of the receiver. -/
def area (c : Capability) : Area := (c.chain.last?.map (·.grant)).getD c.rootArea

/-- The bytes in front of the first handover. -/
def rootHandover (c : Capability) : Bytes :=
  match c.root with
  | .communal => c.mode.byte :: (c.share.encode ++ c.user.encode)
  | .owned signature => signature.bytes

/-- The bytes in front of the next handover. -/
def previous (c : Capability) : Bytes :=
  (c.chain.last?.map (·.signature.bytes)).getD c.rootHandover

/-- Hands the capability, narrowed, from its receiver to another identity. -/
def delegate [Crypto] (c : Capability) (holder : IdentityKeypair) (recipient : Identity)
    (r : Restriction) : Except ValidationError Capability := do
  if holder.id ≠ c.receiver then
    throw (.notReceiver (toString holder.id) (toString c.receiver))
  let ⟨room⟩ ← c.chain.checkRoom
  let area ← c.area.restrict r
  let signature := holder.sign (handoverMessage c.previous area recipient)
  return { c with
    chain := c.chain.push ⟨area, recipient, signature⟩
    length_chain := by rw [Chain.length_push]; exact room }

/-- Whether the first user's authority is established. -/
def rootValid [Crypto] (c : Capability) : Bool :=
  match c.root with
  | .communal => c.share.isCommunal
  | .owned signature =>
    !c.share.isCommunal && c.share.verify (rootMessage c.mode c.user) signature

/-- Whether steps stay within an area and are each signed by the receiver before. -/
def stepsValid [Crypto] (area : Area) (receiver : Identity) (previous : Bytes) :
    List (Delegation Area) → Bool
  | [] => true
  | d :: rest =>
    area.includesArea d.grant &&
      receiver.verify (handoverMessage previous d.grant d.user) d.signature &&
      stepsValid d.grant d.user d.signature.bytes rest

def isValid [Crypto] (c : Capability) : Bool :=
  c.rootValid && stepsValid c.rootArea c.user c.rootHandover c.chain.steps

/-! ### Bytes -/

def encode (c : Capability) : Bytes :=
  c.root.kind :: c.mode.byte :: (c.share.encode ++ c.user.encode ++ c.root.encode
    ++ c.chain.encode Area.encode)

/-- Reads a root of the given kind. -/
def decodeRoot (kind : UInt8) : Decoder Root := do
  if kind = 0 then return .communal
  else if kind = 1 then return .owned (← Decoder.block 64)
  else Decoder.reject (.encoding (.capabilityKind kind.toNat))

/-- Reads a capability; nothing is verified. -/
def decode : Decoder Capability := do
  let kind ← Decoder.byte
  let mode ← AccessMode.decode
  let share ← Identifier.decode .share
  let user ← Identifier.decode .identity
  let root ← decodeRoot kind
  let ⟨chain, length_chain⟩ ← Chain.decode Area.decode
  return ⟨mode, share, user, root, chain, length_chain⟩

end Capability

end DocumentShare
