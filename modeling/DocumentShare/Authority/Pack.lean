import DocumentShare.Authority.Capability
import DocumentShare.Authority.SubspaceCapability

/-!
# Capability packs

The shape in which capabilities are stored, handed on and exchanged. A capability to read any
subspace of an owned share travels with its subspace capability.
-/

namespace DocumentShare

inductive Pack
  | read (capability : Capability) (subspace : Option SubspaceCapability)
  | write (capability : Capability)
deriving DecidableEq

namespace Pack

def needsSubspace (c : Capability) (a : Area) : Bool :=
  c.mode = .read && !c.isCommunal && a.subspace = .any

/-- The pack of a capability and what must come with it. -/
def ofCapability (c : Capability) (subspace : Option SubspaceCapability) :
    Except ValidationError Pack :=
  match c.mode with
  | .write =>
    if subspace.isSome then .error (.capability .subspaceOnWrite) else .ok (.write c)
  | .read =>
    if needsSubspace c c.area && subspace.isNone then .error .missingSubspaceCapability
    else .ok (.read c subspace)

def capability : Pack → Capability
  | read c _ => c
  | write c => c

def subspace? : Pack → Option SubspaceCapability
  | read _ s => s
  | write _ => none

def mode : Pack → AccessMode
  | read _ _ => .read
  | write _ => .write

def share (p : Pack) : Share := p.capability.share

def receiver (p : Pack) : Identity := p.capability.receiver

def area (p : Pack) : Area := p.capability.area

/-- The subspace capability that goes with an area, handed on, if the area needs one. -/
def delegateSubspace [Crypto] (c : Capability) (subspace : Option SubspaceCapability) (a : Area)
    (holder : IdentityKeypair) (recipient : Identity) :
    Except ValidationError (Option SubspaceCapability) :=
  if needsSubspace c a then
    match subspace with
    | none => .error .missingSubspaceCapability
    | some s => (s.delegate holder recipient).map some
  else .ok none

/-- Hands the pack, narrowed, from its receiver to another identity. The subspace capability is
handed on while the area covers every subspace and dropped when it no longer does. -/
def delegate [Crypto] (p : Pack) (holder : IdentityKeypair) (recipient : Identity)
    (r : Restriction) : Except ValidationError Pack :=
  match p with
  | write c => (c.delegate holder recipient r).map write
  | read c subspace => do
    let area ← c.area.restrict r
    let subspace ← delegateSubspace c subspace area holder recipient
    return read (← c.delegate holder recipient r) subspace

/-- Whether the capability checks, suits the shape, and has the subspace capability it needs. -/
def isValid [Crypto] : Pack → Bool
  | write c => c.mode = .write && c.isValid
  | read c subspace =>
    c.mode = .read && c.isValid &&
      match subspace with
      | some s => s.share = c.share && s.receiver = c.receiver && s.isValid
      | none => !needsSubspace c c.area

/-- A tag for the shape, the capability, and the subspace capability if there is one. -/
def encode : Pack → Bytes
  | read c none => 0 :: c.encode
  | read c (some s) => 1 :: (c.encode ++ s.encode)
  | write c => 2 :: c.encode

def decoder : Decoder Pack := do
  let tag ← Decoder.byte
  if tag = 0 then return .read (← Capability.decode) none
  else if tag = 1 then return .read (← Capability.decode) (some (← SubspaceCapability.decode))
  else if tag = 2 then return .write (← Capability.decode)
  else Decoder.reject (.encoding (.packTag tag.toNat))

def decode (b : Bytes) : Except ValidationError Pack := Decoder.runAll decoder b

end Pack

end DocumentShare
