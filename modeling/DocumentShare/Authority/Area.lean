import DocumentShare.Authority.TimeRange
import DocumentShare.Naming.Identifier
import DocumentShare.Naming.Path

/-!
# Areas

An area is a part of a share: all identities or one, the paths that continue a path, and a time
range. Capabilities grant areas, and a restriction narrows one.
-/

namespace DocumentShare

inductive Subspace
  | any
  | of (identity : Identity)
deriving DecidableEq

namespace Subspace

def includes : Subspace → Identity → Bool
  | any, _ => true
  | of identity, i => identity = i

/-- Whether whatever `other` covers is covered. -/
def includesSubspace : Subspace → Subspace → Bool
  | any, _ => true
  | of _, any => false
  | of identity, of other => identity = other

/-- A flag, and the identity if there is only one. -/
def encode : Subspace → Bytes
  | any => [0]
  | of identity => 1 :: identity.encode

end Subspace

structure Area where
  subspace : Subspace
  /-- Covered paths continue this one. -/
  path : Path
  times : TimeRange
deriving DecidableEq

/-- How an area is narrowed; what is not given stays. -/
structure Restriction where
  subspace : Option Subspace
  path : Option Path
  times : Option TimeRange
deriving DecidableEq

namespace Area

def full : Area := ⟨.any, .empty, .full⟩

def ofIdentity (i : Identity) : Area := ⟨.of i, .empty, .full⟩

def includes (a : Area) (identity : Identity) (path : Path) (timestamp : UInt64) : Bool :=
  a.subspace.includes identity && a.path.isPrefixOf path && a.times.includes timestamp

/-- Whether each part of `other` is within the same part of `a`. -/
def includesArea (a other : Area) : Bool :=
  a.subspace.includesSubspace other.subspace && a.path.isPrefixOf other.path &&
    a.times.includesRange other.times

instance : ToString Area :=
  ⟨fun a =>
    (match a.subspace with
      | .any => "any subspace"
      | .of identity => toString identity)
    ++ " under " ++ toString a.path ++ " during " ++ toString a.times⟩

/-- The area with the given parts replaced, if it stays within `a`. -/
def restrict (a : Area) (r : Restriction) : Except ValidationError Area :=
  let restricted : Area :=
    ⟨r.subspace.getD a.subspace, r.path.getD a.path, r.times.getD a.times⟩
  if a.includesArea restricted then .ok restricted
  else .error (.areaWidened (toString restricted) (toString a))

/-- The components of a path, each after its length, after their number. -/
def encodePath (p : Path) : Bytes :=
  p.count.toUInt8 :: p.components.flatMap (fun c => Bytes.ofNat 2 c.length ++ c)

def encode (a : Area) : Bytes := a.subspace.encode ++ encodePath a.path ++ a.times.encode

def decodeComponent : Decoder Bytes := do Decoder.take (← Decoder.number 2)

def decodePath : Decoder Path := do
  let count ← Decoder.byte
  match Path.ofComponents (← Decoder.replicate decodeComponent count.toNat).1 with
  | .ok p => return p
  | .error e => Decoder.reject e

def decodeSubspace : Decoder Subspace := do
  let flag ← Decoder.byte
  if flag = 0 then return .any
  else if flag = 1 then return .of (← Identifier.decode .identity)
  else Decoder.reject (.encoding (.subspaceFlag flag.toNat))

def decode : Decoder Area := do return ⟨← decodeSubspace, ← decodePath, ← TimeRange.decode⟩

end Area

end DocumentShare
