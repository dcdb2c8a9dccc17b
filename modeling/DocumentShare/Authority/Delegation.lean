import DocumentShare.Naming.Identifier

/-!
# Delegations

A step hands a grant to an identity, signed by whoever held it before. A chain lists its steps, the
oldest first; appending leaves the chain appended to as it was.
-/

namespace DocumentShare

structure Delegation (Grant : Type) where
  grant : Grant
  user : Identity
  signature : Signature
deriving DecidableEq

/-- Steps, the oldest first. -/
structure Chain (Grant : Type) where
  steps : List (Delegation Grant)

namespace Chain

variable {Grant : Type}

/-- Chains of different lengths are told apart without looking at their steps. -/
instance [DecidableEq Grant] : DecidableEq (Chain Grant) := fun a b =>
  if h : a.steps.length = b.steps.length then
    decidable_of_iff (a.steps = b.steps) (by cases a; cases b; simp)
  else .isFalse fun e => h (by rw [e])

def empty : Chain Grant := ⟨[]⟩

def length (c : Chain Grant) : Nat := c.steps.length

def last? (c : Chain Grant) : Option (Delegation Grant) := c.steps.getLast?

def push (c : Chain Grant) (d : Delegation Grant) : Chain Grant := ⟨c.steps ++ [d]⟩

@[simp] theorem length_push (c : Chain Grant) (d : Delegation Grant) :
    (c.push d).length = c.length + 1 := by
  simp [push, length]

/-- The most steps a capability may carry; their number is written in one byte. -/
def limit : Nat := 255

/-- The identity that holds what was first granted to `user`. -/
def receiver (c : Chain Grant) (user : Identity) : Identity := (c.last?.map (·.user)).getD user

def checkRoom (c : Chain Grant) : Except ValidationError (PLift (c.length < limit)) :=
  if h : c.length < limit then .ok ⟨h⟩ else .error (.capability (.chainFull c.length))

/-- The grant, the identity that it is handed to, and the signature. -/
def encodeStep (grant : Grant → Bytes) (d : Delegation Grant) : Bytes :=
  grant d.grant ++ d.user.encode ++ d.signature.bytes

/-- The number of steps, then the steps. -/
def encode (grant : Grant → Bytes) (c : Chain Grant) : Bytes :=
  c.length.toUInt8 ::
    c.steps.flatMap (encodeStep grant)

def decodeStep (grant : Decoder Grant) : Decoder (Delegation Grant) := do
  return ⟨← grant, ← Identifier.decode .identity, ← Decoder.block 64⟩

/-- Reads a chain. Its number of steps is one byte, so a capability can carry it. -/
def decode (grant : Decoder Grant) : Decoder { c : Chain Grant // c.length ≤ limit } := do
  let length ← Decoder.byte
  let steps ← Decoder.replicate (decodeStep grant) length.toNat
  return ⟨⟨steps.1⟩, Nat.le_trans (Nat.le_of_eq steps.2) (Nat.le_of_lt_succ length.toNat_lt)⟩

end Chain

end DocumentShare
