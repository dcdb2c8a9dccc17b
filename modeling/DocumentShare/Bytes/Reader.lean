import DocumentShare.Bytes.Basic
import DocumentShare.Error

/-!
# Reading bytes in order

A `Reader` is the unread end of an input together with the number of bytes already read. A
`Decoder` reads from the front and fails without reading when too few bytes are left.
-/

namespace DocumentShare

/-- The unread bytes of an input, and how many were read before them. -/
structure Reader where
  rest : Bytes
  offset : Nat
deriving DecidableEq

/-- A computation that reads from the front of an input. -/
abbrev Decoder (α : Type) := StateT Reader (Except ValidationError) α

namespace Reader

def start (input : Bytes) : Reader := ⟨input, 0⟩

def drop (r : Reader) (n : Nat) : Reader := ⟨r.rest.drop n, r.offset + n⟩

end Reader

namespace Decoder

def take (n : Nat) : Decoder Bytes := fun r =>
  let front := r.rest.take n
  if front.length = n then .ok (front, r.drop n)
  else .error (.encoding (.short n r.offset r.rest.length))

def block (n : Nat) : Decoder (Block n) := do return .fit n (← take n)

def byte : Decoder UInt8 := do return (← take 1).headD 0

def number (width : Nat) : Decoder Nat := do return Bytes.toNat (← take width)

def word16 : Decoder UInt16 := do return (← number 2).toUInt16

def word64 : Decoder UInt64 := do return (← number 8).toUInt64

def reject {α : Type} (e : ValidationError) : Decoder α := fun _ => .error e

def finish : Decoder Unit := fun r =>
  if r.rest.isEmpty then .ok ((), r) else .error (.encoding (.trailing r.rest.length))

/-- Runs `d` on all of `input`, which it must read to the end. -/
def runAll {α : Type} (d : Decoder α) (input : Bytes) : Except ValidationError α :=
  match (do let a ← d; finish; return a : Decoder α) (.start input) with
  | .ok (a, _) => .ok a
  | .error e => .error e

/-- Runs `d` at the beginning of `input` and also answers how many bytes it read. -/
def runFront {α : Type} (d : Decoder α) (input : Bytes) : Except ValidationError (α × Nat) :=
  match d (.start input) with
  | .ok (a, r) => .ok (a, r.offset)
  | .error e => .error e

/-- Runs `d` a given number of times and lists what it reads. -/
def replicate {α : Type} (d : Decoder α) : (n : Nat) → Decoder { l : List α // l.length = n }
  | 0 => return ⟨[], rfl⟩
  | n + 1 => do
    let a ← d
    let rest ← replicate d n
    return ⟨a :: rest.1, congrArg (· + 1) rest.2⟩

end Decoder

end DocumentShare
