import DocumentShare.Bytes.Reader
import DocumentShare.Work

/-!
# Cursors

A `Cursor` is an input with the place up to which it was read, which is a machine word. A call that asks
for more bytes than are left fails and leaves the cursor where it is, so that whoever holds it may go on
from there, while a `Decoder` ends with its first failure.
-/

namespace DocumentShare

/-- The sum of two words, if it is a word. One that is not comes out below its parts. -/
def USize.add? (a b : USize) : Option USize := if a + b < a then none else some (a + b)

structure Cursor where
  input : Bytes
  /-- How many bytes were read. -/
  offset : USize
deriving DecidableEq

abbrev CursorWork (Answer : Type) := Work Cursor ValidationError Answer

namespace Cursor

def start (input : Bytes) : Cursor := ⟨input, 0⟩

def remaining (c : Cursor) : Bytes := c.input.drop c.offset.toNat

def isEmpty (c : Cursor) : Bool := c.input.length ≤ c.offset.toNat

/-- The place `n` bytes further on, if the input goes that far. -/
def ahead? (c : Cursor) (n : USize) : Option USize :=
  (USize.add? c.offset n).filter (·.toNat ≤ c.input.length)

def take (n : USize) : CursorWork Bytes :=
  .ofStep fun c =>
    match c.ahead? n with
    | some place => (.ok ((c.input.take place.toNat).drop c.offset.toNat), { c with offset := place })
    | none => (.error (.encoding (.short n.toNat c.offset.toNat (c.input.length - c.offset.toNat))), c)

/-- Passes over bytes that were read elsewhere. -/
def skip (n : USize) : CursorWork Unit := do let _ ← take n

def block (n : USize) : CursorWork (Block n.toNat) := do return .fit n.toNat (← take n)

def byte : CursorWork UInt8 := do return (← take 1).headD 0

def number (width : USize) : CursorWork Nat := do return Bytes.toNat (← take width)

def word16 : CursorWork UInt16 := do return (← number 2).toUInt16

def word64 : CursorWork UInt64 := do return (← number 8).toUInt64

def finish : CursorWork Unit :=
  .ofStep fun c =>
    if c.isEmpty then (.ok (), c)
    else (.error (.encoding (.trailing (c.input.length - c.offset.toNat))), c)

end Cursor

end DocumentShare
