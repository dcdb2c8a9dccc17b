import DocumentShare.Bytes.Basic
import DocumentShare.Work

/-!
# Entropy

A source of random bytes. The source is part of the state it is used from, so that no two draws
take the same bytes of it.
-/

namespace DocumentShare

structure Entropy where
  stream : Nat → UInt8
  /-- How many bytes have been drawn. -/
  position : Nat

namespace Entropy

/-- The top byte of a word that a position is mixed into. -/
def scatter (n : Nat) : UInt8 :=
  let x := (n.toUInt64 + 1) * 0x9e3779b97f4a7c15
  let x := (x ^^^ (x >>> 30)) * 0xbf58476d1ce4e5b9
  let x := (x ^^^ (x >>> 27)) * 0x94d049bb133111eb
  (x >>> 56).toUInt8

/-- A source that is the same every time, for runs that are to be repeated. It keeps no secret. -/
def scattered : Entropy := ⟨scatter, 0⟩

instance : Inhabited Entropy := ⟨scattered⟩

def draw {ε : Type} (n : Nat) : Work Entropy ε (Block n) :=
  .ofStep fun e =>
    (.ok ⟨(List.range n).map (fun i => e.stream (e.position + i)), by simp⟩,
      { e with position := e.position + n })

end Entropy

end DocumentShare
