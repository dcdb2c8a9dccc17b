/-!
# Byte strings

A byte string is a list of bytes, and `Block n` is one of exactly `n` bytes. Numbers are written
big-endian: `ofNat` writes the low `width` bytes of a number and `toNat` reads them back.
-/

namespace DocumentShare

abbrev Bytes := List UInt8

namespace Bytes

def ofText (s : String) : Bytes := s.toUTF8.data.toList

/-- The text whose UTF-8 form these bytes are, if they are well formed. -/
def toText? (b : Bytes) : Option String := String.fromUTF8? ⟨b.toArray⟩

/-- The `width` low bytes of `n`, most significant first. -/
def ofNat : (width : Nat) → (n : Nat) → Bytes
  | 0, _ => []
  | width + 1, n => (n >>> (8 * width)).toUInt8 :: ofNat width n

def ofWord (n : UInt64) : Bytes := ofNat 8 n.toNat

/-- The number whose big-endian form these bytes are. -/
def toNat (b : Bytes) : Nat := b.foldl (fun n byte => n * 256 + byte.toNat) 0

/-- The first `n` bytes, filled up with zeros. -/
def resize (n : Nat) (b : Bytes) : Bytes :=
  let front := b.take n
  front ++ List.replicate (n - front.length) 0

@[simp] theorem length_resize (n : Nat) (b : Bytes) : (resize n b).length = n := by
  simp only [resize, List.length_append, List.length_take, List.length_replicate]; omega

@[simp] theorem length_ofNat (width n : Nat) : (ofNat width n).length = width := by
  induction width with
  | zero => rfl
  | succ width ih => simp [ofNat, ih]

end Bytes

structure Block (n : Nat) where
  bytes : Bytes
  length_bytes : bytes.length = n
deriving DecidableEq

namespace Block

/-- These bytes as a block, if there are exactly `n` of them. -/
def ofBytes? {n : Nat} (b : Bytes) : Option (Block n) :=
  if h : b.length = n then some ⟨b, h⟩ else none

/-- The block that begins like `b`, cut or filled up with zeros. -/
def fit (n : Nat) (b : Bytes) : Block n := ⟨b.resize n, Bytes.length_resize n b⟩

theorem fit_append {n : Nat} (a : Block n) (rest : Bytes) : fit n (a.bytes ++ rest) = a := by
  obtain ⟨b, rfl⟩ := a
  simp [fit, Bytes.resize]

def zero (n : Nat) : Block n := ⟨List.replicate n 0, List.length_replicate⟩

instance {n : Nat} : Inhabited (Block n) := ⟨zero n⟩

/-- Blocks are ordered like their bytes. -/
instance {n : Nat} : Ord (Block n) := ⟨fun a b => compare a.bytes b.bytes⟩

@[ext] theorem ext {n : Nat} {a b : Block n} (h : a.bytes = b.bytes) : a = b := by
  cases a; cases b; simp_all

end Block

end DocumentShare
