import DocumentShare.Bytes.Basic

/-!
# BLAKE3

The unkeyed 32-byte BLAKE3 hash. A message is cut into chunks of 1024 bytes; the chaining values of
the chunks are joined pairwise in a binary tree whose left side is the largest power of two of
chunks that leaves the right side nonempty.
-/

namespace DocumentShare.Blake3

def initial : Array UInt32 :=
  #[0x6a09e667, 0xbb67ae85, 0x3c6ef372, 0xa54ff53a, 0x510e527f, 0x9b05688c, 0x1f83d9ab, 0x5be0cd19]

def chunkStart : UInt32 := 1
def chunkEnd : UInt32 := 2
def parent : UInt32 := 4
def root : UInt32 := 8

/-- Where each word of a block goes before the next round. -/
def permutation : Array Nat := #[2, 6, 3, 10, 7, 0, 4, 13, 1, 11, 12, 5, 9, 14, 15, 8]

@[inline] def rotr (x : UInt32) (n : UInt32) : UInt32 := (x >>> n) ||| (x <<< (32 - n))

/-- Mixes two message words into a column or diagonal of the state. -/
@[inline] def mix (v : Array UInt32) (a b c d : Nat) (x y : UInt32) : Array UInt32 :=
  let va := v.getD a 0 + v.getD b 0 + x
  let vd := rotr (v.getD d 0 ^^^ va) 16
  let vc := v.getD c 0 + vd
  let vb := rotr (v.getD b 0 ^^^ vc) 12
  let va := va + vb + y
  let vd := rotr (vd ^^^ va) 8
  let vc := vc + vd
  let vb := rotr (vb ^^^ vc) 7
  (((v.setIfInBounds a va).setIfInBounds b vb).setIfInBounds c vc).setIfInBounds d vd

def round (v m : Array UInt32) : Array UInt32 :=
  let v := mix v 0 4 8 12 (m.getD 0 0) (m.getD 1 0)
  let v := mix v 1 5 9 13 (m.getD 2 0) (m.getD 3 0)
  let v := mix v 2 6 10 14 (m.getD 4 0) (m.getD 5 0)
  let v := mix v 3 7 11 15 (m.getD 6 0) (m.getD 7 0)
  let v := mix v 0 5 10 15 (m.getD 8 0) (m.getD 9 0)
  let v := mix v 1 6 11 12 (m.getD 10 0) (m.getD 11 0)
  let v := mix v 2 7 8 13 (m.getD 12 0) (m.getD 13 0)
  mix v 3 4 9 14 (m.getD 14 0) (m.getD 15 0)

/-- `n` rounds, permuting the block between them. -/
def rounds : (n : Nat) → (v m : Array UInt32) → Array UInt32
  | 0, v, _ => v
  | n + 1, v, m => rounds n (round v m) (permutation.map (fun i => m.getD i 0))

/-- The chaining value after a block of `length` bytes. -/
def compress (chain block : Array UInt32) (counter : UInt64) (length : Nat) (flags : UInt32) :
    Array UInt32 :=
  let v := chain ++ initial.take 4
    ++ #[counter.toUInt32, (counter >>> 32).toUInt32, length.toUInt32, flags]
  let v := rounds 7 v block
  (Array.range 8).map (fun i => v.getD i 0 ^^^ v.getD (i + 8) 0)

/-- The little-endian word at byte `i`, zero beyond the end. -/
def wordAt (bytes : Array UInt8) (i : Nat) : UInt32 :=
  let at_ (j : Nat) : UInt32 := (bytes.getD j 0).toUInt32
  at_ i ||| (at_ (i + 1) <<< 8) ||| (at_ (i + 2) <<< 16) ||| (at_ (i + 3) <<< 24)

/-- The words of the block at byte `i`. -/
def blockWords (bytes : Array UInt8) (i : Nat) : Array UInt32 :=
  (Array.range 16).map (fun j => wordAt bytes (i + 4 * j))

/-- The last `n` blocks of the chunk at byte `i` whose end is `stop`. -/
def foldBlocks (bytes : Array UInt8) (counter : UInt64) (stop : Nat) (last : UInt32) :
    (n : Nat) → (i : Nat) → (flags : UInt32) → Array UInt32 → Array UInt32
  | 0, _, _, chain => chain
  | n + 1, i, flags, chain =>
    let flags := if n = 0 then flags ||| chunkEnd ||| last else flags
    foldBlocks bytes counter stop last n (i + 64) 0
      (compress chain (blockWords bytes i) counter (min 64 (stop - i)) flags)

/-- The chaining value of chunk number `index`; `last` is the root flag or zero. -/
def chunk (bytes : Array UInt8) (index : Nat) (last : UInt32) : Array UInt32 :=
  let start := 1024 * index
  let stop := min (start + 1024) bytes.size
  foldBlocks bytes index.toUInt64 stop last (max 1 ((stop - start + 63) / 64)) start chunkStart
    initial

theorem left_lt {count : Nat} (more : ¬count ≤ 1) : 1 <<< (count - 1).log2 < count := by
  have := Nat.log2_self_le (n := count - 1) (by omega)
  rw [Nat.one_shiftLeft]
  omega

theorem left_pos (count : Nat) : 0 < 1 <<< (count - 1).log2 := by
  rw [Nat.one_shiftLeft]
  exact Nat.pow_pos (by decide)

/-- The chaining value of the `count` chunks from number `index` on. -/
def tree (bytes : Array UInt8) (index count : Nat) (last : UInt32) : Array UInt32 :=
  if _h : count ≤ 1 then chunk bytes index last
  else
    let left := 1 <<< (count - 1).log2
    compress initial (tree bytes index left 0 ++ tree bytes (index + left) (count - left) 0) 0 64
      (parent ||| last)
termination_by count
decreasing_by
  · exact left_lt ‹¬count ≤ 1›
  · exact Nat.sub_lt (by omega) (left_pos count)

def hash (message : Bytes) : Bytes :=
  let bytes := message.toArray
  (tree bytes 0 ((bytes.size + 1023) / 1024) root).toList.flatMap
    (fun x => (Bytes.ofNat 4 x.toNat).reverse)

end DocumentShare.Blake3
