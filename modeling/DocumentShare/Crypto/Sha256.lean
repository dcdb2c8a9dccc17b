import DocumentShare.Bytes.Basic

/-!
# SHA-256

The hash function SHA-256 over byte strings. `compress` folds one block of 64 bytes into the state;
`hash` pads the message and folds its blocks in order.
-/

namespace DocumentShare.Sha256

structure State where
  a : UInt32
  b : UInt32
  c : UInt32
  d : UInt32
  e : UInt32
  f : UInt32
  g : UInt32
  h : UInt32

/-- The fractional bits of the square roots of the first eight primes. -/
def initial : State :=
  ⟨0x6a09e667, 0xbb67ae85, 0x3c6ef372, 0xa54ff53a,
    0x510e527f, 0x9b05688c, 0x1f83d9ab, 0x5be0cd19⟩

/-- The fractional bits of the cube roots of the first 64 primes. -/
def roundConstants : Array UInt32 :=
  #[
    0x428a2f98, 0x71374491, 0xb5c0fbcf, 0xe9b5dba5, 0x3956c25b, 0x59f111f1, 0x923f82a4, 0xab1c5ed5,
    0xd807aa98, 0x12835b01, 0x243185be, 0x550c7dc3, 0x72be5d74, 0x80deb1fe, 0x9bdc06a7, 0xc19bf174,
    0xe49b69c1, 0xefbe4786, 0x0fc19dc6, 0x240ca1cc, 0x2de92c6f, 0x4a7484aa, 0x5cb0a9dc, 0x76f988da,
    0x983e5152, 0xa831c66d, 0xb00327c8, 0xbf597fc7, 0xc6e00bf3, 0xd5a79147, 0x06ca6351, 0x14292967,
    0x27b70a85, 0x2e1b2138, 0x4d2c6dfc, 0x53380d13, 0x650a7354, 0x766a0abb, 0x81c2c92e, 0x92722c85,
    0xa2bfe8a1, 0xa81a664b, 0xc24b8b70, 0xc76c51a3, 0xd192e819, 0xd6990624, 0xf40e3585, 0x106aa070,
    0x19a4c116, 0x1e376c08, 0x2748774c, 0x34b0bcb5, 0x391c0cb3, 0x4ed8aa4a, 0x5b9cca4f, 0x682e6ff3,
    0x748f82ee, 0x78a5636f, 0x84c87814, 0x8cc70208, 0x90befffa, 0xa4506ceb, 0xbef9a3f7, 0xc67178f2]

@[inline] def rotr (x : UInt32) (n : UInt32) : UInt32 := (x >>> n) ||| (x <<< (32 - n))

/-- The big-endian word at byte `i`. -/
@[inline] def wordAt (bytes : Array UInt8) (i : Nat) : UInt32 :=
  ((bytes.getD i 0).toUInt32 <<< 24) ||| ((bytes.getD (i + 1) 0).toUInt32 <<< 16)
    ||| ((bytes.getD (i + 2) 0).toUInt32 <<< 8) ||| (bytes.getD (i + 3) 0).toUInt32

def blockWords (bytes : Array UInt8) (i : Nat) : Array UInt32 :=
  (Array.range 16).map (fun j => wordAt bytes (i + 4 * j))

/-- Extends a message schedule by `n` words. -/
def schedule : (n : Nat) → Array UInt32 → Array UInt32
  | 0, w => w
  | n + 1, w =>
    let t := w.size
    let x := w.getD (t - 15) 0
    let y := w.getD (t - 2) 0
    let s0 := rotr x 7 ^^^ rotr x 18 ^^^ (x >>> 3)
    let s1 := rotr y 17 ^^^ rotr y 19 ^^^ (y >>> 10)
    schedule n (w.push (w.getD (t - 16) 0 + s0 + w.getD (t - 7) 0 + s1))

/-- The last `n` of the 64 rounds. -/
def rounds (w : Array UInt32) : (n : Nat) → (a b c d e f g h : UInt32) → State
  | 0, a, b, c, d, e, f, g, h => ⟨a, b, c, d, e, f, g, h⟩
  | n + 1, a, b, c, d, e, f, g, h =>
    let i := 63 - n
    let s1 := rotr e 6 ^^^ rotr e 11 ^^^ rotr e 25
    let choice := (e &&& f) ^^^ (~~~e &&& g)
    let t1 := h + s1 + choice + roundConstants.getD i 0 + w.getD i 0
    let s0 := rotr a 2 ^^^ rotr a 13 ^^^ rotr a 22
    let majority := (a &&& b) ^^^ (a &&& c) ^^^ (b &&& c)
    rounds w n (t1 + s0 + majority) a b c (d + t1) e f g

/-- Folds one block, given by its sixteen words, into the state. -/
def compress (s : State) (block : Array UInt32) : State :=
  let r := rounds (schedule 48 block) 64 s.a s.b s.c s.d s.e s.f s.g s.h
  ⟨s.a + r.a, s.b + r.b, s.c + r.c, s.d + r.d, s.e + r.e, s.f + r.f, s.g + r.g, s.h + r.h⟩

def State.words (s : State) : List UInt32 := [s.a, s.b, s.c, s.d, s.e, s.f, s.g, s.h]

def State.bytes (s : State) : Bytes := s.words.flatMap (fun x => Bytes.ofNat 4 x.toNat)

/-- What is appended to a message whose total length is `length`: a one bit, zeros up to a whole
block, and the length in bits. -/
def padding (length : Nat) : Bytes :=
  0x80 :: List.replicate ((119 - length % 64) % 64) 0 ++ Bytes.ofNat 8 (8 * length)

/-- Folds the first `n` blocks from byte `i` on into the state. -/
def foldBlocks (bytes : Array UInt8) : (n : Nat) → (i : Nat) → State → State
  | 0, _, s => s
  | n + 1, i, s => foldBlocks bytes n (i + 64) (compress s (blockWords bytes i))

/-- Hashes the end of a message of which `before` bytes, whole blocks, are folded into `s`. -/
def finishFrom (s : State) (before : Nat) (message : Bytes) : State :=
  let bytes := (message ++ padding (before + message.length)).toArray
  foldBlocks bytes (bytes.size / 64) 0 s

def hash (message : Bytes) : Bytes := (finishFrom initial 0 message).bytes

end DocumentShare.Sha256
