import DocumentShare.Bytes.Basic

/-!
# AES-256 in Galois/counter mode

The block cipher AES with a 256-bit key, and authenticated encryption with it in Galois/counter
mode: a 12-byte nonce, no associated data and a 16-byte tag after the ciphertext. `decrypt` answers
only if the tag is right.
-/

namespace DocumentShare.Aes

/-! ### The byte field and the substitution -/

def double (a : UInt8) : UInt8 := (a <<< 1) ^^^ (if a ≥ 0x80 then 0x1b else 0)

/-- The product of two bytes as polynomials, from the last `n` bits of `b`. -/
def times : (n : Nat) → (a b : UInt8) → UInt8
  | 0, _, _ => 0
  | n + 1, a, b => (if b &&& 1 = 1 then a else 0) ^^^ times n (double a) (b >>> 1)

def power (a : UInt8) : (n : Nat) → UInt8
  | 0 => 1
  | n + 1 => times 8 a (power a n)

def substitute (a : UInt8) : UInt8 :=
  let b := power a 254
  let rotl (n : UInt8) : UInt8 := (b <<< n) ||| (b >>> (8 - n))
  b ^^^ rotl 1 ^^^ rotl 2 ^^^ rotl 3 ^^^ rotl 4 ^^^ 0x63

def substitution : Array UInt8 := (Array.range 256).map (fun n => substitute n.toUInt8)

/-- For every byte, its column after substitution and mixing. -/
def mixed : Array UInt32 := substitution.map (fun s =>
  ((double s).toUInt32 <<< 24) ||| (s.toUInt32 <<< 16) ||| (s.toUInt32 <<< 8)
    ||| (double s ^^^ s).toUInt32)

@[inline] def byteOf (w : UInt32) (shift : UInt32) : Nat := ((w >>> shift) &&& 0xff).toNat

@[inline] def rotr (x : UInt32) (n : UInt32) : UInt32 := (x >>> n) ||| (x <<< (32 - n))

def substituteWord (w : UInt32) : UInt32 :=
  let s (shift : UInt32) : UInt32 := (substitution.getD (byteOf w shift) 0).toUInt32
  (s 24 <<< 24) ||| (s 16 <<< 16) ||| (s 8 <<< 8) ||| s 0

/-! ### The block cipher -/

structure Columns where
  c0 : UInt32
  c1 : UInt32
  c2 : UInt32
  c3 : UInt32

/-- Extends a key schedule by `n` words; `constant` is the next round constant. -/
def expand : (n : Nat) → (constant : UInt8) → Array UInt32 → Array UInt32
  | 0, _, w => w
  | n + 1, constant, w =>
    let i := w.size
    let last := w.getD (i - 1) 0
    let old := w.getD (i - 8) 0
    if i % 8 = 0 then
      let rotated := rotr last 24
      expand n (double constant)
        (w.push (old ^^^ substituteWord rotated ^^^ (constant.toUInt32 <<< 24)))
    else if i % 8 = 4 then expand n constant (w.push (old ^^^ substituteWord last))
    else expand n constant (w.push (old ^^^ last))

/-- The 60 words of the key schedule of a 32-byte key. -/
def keySchedule (key : Bytes) : Array UInt32 :=
  let word (i : Nat) : UInt32 := (Bytes.toNat ((key.drop (4 * i)).take 4)).toUInt32
  expand 52 1 ((Array.range 8).map word)

def addKey (w : Array UInt32) (r : Nat) (s : Columns) : Columns :=
  ⟨s.c0 ^^^ w.getD (4 * r) 0, s.c1 ^^^ w.getD (4 * r + 1) 0,
    s.c2 ^^^ w.getD (4 * r + 2) 0, s.c3 ^^^ w.getD (4 * r + 3) 0⟩

/-- A column after substitution, shifting and mixing, from the columns its rows come from. -/
@[inline] def mixColumn (a b c d : UInt32) : UInt32 :=
  mixed.getD (byteOf a 24) 0 ^^^ rotr (mixed.getD (byteOf b 16) 0) 8
    ^^^ rotr (mixed.getD (byteOf c 8) 0) 16 ^^^ rotr (mixed.getD (byteOf d 0) 0) 24

/-- A column after substitution and shifting. -/
@[inline] def shiftColumn (a b c d : UInt32) : UInt32 :=
  let s (w shift : UInt32) : UInt32 := (substitution.getD (byteOf w shift) 0).toUInt32
  (s a 24 <<< 24) ||| (s b 16 <<< 16) ||| (s c 8 <<< 8) ||| s d 0

/-- The middle rounds, of which `n` are left. -/
def rounds (w : Array UInt32) : (n : Nat) → Columns → Columns
  | 0, s => s
  | n + 1, s =>
    rounds w n (addKey w (13 - n)
      ⟨mixColumn s.c0 s.c1 s.c2 s.c3, mixColumn s.c1 s.c2 s.c3 s.c0,
        mixColumn s.c2 s.c3 s.c0 s.c1, mixColumn s.c3 s.c0 s.c1 s.c2⟩)

def encryptBlock (w : Array UInt32) (s : Columns) : Columns :=
  let s := rounds w 13 (addKey w 0 s)
  addKey w 14
    ⟨shiftColumn s.c0 s.c1 s.c2 s.c3, shiftColumn s.c1 s.c2 s.c3 s.c0,
      shiftColumn s.c2 s.c3 s.c0 s.c1, shiftColumn s.c3 s.c0 s.c1 s.c2⟩

def Columns.bytes (s : Columns) : Bytes :=
  [s.c0, s.c1, s.c2, s.c3].flatMap (fun w => Bytes.ofNat 4 w.toNat)

/-! ### Counter mode -/

def counterBlock (nonce : Bytes) (counter : UInt32) : Columns :=
  let word (i : Nat) : UInt32 := (Bytes.toNat ((nonce.drop (4 * i)).take 4)).toUInt32
  ⟨word 0, word 1, word 2, counter⟩

/-- Combines a text with the key stream that starts at `counter`. -/
def applyStream (w : Array UInt32) (nonce : Bytes) (counter : UInt32) (text : Bytes) : Bytes :=
  match text with
  | [] => []
  | byte :: rest =>
    let stream := (encryptBlock w (counterBlock nonce counter)).bytes
    List.zipWith (· ^^^ ·) (byte :: rest.take 15) stream
      ++ applyStream w nonce (counter + 1) (rest.drop 15)
termination_by text.length
decreasing_by simp only [List.length_drop, List.length_cons]; omega

/-! ### The tag -/

/-- An element of the field of 128-bit polynomials; the first bit is the constant term. -/
structure Element where
  high : UInt64
  low : UInt64

/-- Adds to `z` the multiples of `v` that the `n` top bits of `bits` select; also answers `v` moved
past them. -/
def scale : (n : Nat) → (bits : UInt64) → (z v : Element) → Element × Element
  | 0, _, z, v => (z, v)
  | n + 1, bits, z, v =>
    let z := if bits >>> 63 = 1 then ⟨z.high ^^^ v.high, z.low ^^^ v.low⟩ else z
    let high := (v.high >>> 1) ^^^ (if v.low &&& 1 = 1 then 0xe100000000000000 else 0)
    let low := (v.low >>> 1) ||| (v.high <<< 63)
    scale n (bits <<< 1) z ⟨high, low⟩

def multiply (x y : Element) : Element :=
  let (z, v) := scale 64 x.high ⟨0, 0⟩ y
  (scale 64 x.low z v).1

def Element.ofBytes (b : Bytes) : Element :=
  ⟨(Bytes.toNat (Bytes.resize 8 b)).toUInt64,
    (Bytes.toNat (Bytes.resize 8 (b.drop 8))).toUInt64⟩

def Element.bytes (x : Element) : Bytes := Bytes.ofNat 8 x.high.toNat ++ Bytes.ofNat 8 x.low.toNat

/-- Absorbs a text, the last block filled up with zeros, into the running tag. -/
def absorb (h sum : Element) (text : Bytes) : Element :=
  match text with
  | [] => sum
  | byte :: rest =>
    let x := Element.ofBytes (byte :: rest.take 15)
    absorb h (multiply ⟨sum.high ^^^ x.high, sum.low ^^^ x.low⟩ h) (rest.drop 15)
termination_by text.length
decreasing_by simp only [List.length_drop, List.length_cons]; omega

def tag (w : Array UInt32) (nonce ciphertext : Bytes) : Bytes :=
  let h := Element.ofBytes (encryptBlock w ⟨0, 0, 0, 0⟩).bytes
  let lengths := List.replicate 8 0 ++ Bytes.ofNat 8 (8 * ciphertext.length)
  let sum := absorb h (absorb h ⟨0, 0⟩ ciphertext) lengths
  List.zipWith (· ^^^ ·) sum.bytes (encryptBlock w (counterBlock nonce 1)).bytes

/-! ### Encryption -/

def encrypt (key nonce plaintext : Bytes) : Bytes :=
  let w := keySchedule key
  let ciphertext := applyStream w nonce 2 plaintext
  ciphertext ++ tag w nonce ciphertext

/-- The plaintext of a text whose tag is right. -/
def decrypt (key nonce text : Bytes) : Option Bytes :=
  let w := keySchedule key
  let ciphertext := text.take (text.length - 16)
  if text.length ≥ 16 ∧ text.drop (text.length - 16) = tag w nonce ciphertext then
    some (applyStream w nonce 2 ciphertext)
  else none

end DocumentShare.Aes
