import DocumentShare.Text.Bits

/-!
# Base32

Lowercase base32 without padding: five bits a character, the last character filled up with zero
bits. Decoding accepts any string over the alphabet and drops the bits that fill no byte.
-/

namespace DocumentShare.Base32

/-- The character of a five-bit digit. -/
def digitChar (n : Nat) : Char := if n < 26 then Char.ofNat (97 + n) else Char.ofNat (24 + n)

/-- The five-bit digit of a character. -/
def digit? (c : Char) : Option Nat :=
  if 'a' ≤ c ∧ c ≤ 'z' then some (c.toNat - 97)
  else if '2' ≤ c ∧ c ≤ '7' then some (c.toNat - 24)
  else none

def encodeChars (b : Bytes) : List Char := (Bits.digits 4 (Bits.ofBytes b)).map digitChar

def encode (b : Bytes) : String := String.ofList (encodeChars b)

/-- The bytes that characters of the alphabet stand for. -/
def decodeChars (cs : List Char) : Option Bytes :=
  (cs.mapM digit?).map (fun ds => Bits.toBytes (ds.flatMap (Bits.ofNat 5)))

def decode (s : String) : Option Bytes := decodeChars s.toList

end DocumentShare.Base32
