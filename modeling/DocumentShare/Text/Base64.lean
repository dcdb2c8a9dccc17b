import DocumentShare.Text.Bits

/-!
# Base64

Base64 with `+` and `/`, filled up with `=` to whole groups of four characters.
-/

namespace DocumentShare.Base64

/-- The character of a six-bit digit. -/
def digitChar (n : Nat) : Char :=
  if n < 26 then Char.ofNat (65 + n)
  else if n < 52 then Char.ofNat (71 + n)
  else if n < 62 then Char.ofNat (n - 4)
  else if n = 62 then '+' else '/'

def encode (b : Bytes) : String :=
  let cs := (Bits.digits 5 (Bits.ofBytes b)).map digitChar
  String.ofList (cs ++ List.replicate ((4 - cs.length % 4) % 4) '=')

end DocumentShare.Base64
