import DocumentShare.Bytes.Basic

/-!
# Hexadecimal

Two lowercase digits for every byte. Reading also takes uppercase digits.
-/

namespace DocumentShare.Hex

def digitChar (n : Nat) : Char := if n < 10 then Char.ofNat (48 + n) else Char.ofNat (87 + n)

def encode (b : Bytes) : String :=
  String.ofList (b.flatMap (fun x => [digitChar (x.toNat / 16), digitChar (x.toNat % 16)]))

/-- The value of a digit. -/
def digitValue? (c : Char) : Option Nat :=
  if c.isDigit then some (c.toNat - 48)
  else if 'a' ≤ c ∧ c ≤ 'f' then some (c.toNat - 87)
  else if 'A' ≤ c ∧ c ≤ 'F' then some (c.toNat - 55)
  else none

def decodeChars : List Char → Option Bytes
  | [] => some []
  | a :: b :: rest => do
    let byte := 16 * (← digitValue? a) + (← digitValue? b)
    return byte.toUInt8 :: (← decodeChars rest)
  | _ => none

def decode (text : String) : Option Bytes := decodeChars text.toList

end DocumentShare.Hex
