import DocumentShare.Text.Shown

/-!
# Quoted texts

A text between double quotes, with an escape in place of a quote, a backslash and every character
that cannot be shown.
-/

namespace DocumentShare.Quoted

/-- One character of a quoted text. -/
def encodeChar (c : Char) : List Char :=
  match c with
  | '\x00' => ['\\', '0']
  | '\t' => ['\\', 't']
  | '\r' => ['\\', 'r']
  | '\n' => ['\\', 'n']
  | '\\' => ['\\', '\\']
  | '"' => ['\\', '"']
  | c =>
    if Shown.isShown c then [c]
    else ['\\', 'u', '\x7b'] ++ Nat.toDigits 16 c.toNat ++ ['\x7d']

def encode (s : String) : String :=
  String.ofList ('"' :: (s.toList.flatMap encodeChar ++ ['"']))

end DocumentShare.Quoted
