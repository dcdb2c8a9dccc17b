import DocumentShare.Bytes.Basic

/-!
# Bytes read as text

Reads any bytes as UTF-8. What is no character, up to where the next one may begin, is read as one
replacement character.
-/

namespace DocumentShare.Utf8

/-- How many bytes, at most `n`, lie between `low` and `high` and then continue a character. -/
def run (n : Nat) (low high : UInt8) (b : Bytes) : Nat :=
  match n, b with
  | n + 1, byte :: rest =>
    if low ≤ byte ∧ byte ≤ high then run n 0x80 0xbf rest + 1 else 0
  | _, _ => 0

/-- How many of the bytes after `first` belong to one character with it, or would if the text did
not break off. The bounds leave out longer forms than needed, surrogates and numbers that are too
great. -/
def reach (first : UInt8) (rest : Bytes) : Nat :=
  if first < 0xc2 then 0
  else if first < 0xe0 then run 1 0x80 0xbf rest
  else if first < 0xf0 then
    run 2 (if first = 0xe0 then 0xa0 else 0x80) (if first = 0xed then 0x9f else 0xbf) rest
  else if first < 0xf5 then
    run 3 (if first = 0xf0 then 0x90 else 0x80) (if first = 0xf4 then 0x8f else 0xbf) rest
  else 0

def decodeChars (b : Bytes) : List Char :=
  match b with
  | [] => []
  | first :: rest =>
    let n := reach first rest
    ((Bytes.toText? (first :: rest.take n)).getD "\ufffd").toList ++ decodeChars (rest.drop n)
termination_by b.length
decreasing_by simp only [List.length_drop, List.length_cons]; omega

def decode (b : Bytes) : String := String.ofList (decodeChars b)

end DocumentShare.Utf8
