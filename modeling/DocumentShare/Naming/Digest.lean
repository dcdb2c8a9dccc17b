import DocumentShare.Crypto.Basic
import DocumentShare.Text.Base32

/-!
# Digests and signatures as text

Both are written in base32. Descriptions name a digest by its first eight characters.
-/

namespace DocumentShare

def Block.text {n : Nat} (b : Block n) : String := Base32.encode b.bytes

instance : ToString Digest := ⟨Block.text⟩

/-- The first eight characters of a digest, after a number sign. -/
def Block.brief {n : Nat} (b : Block n) : String :=
  "#" ++ String.ofList ((Base32.encodeChars b.bytes).take 8)

/-- A signature as it is named in descriptions. -/
def Block.describe {n : Nat} (b : Block n) : String := "Signature(\"" ++ b.text ++ "\")"

end DocumentShare
