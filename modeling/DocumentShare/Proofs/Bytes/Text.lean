import DocumentShare.Bytes.Basic
import Mathlib.Data.List.Basic

/-!
# Texts as bytes

The bytes of a text determine it, and are read back as it. ASCII bytes are those of the text that has
them as characters (`Bytes.ofText_of_ascii`).
-/

namespace DocumentShare

namespace Bytes

theorem ofText_ofList (cs : List Char) :
    ofText (String.ofList cs) = cs.flatMap String.utf8EncodeChar := by
  simp [ofText, List.utf8Encode]

theorem ofText_append (s t : String) : ofText (s ++ t) = ofText s ++ ofText t := by
  simp [ofText, String.toByteArray_append]

theorem ofText_inj {s t : String} (same : ofText s = ofText t) : s = t :=
  String.toByteArray_inj.mp (ByteArray.ext (Array.toList_inj.mp same))

theorem toText?_eq_some_iff {b : Bytes} {text : String} : toText? b = some text ↔ ofText text = b := by
  constructor
  · intro read
    unfold toText? String.fromUTF8? at read
    split at read
    · cases read
      rfl
    · cases read
  · rintro rfl
    have valid : ByteArray.IsValidUTF8 ⟨(ofText text).toArray⟩ := text.isValidUTF8
    simp only [toText?, String.fromUTF8?, valid, dite_true]
    rfl

theorem utf8EncodeChar_of_ascii {x : UInt8} (small : x.toNat < 128) :
    String.utf8EncodeChar (Char.ofUInt8 x) = [x] := by
  have one : (Char.ofUInt8 x).utf8Size = 1 := by
    rw [Char.utf8Size_eq_one_iff]
    show x.toUInt32 ≤ 127
    simpa [UInt32.le_iff_toNat_le] using Nat.le_of_lt_succ small
  rw [String.utf8EncodeChar_eq_singleton one]
  show [x.toUInt32.toUInt8] = [x]
  simp

theorem ofText_of_ascii {b : Bytes} (ascii : ∀ x ∈ b, x.toNat < 128) :
    ofText (String.ofList (b.map Char.ofUInt8)) = b := by
  rw [ofText_ofList, List.flatMap_map,
    List.flatMap_congr fun x member => utf8EncodeChar_of_ascii (ascii x member)]
  exact List.flatMap_singleton' b

end Bytes

end DocumentShare
