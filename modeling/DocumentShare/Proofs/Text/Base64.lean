import DocumentShare.Proofs.Bytes.Text
import DocumentShare.Proofs.Text.Bits
import DocumentShare.Text.Base64

/-!
# What a text in base64 tells

Byte strings of one length that are the same in base64 are the same (`Base64.encode_inj`). The
characters of base64 are told apart, and none is an underscore.
-/

namespace DocumentShare.Base64

theorem digitChar_inj : ∀ m < 2 ^ (5 + 1), ∀ n < 2 ^ (5 + 1), digitChar m = digitChar n → m = n := by
  decide +kernel

theorem encode_inj {b b' : Bytes} (length : b.length = b'.length) (same : encode b = encode b') :
    b = b' := by
  have bits := Bits.eq_of_map_digits digitChar_inj
    (by rw [Bits.length_ofBytes, Bits.length_ofBytes, length]) (String.ofList_injective same)
  exact Bits.ofBytes_inj bits

theorem underscore_notMem_digitChar (n : Nat) : 95 ∉ String.utf8EncodeChar (digitChar n) := by
  have digits : ∀ n : Fin 64, 95 ∉ String.utf8EncodeChar (digitChar n) := by decide
  by_cases small : n < 64
  · exact digits ⟨n, small⟩
  · have last : digitChar n = '/' := by
      unfold digitChar
      rw [if_neg (by omega), if_neg (by omega), if_neg (by omega), if_neg (by omega)]
    rw [last]
    decide

theorem underscore_notMem_encode (b : Bytes) : 95 ∉ Bytes.ofText (encode b) := by
  rw [encode, Bytes.ofText_ofList, List.flatMap_append, List.mem_append, List.mem_flatMap,
    List.mem_flatMap]
  rintro (⟨char, member, inside⟩ | ⟨char, member, inside⟩)
  · obtain ⟨n, _, rfl⟩ := List.mem_map.mp member
    exact underscore_notMem_digitChar n inside
  · rw [List.eq_of_mem_replicate member] at inside
    revert inside
    decide

end DocumentShare.Base64
