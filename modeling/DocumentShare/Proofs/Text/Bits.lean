import DocumentShare.Text.Bits
import Mathlib.Algebra.Ring.Nat

/-!
# Bits, bytes and digits

A bit string is told by its length and its number. Read one after the other, its digits are its bits and
zero bits that fill up the last digit (`Bits.flatMap_digits`), and any bit string is whole bytes and fewer
than eight bits behind them (`Bits.toBytes_eq_iff`).
-/

namespace DocumentShare.Bits

/-! ### Numbers of bits -/

theorem length_ofNat (width n : Nat) : (ofNat width n).length = width := by
  induction width with
  | zero => rfl
  | succ width ih => rw [ofNat, List.length_cons, ih]

theorem foldl_inj {n n' : Nat} {bits bits' : List Bool} (length : bits.length = bits'.length)
    (same : bits.foldl (fun n bit => 2 * n + bit.toNat) n
      = bits'.foldl (fun n bit => 2 * n + bit.toNat) n') : n = n' ∧ bits = bits' := by
  induction bits generalizing n n' bits' with
  | nil =>
    obtain rfl := List.eq_nil_of_length_eq_zero length.symm
    exact ⟨same, rfl⟩
  | cons bit bits ih =>
    cases bits' with
    | nil => cases length
    | cons bit' bits' =>
      obtain ⟨sums, rfl⟩ := ih (Nat.succ.inj length) same
      cases bit <;> cases bit' <;> simp only [Bool.toNat_false, Bool.toNat_true] at sums
      · exact ⟨by omega, rfl⟩
      · omega
      · omega
      · exact ⟨by omega, rfl⟩

theorem toNat_inj {bits bits' : List Bool} (length : bits.length = bits'.length)
    (same : toNat bits = toNat bits') : bits = bits' :=
  (foldl_inj length same).2

theorem foldl_lt (n : Nat) (bits : List Bool) :
    bits.foldl (fun n bit => 2 * n + bit.toNat) n < (n + 1) * 2 ^ bits.length := by
  induction bits generalizing n with
  | nil => simp
  | cons bit bits ih =>
    have more : 2 * n + bit.toNat + 1 ≤ 2 * (n + 1) := by
      have := bit.toNat_le
      omega
    calc bits.foldl (fun n bit => 2 * n + bit.toNat) (2 * n + bit.toNat)
        < (2 * n + bit.toNat + 1) * 2 ^ bits.length := ih _
      _ ≤ 2 * (n + 1) * 2 ^ bits.length := Nat.mul_le_mul_right _ more
      _ = (n + 1) * 2 ^ (bit :: bits).length := by
        rw [List.length_cons, Nat.pow_succ, Nat.mul_comm 2 (n + 1), Nat.mul_assoc,
          Nat.mul_comm 2 (2 ^ bits.length)]

theorem toNat_lt (bits : List Bool) : toNat bits < 2 ^ bits.length := by
  have bound := foldl_lt 0 bits
  rwa [Nat.zero_add, Nat.one_mul] at bound

theorem ofNat_toNat (bits : List Bool) : ofNat bits.length (toNat bits) = bits := by
  apply toNat_inj (length_ofNat _ _)
  rw [toNat_ofNat, Nat.one_shiftLeft, Nat.mod_eq_of_lt (toNat_lt bits)]

theorem toNat_ofNat_of_lt {width n : Nat} (small : n < 2 ^ width) : toNat (ofNat width n) = n := by
  rw [toNat_ofNat, Nat.one_shiftLeft, Nat.mod_eq_of_lt small]

theorem ofNat_inj {width m n : Nat} (small : m < 2 ^ width) (small' : n < 2 ^ width)
    (same : ofNat width m = ofNat width n) : m = n := by
  rw [← toNat_ofNat_of_lt small, same, toNat_ofNat_of_lt small']

/-! ### Bytes -/

theorem length_ofBytes (b : Bytes) : (ofBytes b).length = 8 * b.length := by
  induction b with
  | nil => rfl
  | cons byte b ih =>
    rw [ofBytes, List.flatMap_cons, List.length_append, length_ofNat, List.length_cons]
    rw [ofBytes] at ih
    omega

theorem ofBytes_inj {b b' : Bytes} (same : ofBytes b = ofBytes b') : b = b' := by
  have back (b : Bytes) : toBytes (ofBytes b ++ []) = b := toBytes_ofBytes_append b [] (by decide)
  rw [← back b, same, back b']

theorem exists_byte {bits : List Bool} (length : bits.length = 8) :
    ∃ byte : UInt8, ofNat 8 byte.toNat = bits := by
  have small : toNat bits < 256 := by
    have bound := toNat_lt bits
    rwa [length] at bound
  refine ⟨(toNat bits).toUInt8, ?_⟩
  have same : (toNat bits).toUInt8.toNat = toNat bits := by
    rw [Nat.toUInt8_eq, UInt8.toNat_ofNat', Nat.mod_eq_of_lt small]
  rw [same, ← length, ofNat_toNat]

theorem exists_ofBytes (bits : List Bool) :
    ∃ b spare, bits = ofBytes b ++ spare ∧ spare.length < 8 := by
  induction length : bits.length using Nat.strongRecOn generalizing bits with
  | ind n ih =>
    by_cases few : n < 8
    · exact ⟨[], bits, rfl, length ▸ few⟩
    · have whole : (bits.take 8).length = 8 := List.length_take_of_le (by omega)
      obtain ⟨byte, first⟩ := exists_byte whole
      obtain ⟨b, spare, rest, less⟩ := ih (n - 8) (by omega) (bits.drop 8) (by simp [length])
      refine ⟨byte :: b, spare, ?_, less⟩
      rw [ofBytes, List.flatMap_cons, first, List.append_assoc]
      rw [ofBytes] at rest
      rw [← rest, List.take_append_drop]

theorem toBytes_eq_iff {bits : List Bool} {b : Bytes} :
    toBytes bits = b ↔ ∃ spare, bits = ofBytes b ++ spare ∧ spare.length < 8 := by
  constructor
  · intro read
    obtain ⟨b', spare, rfl, few⟩ := exists_ofBytes bits
    rw [toBytes_ofBytes_append b' spare few] at read
    exact ⟨spare, by rw [read], few⟩
  · rintro ⟨spare, rfl, few⟩
    exact toBytes_ofBytes_append b spare few

/-! ### Digits -/

theorem length_flatMap_ofNat (width : Nat) (ds : List Nat) :
    (ds.flatMap (ofNat width)).length = width * ds.length := by
  induction ds with
  | nil => rfl
  | cons d ds ih =>
    rw [List.flatMap_cons, List.length_append, length_ofNat, ih, List.length_cons, Nat.mul_succ]
    omega

theorem flatMap_ofNat_inj {width : Nat} {ds ds' : List Nat} (small : ∀ d ∈ ds, d < 2 ^ (width + 1))
    (small' : ∀ d ∈ ds', d < 2 ^ (width + 1))
    (same : ds.flatMap (ofNat (width + 1)) = ds'.flatMap (ofNat (width + 1))) : ds = ds' := by
  have length : ds.length = ds'.length := by
    have lengths := congrArg List.length same
    rw [length_flatMap_ofNat, length_flatMap_ofNat] at lengths
    exact Nat.eq_of_mul_eq_mul_left (Nat.succ_pos width) lengths
  induction ds generalizing ds' with
  | nil => exact (List.eq_nil_of_length_eq_zero length.symm).symm
  | cons d ds ih =>
    cases ds' with
    | nil => cases length
    | cons d' ds' =>
      rw [List.flatMap_cons, List.flatMap_cons] at same
      obtain ⟨first, rest⟩ := List.append_inj same (by rw [length_ofNat, length_ofNat])
      obtain ⟨here, later⟩ := List.forall_mem_cons.mp small
      obtain ⟨here', later'⟩ := List.forall_mem_cons.mp small'
      rw [ofNat_inj here here' first, ih later later' rest (Nat.succ.inj length)]

theorem ofNat_toNat_filled (width : Nat) (bit : Bool) (bits : List Bool) :
    let first := bit :: bits.take width
    let filled := first ++ List.replicate (width + 1 - first.length) false
    filled.length = width + 1 ∧ ofNat (width + 1) (toNat filled) = filled := by
  intro first filled
  have length : filled.length = width + 1 := by
    simp only [filled, first, List.length_append, List.length_cons, List.length_take,
      List.length_replicate]
    omega
  exact ⟨length, length ▸ ofNat_toNat filled⟩

theorem digits_lt {width : Nat} {bits : List Bool} : ∀ d ∈ digits width bits, d < 2 ^ (width + 1) := by
  induction bits using digits.induct width with
  | case1 => simp [digits]
  | case2 bit bits ih =>
    rw [digits]
    refine List.forall_mem_cons.mpr ⟨?_, ih⟩
    exact Nat.lt_of_lt_of_eq (toNat_lt _) (congrArg (2 ^ ·) (ofNat_toNat_filled width bit bits).1)

/-- Read one after the other, the digits are the bits and what fills up the last digit. -/
theorem flatMap_digits (width : Nat) (bits : List Bool) :
    ∃ k ≤ width, (width + 1) ∣ bits.length + k ∧
      (digits width bits).flatMap (ofNat (width + 1)) = bits ++ List.replicate k false := by
  induction bits using digits.induct width with
  | case1 => exact ⟨0, Nat.zero_le _, by simp, by simp [digits]⟩
  | case2 bit bits ih =>
    have first := (ofNat_toNat_filled width bit bits).2
    rw [digits, List.flatMap_cons]
    rw [first]
    by_cases more : width ≤ bits.length
    · obtain ⟨k, within, divides, rest⟩ := ih
      have taken : (bits.take width).length = width := List.length_take_of_le more
      have whole : (bit :: bits).length + k = (width + 1) + ((bits.drop width).length + k) := by
        rw [List.length_cons, List.length_drop]
        omega
      refine ⟨k, within, whole ▸ Nat.dvd_add (Nat.dvd_refl _) divides, ?_⟩
      rw [rest, List.length_cons, taken, Nat.sub_self, List.replicate_zero, List.append_nil,
        ← List.append_assoc, List.cons_append, List.take_append_drop]
    · have short : bits.length < width := Nat.lt_of_not_le more
      refine ⟨width - bits.length, by omega, ?_, ?_⟩
      · rw [List.length_cons]
        exact ⟨1, by omega⟩
      · rw [List.take_of_length_le (by omega), List.drop_eq_nil_of_le (by omega), digits,
          List.flatMap_nil, List.append_nil, List.length_cons]
        congr 2
        omega

/-- How many digits there are is told by how many bits there are. -/
theorem count_eq {width length k k' n n' : Nat} (within : k ≤ width) (within' : k' ≤ width)
    (whole : (width + 1) * n = length + k) (whole' : (width + 1) * n' = length + k') : n = n' := by
  rcases Nat.lt_trichotomy n n' with less | same | more
  · have := Nat.mul_le_mul_left (width + 1) (Nat.succ_le_of_lt less)
    rw [Nat.mul_succ] at this
    omega
  · exact same
  · have := Nat.mul_le_mul_left (width + 1) (Nat.succ_le_of_lt more)
    rw [Nat.mul_succ] at this
    omega

/-- The digits of bits are the only ones that read as these and fewer zero bits than a digit has. -/
theorem eq_digits {width k : Nat} {bits : List Bool} {ds : List Nat}
    (small : ∀ d ∈ ds, d < 2 ^ (width + 1)) (within : k ≤ width)
    (read : ds.flatMap (ofNat (width + 1)) = bits ++ List.replicate k false) :
    ds = digits width bits := by
  obtain ⟨k', within', ⟨n', whole'⟩, read'⟩ := flatMap_digits width bits
  have whole : (width + 1) * ds.length = bits.length + k := by
    rw [← length_flatMap_ofNat, read, List.length_append, List.length_replicate]
  have filled : k = k' := by
    rw [count_eq within within' whole whole'.symm] at whole
    omega
  subst filled
  exact flatMap_ofNat_inj small digits_lt (read.trans read'.symm)

theorem length_digits_congr {width : Nat} {bits bits' : List Bool}
    (length : bits.length = bits'.length) :
    (digits width bits).length = (digits width bits').length := by
  obtain ⟨k, within, _, read⟩ := flatMap_digits width bits
  obtain ⟨k', within', _, read'⟩ := flatMap_digits width bits'
  have whole : (width + 1) * (digits width bits).length = bits.length + k := by
    rw [← length_flatMap_ofNat, read, List.length_append, List.length_replicate]
  have whole' : (width + 1) * (digits width bits').length = bits.length + k' := by
    rw [← length_flatMap_ofNat, read', List.length_append, List.length_replicate, length]
  exact count_eq within within' whole whole'

/-- Bits are told by their digits, if each digit is told by its character. What follows the
characters does not matter where the bits are equally many. -/
theorem eq_of_map_digits {α : Type} {f : Nat → α} {width : Nat} {bits bits' : List Bool}
    {rest rest' : List α}
    (told : ∀ m < 2 ^ (width + 1), ∀ n < 2 ^ (width + 1), f m = f n → m = n)
    (length : bits.length = bits'.length)
    (same : (digits width bits).map f ++ rest = (digits width bits').map f ++ rest') :
    bits = bits' := by
  have count : (digits width bits).length = (digits width bits').length :=
    length_digits_congr length
  obtain ⟨here, _⟩ := List.append_inj same (by rw [List.length_map, List.length_map, count])
  have digits_eq : digits width bits = digits width bits' := by
    apply List.ext_getElem count
    intro n below below'
    have places := List.getElem_of_eq here (by rwa [List.length_map])
    rw [List.getElem_map, List.getElem_map] at places
    exact told _ (digits_lt _ (List.getElem_mem below)) _ (digits_lt _ (List.getElem_mem below')) places
  obtain ⟨k, _, _, read⟩ := flatMap_digits width bits
  obtain ⟨k', _, _, read'⟩ := flatMap_digits width bits'
  rw [digits_eq, read'] at read
  exact (List.append_inj read.symm length).1

end DocumentShare.Bits
