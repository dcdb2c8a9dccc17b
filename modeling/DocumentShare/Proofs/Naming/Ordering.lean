import DocumentShare.Proofs.Bytes.Order
import DocumentShare.Proofs.Naming.Encoding

/-!
# Encodings that keep the order

Comparing the encodings of identifiers and paths, with anything behind them, compares these first and
then what is behind (`Bytes.KeepsOrder`). A shortname ends with a byte below all its letters or fills
its place, and what ends a component is below all that can continue it.
-/

namespace DocumentShare

/-! ### Identifiers -/

/-- A zero byte behind bytes that do not fill their place. -/
def Bytes.padding (width : Nat) (b : Bytes) : Bytes := if b.length < width then [0] else []

theorem Bytes.padding_cons (width : Nat) (x : UInt8) (b : Bytes) :
    padding (width + 1) (x :: b) = padding width b := by
  simp [padding]

theorem Bytes.compare_padded {a b : Bytes} {width : Nat} (plain : 0 ∉ a) (plain' : 0 ∉ b)
    (fits : a.length ≤ width) (fits' : b.length ≤ width) (s t : Bytes) :
    compare (a ++ (a.padding width ++ s)) (b ++ (b.padding width ++ t))
      = (compare a b).then (compare s t) := by
  induction a generalizing b width with
  | nil =>
    cases b with
    | nil =>
      rw [List.nil_append, List.nil_append, compare_append rfl, Std.compare_self, Std.compare_self]
    | cons y b =>
      have short : padding width [] = [0] := if_pos (Nat.lt_of_lt_of_le (Nat.succ_pos _) fits')
      rw [short, List.compare_nil_cons]
      show compare (0 :: s) (y :: _) = _
      rw [List.compare_cons_cons, UInt8.compare_zero (List.ne_of_not_mem_cons plain').symm]
      rfl
  | cons x a ih =>
    cases b with
    | nil =>
      have short : padding width [] = [0] := if_pos (Nat.lt_of_lt_of_le (Nat.succ_pos _) fits)
      rw [short, List.compare_cons_nil]
      show compare (x :: _) (0 :: t) = _
      rw [List.compare_cons_cons, UInt8.compare_zero_right (List.ne_of_not_mem_cons plain).symm]
      rfl
    | cons y b =>
      have positive := Nat.lt_of_lt_of_le (Nat.succ_pos _) fits
      obtain ⟨width, rfl⟩ := Nat.exists_eq_succ_of_ne_zero (Nat.ne_of_gt positive)
      rw [padding_cons, padding_cons, List.cons_append, List.cons_append, List.compare_cons_cons,
        List.compare_cons_cons, ih (List.not_mem_of_not_mem_cons plain)
          (List.not_mem_of_not_mem_cons plain') (Nat.le_of_succ_le_succ fits)
          (Nat.le_of_succ_le_succ fits'), Ordering.then_assoc]

namespace Identifier

variable {r : Role}

instance : Std.TransOrd (Identifier r) :=
  inferInstanceAs (Std.TransCmp (compareLex (compareOn fun i : Identifier r => i.name.bytes)
    (compareOn Identifier.key)))

instance : Std.LawfulEqOrd (Identifier r) where
  eq_of_compare {i j} same := by
    obtain ⟨names, keys⟩ := Ordering.then_eq_eq.mp same
    obtain ⟨⟨name, _⟩, key⟩ := i
    obtain ⟨⟨name', _⟩, key'⟩ := j
    have name_eq : name = name' := Std.LawfulEqCmp.eq_of_compare names
    have key_eq : key = key' := Std.LawfulEqCmp.eq_of_compare keys
    subst name_eq key_eq
    rfl

theorem keepsOrder_encode : Bytes.KeepsOrder (encode (r := r)) := by
  intro i j s t
  have parts (i : Identifier r) (s : Bytes) : i.encode ++ s =
      i.name.bytes ++ (i.name.bytes.padding r.greatestLength ++ (i.key.bytes ++ s)) := by
    simp [encode, Bytes.padding]
  rw [parts, parts, Bytes.compare_padded i.name.zero_notMem j.name.zero_notMem i.name.legal.greatest
    j.name.legal.greatest, Block.keepsOrder_bytes, ← Ordering.then_assoc]
  rfl

end Identifier

/-! ### Paths -/

namespace Path

instance : Std.TransOrd Path := inferInstanceAs (Std.TransCmp (compareOn Path.components))

theorem compare_escape_cons (x y : UInt8) (c d s t : Bytes) :
    compare (escape (x :: c) ++ s) (escape (y :: d) ++ t)
      = (compare x y).then (compare (escape c ++ s) (escape d ++ t)) := by
  rw [escape_cons, escape_cons, List.append_assoc, List.append_assoc]
  by_cases zero : x = 0 <;> by_cases zero' : y = 0
  · rw [if_pos zero, if_pos zero', Bytes.compare_append rfl, Std.compare_self, zero, zero',
      Std.compare_self]
  · rw [if_pos zero, if_neg zero', zero, UInt8.compare_zero zero']
    show compare (0 :: _) (y :: _) = _
    rw [List.compare_cons_cons, UInt8.compare_zero zero']
    rfl
  · rw [if_neg zero, if_pos zero', zero', UInt8.compare_zero_right zero]
    show compare (x :: _) (0 :: _) = _
    rw [List.compare_cons_cons, UInt8.compare_zero_right zero]
    rfl
  · rw [if_neg zero, if_neg zero']
    exact List.compare_cons_cons

/-- What ends a component is below an escape and below every other byte. -/
theorem compare_ended_escape {mark : UInt8} (ends : mark < 0xff) (x : UInt8) (c s t : Bytes) :
    compare (0 :: mark :: s) (escape (x :: c) ++ t) = .lt := by
  rw [escape_cons]
  by_cases zero : x = 0
  · rw [if_pos zero]
    show compare (0 :: mark :: s) (0 :: 0xff :: _) = _
    rw [List.compare_cons_cons, List.compare_cons_cons, Std.compare_self, Std.compare_eq_lt.mpr ends]
    rfl
  · rw [if_neg zero]
    show compare (0 :: mark :: s) (x :: _) = _
    rw [List.compare_cons_cons, UInt8.compare_zero zero]
    rfl

theorem compare_component (c d s t : Bytes) :
    compare (escape c ++ 0 :: 1 :: s) (escape d ++ 0 :: 1 :: t) = (compare c d).then (compare s t) := by
  induction c generalizing d with
  | nil =>
    cases d with
    | nil => exact Bytes.compare_append (a := [0, 1]) (b := [0, 1]) rfl s t
    | cons y d => exact compare_ended_escape (by decide) y d s _
  | cons x c ih =>
    cases d with
    | nil =>
      rw [Std.OrientedOrd.eq_swap, List.compare_cons_nil]
      exact congrArg Ordering.swap (compare_ended_escape (by decide) x c t _)
    | cons y d => rw [compare_escape_cons, ih, List.compare_cons_cons, Ordering.then_assoc]

/-- The end of a path is below every component. -/
theorem compare_written (p q : List Bytes) (s t : Bytes) :
    compare (written p ++ 0 :: 0 :: s) (written q ++ 0 :: 0 :: t) = (compare p q).then (compare s t) := by
  have ending (s : Bytes) (c : Bytes) (rest : List Bytes) (t : Bytes) :
      compare (0 :: 0 :: s) (written (c :: rest) ++ t) = .lt := by
    rw [written_cons_append]
    cases c with
    | nil => rfl
    | cons x c => exact compare_ended_escape (by decide) x c s _
  induction p generalizing q with
  | nil =>
    cases q with
    | nil => exact Bytes.compare_append (a := [0, 0]) (b := [0, 0]) rfl s t
    | cons d q => exact ending s d q _
  | cons c p ih =>
    cases q with
    | nil =>
      rw [Std.OrientedOrd.eq_swap, List.compare_cons_nil]
      exact congrArg Ordering.swap (ending t c p _)
    | cons d q =>
      rw [written_cons_append, written_cons_append, compare_component, ih, List.compare_cons_cons,
        Ordering.then_assoc]

theorem keepsOrder_ordered : Bytes.KeepsOrder ordered := by
  intro p q s t
  have bytes (p : Path) (s : Bytes) : p.ordered ++ s = written p.components ++ 0 :: 0 :: s := by
    simp [ordered, orderedComponents]
  rw [bytes, bytes, compare_written]
  rfl

end Path

end DocumentShare
