import DocumentShare.Proofs.Bytes.Reading
import Mathlib.Data.List.Lex

/-!
# The order of byte strings

Byte strings are compared byte by byte. An encoding keeps the order of what it writes if comparing
encodings, with anything behind them, compares what was written first and then what is behind
(`Bytes.KeepsOrder`): so do words and blocks.
-/

namespace DocumentShare

theorem UInt8.le_last (b : UInt8) : b ≤ 255 := by
  rw [UInt8.le_iff_toNat_le]
  exact Nat.le_of_lt_succ b.toNat_lt

theorem UInt8.lt_next {b : UInt8} (last : b ≠ 255) (x : UInt8) : x < b + 1 ↔ x ≤ b := by
  have top : b.toNat < 255 := by
    refine Nat.lt_of_le_of_ne (Nat.le_of_lt_succ b.toNat_lt) fun same => last ?_
    exact UInt8.toNat_inj.mp same
  have one : (1 : UInt8).toNat = 1 := rfl
  rw [UInt8.lt_iff_toNat_lt, UInt8.le_iff_toNat_le, UInt8.toNat_add]
  omega

theorem UInt8.compare_zero {x : UInt8} (positive : x ≠ 0) : compare 0 x = .lt := by
  rw [Std.compare_eq_lt, UInt8.lt_iff_toNat_lt]
  exact Nat.pos_of_ne_zero fun zero => positive (UInt8.toNat_inj.mp zero)

theorem UInt8.compare_zero_right {x : UInt8} (positive : x ≠ 0) : compare x 0 = .gt := by
  rw [Std.OrientedOrd.eq_swap, UInt8.compare_zero positive]
  rfl

namespace Bytes

theorem compare_eq_lt_iff {a b : Bytes} : compare a b = .lt ↔ a < b := by
  induction a generalizing b with
  | nil =>
    cases b with
    | nil => simp
    | cons y b => simp
  | cons x a ih =>
    cases b with
    | nil => simp
    | cons y b =>
      rw [List.compare_cons_cons, Ordering.then_eq_lt, List.cons_lt_cons_iff, ih,
        Std.compare_eq_lt, Std.compare_eq_iff_eq]

/-- Comparing what is written, with anything behind it, compares what it was written of and then what
is behind. -/
def KeepsOrder {α : Type} [Ord α] (encode : α → Bytes) : Prop :=
  ∀ a b s t, compare (encode a ++ s) (encode b ++ t) = (compare a b).then (compare s t)

theorem KeepsOrder.compare {α : Type} [Ord α] {encode : α → Bytes} (keeps : KeepsOrder encode)
    (a b : α) : Ord.compare (encode a) (encode b) = Ord.compare a b := by
  have whole := keeps a b [] []
  rwa [List.append_nil, List.append_nil, List.compare_nil_nil, Ordering.then_eq] at whole

theorem compare_append {a b : Bytes} (length : a.length = b.length) (s t : Bytes) :
    Ord.compare (a ++ s) (b ++ t) = (Ord.compare a b).then (Ord.compare s t) := by
  induction a generalizing b with
  | nil =>
    obtain rfl := List.length_eq_zero_iff.mp length.symm
    rfl
  | cons x a ih =>
    cases b with
    | nil => cases length
    | cons y b =>
      rw [List.cons_append, List.cons_append, List.compare_cons_cons, List.compare_cons_cons,
        ih (Nat.succ.inj length), Ordering.then_assoc]

/-- A digit that is larger decides, whatever follows it. -/
theorem compare_digits {k q q' r r' : Nat} (below : r < k) (below' : r' < k) :
    Ord.compare (r + k * q) (r' + k * q') = (Ord.compare q q').then (Ord.compare r r') := by
  rcases Nat.lt_trichotomy q q' with less | rfl | greater
  · have apart : k * q + k ≤ k * q' := Nat.mul_succ k q ▸ Nat.mul_le_mul_left k less
    rw [Nat.compare_eq_lt.mpr less, Nat.compare_eq_lt.mpr (by omega)]
    rfl
  · rw [Std.compare_self]
    rcases Nat.lt_trichotomy r r' with less | rfl | greater
    · rw [Nat.compare_eq_lt.mpr less, Nat.compare_eq_lt.mpr (by omega)]
      rfl
    · rw [Std.compare_self, Std.compare_self]
      rfl
    · rw [Nat.compare_eq_gt.mpr greater, Nat.compare_eq_gt.mpr (by omega)]
      rfl
  · have apart : k * q' + k ≤ k * q := Nat.mul_succ k q' ▸ Nat.mul_le_mul_left k greater
    rw [Nat.compare_eq_gt.mpr greater, Nat.compare_eq_gt.mpr (by omega)]
    rfl

theorem compare_ofNat (width m n : Nat) :
    Ord.compare (ofNat width m) (ofNat width n) = Ord.compare (m % 256 ^ width) (n % 256 ^ width) := by
  induction width with
  | zero => simp [ofNat, Nat.mod_one]
  | succ width ih =>
    have positive : 0 < 256 ^ width := Nat.pow_pos (by decide)
    rw [ofNat_succ, ofNat_succ, List.compare_cons_cons, ih, Nat.mod_pow_succ, Nat.mod_pow_succ,
      compare_digits (Nat.mod_lt m positive) (Nat.mod_lt n positive),
      UInt8.compare_eq_toNat_compare_toNat]
    rfl

theorem keepsOrder_ofWord : KeepsOrder ofWord := by
  intro m n s t
  have whole (n : UInt64) : n.toNat % 256 ^ 8 = n.toNat := Nat.mod_eq_of_lt n.toNat_lt
  rw [compare_append (by simp [ofWord]), ofWord, ofWord, compare_ofNat, whole, whole,
    UInt64.compare_eq_toNat_compare_toNat]

end Bytes

theorem Block.keepsOrder_bytes {n : Nat} : Bytes.KeepsOrder (Block.bytes (n := n)) :=
  fun a b s t => Bytes.compare_append (a.length_bytes.trans b.length_bytes.symm) s t

instance {n : Nat} : Std.TransOrd (Block n) :=
  inferInstanceAs (Std.TransCmp (compareOn Block.bytes))

instance {n : Nat} : Std.LawfulEqOrd (Block n) where
  compare_self {a} := by
    show compare a.bytes a.bytes = .eq
    exact Std.ReflCmp.compare_self
  eq_of_compare {a b} same := by
    have bytes : compare a.bytes b.bytes = .eq := same
    exact Block.ext (Std.LawfulEqCmp.eq_of_compare bytes)

end DocumentShare
