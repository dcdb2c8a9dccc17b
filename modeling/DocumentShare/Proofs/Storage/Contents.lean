import DocumentShare.Proofs.Bytes.Order
import DocumentShare.Storage.Contents
import Mathlib.Data.Set.List

/-!
# Ranges of keys and what they select

`KeyRange.contains_startingWith` says that the range of a front is exactly the keys that begin with
it, `KeyRange.startingWith_exact` that it ends as early as it can, and `Contents.mem_within` that a range
selects exactly the pairs whose keys it contains.
-/

namespace DocumentShare

namespace KeyRange

/-- Comparing with the bytes and with their upper bound tells which keys begin with them. -/
theorem prefix_iff_between (front key : Bytes) :
    front <+: key ↔ ¬key < front ∧ ∀ bound, upperBound? front = some bound → key < bound := by
  induction front generalizing key with
  | nil => simp [upperBound?]
  | cons b rest ih =>
    cases key with
    | nil => simp
    | cons x key =>
      rw [List.cons_prefix_cons, List.cons_lt_cons_iff, ih key]
      cases upper : upperBound? rest with
      | some bound =>
        have here : upperBound? (b :: rest) = some (b :: bound) := by simp [upperBound?, upper]
        rw [here]
        simp only [Option.some.injEq, forall_eq', List.cons_lt_cons_iff, not_or, not_and]
        constructor
        · rintro ⟨rfl, above, below⟩
          exact ⟨⟨UInt8.lt_irrefl b, fun _ => above⟩, .inr ⟨rfl, below⟩⟩
        · rintro ⟨⟨notLess, above⟩, less | ⟨rfl, below⟩⟩
          · exact absurd less notLess
          · exact ⟨rfl, above rfl, below⟩
      | none =>
        by_cases last : b = 255
        · -- Nothing exceeds the bytes at the same place, so being no less decides.
          have here : upperBound? (b :: rest) = none := by simp [upperBound?, upper, last]
          have largest : x ≤ b := last ▸ UInt8.le_last x
          rw [here]
          simp only [reduceCtorEq, false_implies, implies_true, and_true, not_or, not_and]
          constructor
          · rintro ⟨rfl, above⟩
            exact ⟨UInt8.lt_irrefl b, fun _ => above⟩
          · rintro ⟨notLess, above⟩
            have same := UInt8.le_antisymm largest (UInt8.not_lt.mp notLess)
            exact ⟨same.symm, above same⟩
        · have here : upperBound? (b :: rest) = some [b + 1] := by simp [upperBound?, upper, last]
          rw [here]
          simp only [reduceCtorEq, false_implies, implies_true, and_true, Option.some.injEq,
            forall_eq', List.cons_lt_cons_iff, List.not_lt_nil, and_false, or_false, not_or, not_and,
            UInt8.lt_next last]
          constructor
          · rintro ⟨rfl, above⟩
            exact ⟨⟨UInt8.lt_irrefl b, fun _ => above⟩, UInt8.le_refl b⟩
          · rintro ⟨⟨notLess, above⟩, most⟩
            have same := UInt8.le_antisymm most (UInt8.not_lt.mp notLess)
            exact ⟨same.symm, above same⟩

/-- The range of a front contains exactly the keys that begin with it. -/
@[simp] theorem contains_startingWith {front key : Bytes} :
    (startingWith front).contains key ↔ front <+: key := by
  rw [prefix_iff_between]
  cases upper : upperBound? front with
  | none => simp [startingWith, contains, Bound.admitsAbove, Bound.admitsBelow, upper]
  | some bound => simp [startingWith, contains, Bound.admitsAbove, Bound.admitsBelow, upper]

theorem cons_of_startingWith {b : UInt8} {front key : Bytes}
    (inside : (startingWith (b :: front)).contains key) : ∃ rest, key = b :: rest := by
  obtain ⟨rest, same⟩ := contains_startingWith.mp inside
  exact ⟨front ++ rest, same.symm⟩

/-- Whether bytes are above every key that begins with a front. -/
def Exceeds (b front : Bytes) : Prop := ∀ key, front <+: key → key < b

theorem exceeds_of_upperBound? {front bound : Bytes} (upper : upperBound? front = some bound) :
    Exceeds bound front :=
  fun key begins => ((prefix_iff_between front key).mp begins).2 bound upper

/-- Bytes above a front that do not begin with it have the upper bound at or below them. -/
theorem Exceeds.bounded {front b : Bytes} (exceeds : Exceeds b front) :
    ∃ bound, upperBound? front = some bound ∧ bound ≤ b := by
  have above : ¬b < front := List.lt_asymm (exceeds front List.prefix_rfl)
  have apart : ¬front <+: b := fun begins => List.lt_irrefl b (exceeds b begins)
  rw [prefix_iff_between, not_and] at apart
  obtain ⟨bound, notBelow⟩ := not_forall.mp (apart above)
  obtain ⟨upper, notBelow⟩ := Classical.not_imp.mp notBelow
  exact ⟨bound, upper, List.not_lt.mp notBelow⟩

theorem upperBound?_eq_none_iff {front : Bytes} :
    upperBound? front = none ↔ ∀ x ∈ front, x = 0xff := by
  induction front with
  | nil => simp [upperBound?]
  | cons b rest ih =>
    rw [List.forall_mem_cons, ← ih, upperBound?]
    cases upperBound? rest with
    | some bound => simp
    | none => simp

/-- The range of a front contains exactly the keys that begin with it, and its upper end is the
least byte string above all of these. -/
theorem startingWith_exact (front key bound : Bytes) :
    ((startingWith front).contains key ↔ front <+: key) ∧
    (upperBound? front = some bound ↔
      Exceeds bound front ∧ ∀ b, Exceeds b front → bound ≤ b) ∧
    (upperBound? front = none ↔ ∀ x ∈ front, x = 0xff) ∧
    (upperBound? front = none ↔ ∀ b, ¬Exceeds b front) := by
  refine ⟨contains_startingWith, ⟨fun upper => ⟨exceeds_of_upperBound? upper, ?_⟩, ?_⟩,
    upperBound?_eq_none_iff, ?_, ?_⟩
  · intro b exceeds
    obtain ⟨least, upper', below⟩ := exceeds.bounded
    rw [upper] at upper'
    exact Option.some.inj upper' ▸ below
  · intro ⟨exceeds, least⟩
    obtain ⟨bound', upper, below⟩ := exceeds.bounded
    rw [upper, List.le_antisymm below (least bound' (exceeds_of_upperBound? upper))]
  · intro none b exceeds
    obtain ⟨bound, upper, _⟩ := exceeds.bounded
    rw [none] at upper
    cases upper
  · intro unbounded
    cases upper : upperBound? front with
    | none => rfl
    | some bound => exact absurd (exceeds_of_upperBound? upper) (unbounded bound)

end KeyRange

namespace Contents

theorem lookup_eq_some_iff {l : List (Bytes × Bytes)}
    (sorted : l.Pairwise (fun a b => a.1 < b.1)) {key value : Bytes} :
    l.lookup key = some value ↔ (key, value) ∈ l := by
  induction l with
  | nil => simp
  | cons x l ih =>
    obtain ⟨k, v⟩ := x
    obtain ⟨above, restSorted⟩ := List.pairwise_cons.mp sorted
    by_cases here : key = k
    · subst here
      have absent : (key, value) ∉ l := fun member => List.lt_irrefl _ (above (key, value) member)
      simp [absent, eq_comm]
    · simp [List.lookup_cons, beq_false_of_ne here, here, ih restSorted]

theorem get?_eq_some_iff {c : Contents} {key value : Bytes} :
    c.get? key = some value ↔ (key, value) ∈ c.pairs :=
  lookup_eq_some_iff c.sorted

@[simp] theorem get?_empty (key : Bytes) : empty.get? key = none := rfl

theorem get?_insert_of_ne {c : Contents} {key k value : Bytes} (other : k ≠ key) :
    (c.insert key value).get? k = c.get? k := by
  rw [get?_insert, if_neg other]

theorem get?_erase_of_ne {c : Contents} {key k : Bytes} (other : k ≠ key) :
    (c.erase key).get? k = c.get? k := by
  rw [get?_erase, if_neg other]

theorem mem_within {c : Contents} {r : KeyRange} {x : Bytes × Bytes} :
    x ∈ c.within r ↔ c.get? x.1 = some x.2 ∧ r.contains x.1 := by
  rw [get?_eq_some_iff, within, List.mem_filter]

theorem sorted_within (c : Contents) (r : KeyRange) :
    (c.within r).Pairwise (fun a b => a.1 < b.1) :=
  c.sorted.filter _

theorem eq_of_sorted {l l' : List (Bytes × Bytes)} (sorted : l.Pairwise fun a b => a.1 < b.1)
    (sorted' : l'.Pairwise fun a b => a.1 < b.1) (members : ∀ x, x ∈ l ↔ x ∈ l') : l = l' := by
  have nodup {l : List (Bytes × Bytes)} (sorted : l.Pairwise fun a b => a.1 < b.1) : l.Nodup := by
    refine sorted.imp ?_
    rintro a _ less rfl
    exact List.lt_irrefl _ less
  refine List.Perm.eq_of_pairwise (fun a b _ _ less less' => ?_) sorted sorted'
    ((List.perm_ext_iff_of_nodup (nodup sorted) (nodup sorted')).mpr members)
  exact absurd (List.lt_trans less less') (List.lt_irrefl _)

theorem within_congr {c c' : Contents} {r : KeyRange}
    (same : ∀ key, r.contains key → c.get? key = c'.get? key) : c.within r = c'.within r := by
  refine eq_of_sorted (c.sorted_within r) (c'.sorted_within r) fun x => ?_
  rw [mem_within, mem_within]
  exact and_congr_left fun inside => by rw [same x.1 inside]

/-- A range whose pairs are the items of some things lists these, each once. -/
theorem within_eq_map {α : Type} {c : Contents} {r : KeyRange} {item : α → Bytes × Bytes}
    {p : α → Prop} (items : ∀ x, x ∈ c.within r ↔ ∃ a, p a ∧ item a = x)
    (distinct : ∀ a b, p a → p b → (item a).1 = (item b).1 → a = b) :
    ∃ things : List α, c.within r = things.map item ∧
      things.Pairwise (fun a b => (item a).1 < (item b).1) ∧ ∀ a, a ∈ things ↔ p a := by
  have listed : c.within r ∈ Set.range (List.map fun a : { a // p a } => item a) := by
    rw [Set.range_list_map]
    intro x member
    obtain ⟨a, holds, rfl⟩ := (items x).mp member
    exact ⟨⟨a, holds⟩, rfl⟩
  obtain ⟨things, same⟩ := listed
  have same : c.within r = (things.map Subtype.val).map item := by
    rw [← same, List.map_map]
    rfl
  refine ⟨things.map Subtype.val, same, ?_, fun a => ⟨fun member => ?_, fun holds => ?_⟩⟩
  · have sorted := c.sorted_within r
    rw [same, List.pairwise_map] at sorted
    exact sorted
  · obtain ⟨⟨a, holds⟩, _, rfl⟩ := List.mem_map.mp member
    exact holds
  · have listed := (items (item a)).mpr ⟨a, holds, rfl⟩
    rw [same] at listed
    obtain ⟨b, member, equal⟩ := List.mem_map.mp listed
    obtain ⟨⟨b, there⟩, _, rfl⟩ := List.mem_map.mp member
    exact distinct b a there holds (congrArg Prod.fst equal) ▸ member

end Contents

end DocumentShare
