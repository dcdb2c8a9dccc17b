import DocumentShare.Proofs.Naming.Encoding
import Mathlib.Data.List.Nodup

/-!
# Paths that continue paths

A path continues another exactly if it is that one joined with a third. What is joined has to be within
the bounds only as a whole, because a part of what is within them is within them as well; so how joins
are grouped does not matter (`Path.descent_exact`).
-/

namespace DocumentShare.Path

variable {p q r s t : Path} {components : List Bytes}

/-! ### Bounds -/

/-- The bounds on paths, the last one on all components together. -/
structure Within (components : List Bytes) : Prop where
  count : components.length ≤ 16
  length : ∀ c ∈ components, c.length ≤ 64
  total : components.flatten.length ≤ 1024

theorem within_iff_fits : Within components ↔ Fits components :=
  ⟨fun within => ⟨within.count, within.length, within.total⟩,
    fun fits => ⟨fits.count, fits.length, fits.total⟩⟩

theorem Fits.sublist {part : List Bytes} (fits : Fits components) (within : part.Sublist components) :
    Fits part :=
  .of_count_length (Nat.le_trans within.length_le fits.count)
    fun c member => fits.length c (within.subset member)

theorem ofComponents_eq_ok_iff : ofComponents components = .ok p ↔ p.components = components := by
  refine ⟨components_of_ofComponents, fun same => ?_⟩
  subst same
  exact ofComponents_components p

theorem ofComponents_eq_ok_iff_within :
    ofComponents components = .ok p ↔ Within components ∧ p.components = components := by
  rw [ofComponents_eq_ok_iff]
  refine ⟨fun same => ?_, And.right⟩
  exact ⟨within_iff_fits.mpr (same ▸ p.fits), same⟩

theorem ofComponents_eq_error_iff :
    ofComponents components = .error (.path (fault components)) ↔ ¬Within components := by
  rw [within_iff_fits]
  unfold ofComponents
  split
  · next fits => simp [fits]
  · next unfit => simp [unfit]

/-! ### Joining -/

theorem append_eq_ok_iff : p.append q = .ok t ↔ t.components = p.components ++ q.components :=
  ofComponents_eq_ok_iff

theorem isPrefixOf_iff_append : p.isPrefixOf q ↔ ∃ s, p.append s = .ok q := by
  rw [isPrefixOf_iff]
  constructor
  · intro ⟨rest, same⟩
    have fits : Fits rest := q.fits.sublist (same ▸ List.sublist_append_right _ _)
    exact ⟨⟨rest, fits⟩, append_eq_ok_iff.mpr same.symm⟩
  · intro ⟨s, joined⟩
    exact ⟨s.components, (append_eq_ok_iff.mp joined).symm⟩

/-- The first join is of a part of the whole, so it fails only if the whole does. -/
theorem append_append_eq_ok_iff : p.append q >>= (·.append r) = .ok t ↔
    t.components = p.components ++ (q.components ++ r.components) := by
  rw [Except.bind_eq_ok, ← List.append_assoc]
  constructor
  · intro ⟨s, first, second⟩
    rw [append_eq_ok_iff.mp second, append_eq_ok_iff.mp first]
  · intro whole
    have fits : Fits (p.components ++ q.components) :=
      t.fits.sublist (whole ▸ List.sublist_append_left _ _)
    exact ⟨⟨_, fits⟩, append_eq_ok_iff.mpr rfl, append_eq_ok_iff.mpr whole⟩

theorem append_bind_append_eq_ok_iff : q.append r >>= p.append = .ok t ↔
    t.components = p.components ++ (q.components ++ r.components) := by
  rw [Except.bind_eq_ok]
  constructor
  · intro ⟨s, first, second⟩
    rw [append_eq_ok_iff.mp second, append_eq_ok_iff.mp first]
  · intro whole
    have fits : Fits (q.components ++ r.components) :=
      t.fits.sublist (whole ▸ List.sublist_append_right _ _)
    exact ⟨⟨_, fits⟩, append_eq_ok_iff.mpr rfl, append_eq_ok_iff.mpr whole⟩

/-! ### The order of paths that continue each other -/

theorem isPrefixOf_antisymm (down : p.isPrefixOf q) (up : q.isPrefixOf p) : p = q := by
  rw [isPrefixOf_iff] at down up
  exact Path.ext (down.eq_of_length (Nat.le_antisymm down.length_le up.length_le))

theorem isPrefixOf_total (first : p.isPrefixOf r) (second : q.isPrefixOf r) :
    p.isPrefixOf q ∨ q.isPrefixOf p := by
  rw [isPrefixOf_iff] at *
  rw [isPrefixOf_iff]
  exact List.prefix_or_prefix_of_prefix first second

theorem isPrefixOf_iff_eq_or_strict : p.isPrefixOf q ↔ p = q ∨ p.isStrictPrefixOf q := by
  simp only [isStrictPrefixOf, Bool.and_eq_true, decide_eq_true_eq]
  constructor
  · intro continued
    have length : p.count ≤ q.count := (isPrefixOf_iff.mp continued).length_le
    rcases Nat.lt_or_eq_of_le length with shorter | same
    · exact .inr ⟨shorter, continued⟩
    · exact .inl (Path.ext ((isPrefixOf_iff.mp continued).eq_of_length same))
  · rintro (rfl | ⟨_, continued⟩)
    · exact isPrefixOf_refl _
    · exact continued

theorem isStrictPrefixOf_iff : p.isStrictPrefixOf q ↔ p.isPrefixOf q ∧ q ≠ p := by
  rw [isPrefixOf_iff_eq_or_strict]
  constructor
  · intro strict
    refine ⟨.inr strict, fun same => ?_⟩
    subst same
    simp [isStrictPrefixOf] at strict
  · intro ⟨above, other⟩
    exact above.resolve_left (Ne.symm other)

/-! ### The paths above a path -/

theorem count_take {n : Nat} (within : n ≤ q.count) : (q.take n).count = n := by
  rw [count, take, List.length_take]
  exact Nat.min_eq_left within

theorem mem_strictPrefixes : p ∈ q.strictPrefixes ↔ p.isStrictPrefixOf q := by
  simp only [strictPrefixes, List.mem_map, List.mem_range, isStrictPrefixOf, Bool.and_eq_true,
    decide_eq_true_eq, isPrefixOf_iff]
  constructor
  · rintro ⟨n, below, rfl⟩
    exact ⟨by rwa [count_take (Nat.le_of_lt below)], List.take_prefix n q.components⟩
  · rintro ⟨below, continued⟩
    refine ⟨p.count, below, Path.ext ?_⟩
    exact (List.prefix_iff_eq_take.mp continued).symm

theorem map_count_strictPrefixes (q : Path) : q.strictPrefixes.map count = List.range q.count := by
  rw [strictPrefixes, List.map_map]
  have counts (n : Nat) (member : n ∈ List.range q.count) : (count ∘ q.take) n = id n :=
    count_take (Nat.le_of_lt (List.mem_range.mp member))
  rw [List.map_congr_left counts, List.map_id]

theorem nodup_strictPrefixes (q : Path) : q.strictPrefixes.Nodup := by
  refine List.Nodup.of_map count ?_
  rw [map_count_strictPrefixes]
  exact List.nodup_range

/-- Paths are ordered by continuing each other, which is joining, and joins are grouped at will.
Every path is within the bounds, and only what is within them makes a path. -/
theorem descent_exact (p q r s t : Path) (c : Bytes) (components : List Bytes) :
    (p.isPrefixOf q ↔ ∃ s, p.append s = .ok q) ∧
    (p.isPrefixOf p ∧ (p.isPrefixOf q → q.isPrefixOf p → p = q) ∧
      (p.isPrefixOf q → q.isPrefixOf r → p.isPrefixOf r) ∧
      (p.isPrefixOf r → q.isPrefixOf r → p.isPrefixOf q ∨ q.isPrefixOf p)) ∧
    ((s ∈ q.strictPrefixes ↔ s.isStrictPrefixOf q) ∧
      (s.isStrictPrefixOf q ↔ s.isPrefixOf q ∧ q ≠ s) ∧
      q.strictPrefixes.Nodup ∧ q.strictPrefixes.map count = List.range q.count) ∧
    (p.append q >>= (·.append r) = .ok t ↔ q.append r >>= p.append = .ok t) ∧
    (Within t.components ∧
      (ofComponents components = .ok t ↔ Within components ∧ t.components = components) ∧
      (ofComponents components = .error (.path (fault components)) ↔ ¬Within components) ∧
      (p.append q = .ok t ↔
        Within (p.components ++ q.components) ∧ t.components = p.components ++ q.components) ∧
      (p.push c = .ok t ↔
        Within (p.components ++ [c]) ∧ t.components = p.components ++ [c])) :=
  ⟨isPrefixOf_iff_append,
    ⟨p.isPrefixOf_refl, isPrefixOf_antisymm, isPrefixOf_trans, isPrefixOf_total⟩,
    ⟨mem_strictPrefixes, isStrictPrefixOf_iff, q.nodup_strictPrefixes, q.map_count_strictPrefixes⟩,
    append_append_eq_ok_iff.trans append_bind_append_eq_ok_iff.symm,
    ⟨within_iff_fits.mpr t.fits, ofComponents_eq_ok_iff_within, ofComponents_eq_error_iff,
      ofComponents_eq_ok_iff_within, ofComponents_eq_ok_iff_within⟩⟩

end DocumentShare.Path
