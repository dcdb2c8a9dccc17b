import DocumentShare.Authority.Area
import DocumentShare.Proofs.Crypto.Transparent

/-!
# Areas as sets of positions

One area is checked to lie within another part by part: subspace, path and times. `Area.Covers` compares
the positions that they include, each an identity, a path and a timestamp. The check is enough for
positions, and it asks for no more than they do as long as the inner area has a timestamp at all
(`Area.includesArea_exact`).
-/

namespace DocumentShare

/-! ### Time ranges -/

namespace TimeRange

variable {r outer inner : TimeRange} {timestamp : UInt64}

theorem includes_iff : r.includes timestamp ↔
    r.start ≤ timestamp ∧ ∀ stop, r.stop = some stop → timestamp < stop := by
  cases ends : r.stop <;> simp [includes, ends]

/-- Only a range with an end asks the ranges within it to have one. -/
theorem includesRange_iff : outer.includesRange inner ↔
    outer.start ≤ inner.start ∧
      ∀ stop, outer.stop = some stop → ∃ last, inner.stop = some last ∧ last ≤ stop := by
  cases ends : outer.stop <;> cases ends' : inner.stop <;> simp [includesRange, ends, ends']

theorem includes_of_includesRange (within : outer.includesRange inner)
    (inside : inner.includes timestamp) : outer.includes timestamp := by
  obtain ⟨starts, stops⟩ := includesRange_iff.mp within
  obtain ⟨after, before⟩ := includes_iff.mp inside
  refine includes_iff.mpr ⟨UInt64.le_trans starts after, fun stop ends => ?_⟩
  obtain ⟨last, ends', earlier⟩ := stops stop ends
  exact UInt64.lt_of_lt_of_le (before last ends') earlier

theorem includes_start (occupied : r.includes timestamp) : r.includes r.start := by
  obtain ⟨after, before⟩ := includes_iff.mp occupied
  exact includes_iff.mpr ⟨UInt64.le_refl _, fun stop ends =>
    UInt64.lt_of_le_of_lt after (before stop ends)⟩

/-- An end above some timestamp of the range, the one before its end or the greatest there is, is an end
above the whole range. -/
theorem exists_last (occupied : r.includes timestamp) : ∃ last, r.includes last ∧
    ∀ stop, last < stop → ∃ own, r.stop = some own ∧ own ≤ stop := by
  obtain ⟨after, before⟩ := includes_iff.mp occupied
  cases ends : r.stop with
  | none =>
    have greatest : (0xffffffffffffffff : UInt64).toNat = 18446744073709551615 := rfl
    refine ⟨0xffffffffffffffff, includes_iff.mpr ⟨?_, ?_⟩, ?_⟩
    · have := r.start.toNat_lt
      rw [UInt64.le_iff_toNat_le, greatest]
      omega
    · intro stop ends'
      rw [ends] at ends'
      cases ends'
    · intro stop above
      have := stop.toNat_lt
      rw [UInt64.lt_iff_toNat_lt, greatest] at above
      omega
  | some own =>
    -- The range is not empty, so its end is not 0 and the end less one is within.
    have positive := before own ends
    rw [UInt64.le_iff_toNat_le] at after
    rw [UInt64.lt_iff_toNat_lt] at positive
    have previous : (own - 1).toNat = own.toNat - 1 :=
      UInt64.toNat_sub_of_le _ _ (by rw [UInt64.le_iff_toNat_le, UInt64.toNat_one]; omega)
    refine ⟨own - 1, includes_iff.mpr ⟨?_, ?_⟩, ?_⟩
    · rw [UInt64.le_iff_toNat_le, previous]
      omega
    · intro stop ends'
      rw [ends] at ends'
      cases ends'
      rw [UInt64.lt_iff_toNat_lt, previous]
      omega
    · intro stop above
      rw [UInt64.lt_iff_toNat_lt, previous] at above
      refine ⟨own, rfl, ?_⟩
      rw [UInt64.le_iff_toNat_le]
      omega

theorem includesRange_of_includes (occupied : inner.includes timestamp)
    (covers : ∀ t, inner.includes t → outer.includes t) : outer.includesRange inner := by
  obtain ⟨last, inside, above⟩ := exists_last occupied
  have first := covers inner.start (includes_start occupied)
  refine includesRange_iff.mpr ⟨(includes_iff.mp first).1, fun stop ends => above stop ?_⟩
  exact (includes_iff.mp (covers last inside)).2 stop ends

end TimeRange

/-! ### Subspaces -/

theorem Identifier.exists_ne {r : Role} (i : Identifier r) : ∃ j : Identifier r, j ≠ i := by
  -- Of two keys, one is not the key of `i`; its shortname may be anything.
  let one : PublicKey := ⟨List.replicate 32 1, List.length_replicate⟩
  have apart : one ≠ .zero 32 := by decide
  by_cases zero : i.key = .zero 32
  · exact ⟨⟨i.name, one⟩, fun same => apart (by rw [← zero, ← same])⟩
  · exact ⟨⟨i.name, .zero 32⟩, fun same => zero (congrArg key same.symm)⟩

namespace Subspace

variable {outer inner : Subspace}

@[simp] theorem includes_of {i j : Identity} : (of i).includes j ↔ i = j := decide_eq_true_iff

theorem includes_of_includesSubspace {identity : Identity} (within : outer.includesSubspace inner)
    (inside : inner.includes identity) : outer.includes identity := by
  cases outer with
  | any => rfl
  | of holder =>
    cases inner with
    | any => simp [includesSubspace] at within
    | of other =>
      have same : holder = other := by simpa [includesSubspace] using within
      rw [same]
      exact inside

theorem exists_includes (s : Subspace) : ∃ identity, s.includes identity := by
  cases s with
  | any => exact ⟨⟨⟨[97, 97, 97, 97], by decide⟩, .zero 32⟩, rfl⟩
  | of identity => exact ⟨identity, includes_of.mpr rfl⟩

theorem includesSubspace_of_includes (covers : ∀ i, inner.includes i → outer.includes i) :
    outer.includesSubspace inner := by
  cases outer with
  | any => rfl
  | of holder =>
    cases inner with
    | any =>
      obtain ⟨other, apart⟩ := holder.exists_ne
      exact absurd (includes_of.mp (covers other rfl)).symm apart
    | of identity => exact covers identity (includes_of.mpr rfl)

end Subspace

/-! ### Areas -/

namespace Area

variable {a b outer inner : Area}

theorem includes_iff {identity : Identity} {path : Path} {timestamp : UInt64} :
    a.includes identity path timestamp ↔
      a.subspace.includes identity ∧ a.path.isPrefixOf path ∧ a.times.includes timestamp := by
  simp only [includes, Bool.and_eq_true, and_assoc]

theorem includesArea_iff : outer.includesArea inner ↔
    outer.subspace.includesSubspace inner.subspace ∧ outer.path.isPrefixOf inner.path ∧
      outer.times.includesRange inner.times := by
  simp only [includesArea, Bool.and_eq_true, and_assoc]

theorem includes_of_includesArea {identity : Identity} {path : Path} {timestamp : UInt64}
    (within : outer.includesArea inner) (inside : inner.includes identity path timestamp) :
    outer.includes identity path timestamp := by
  obtain ⟨subspaces, paths, times⟩ := includesArea_iff.mp within
  obtain ⟨ofIdentity, atPath, atTime⟩ := includes_iff.mp inside
  exact includes_iff.mpr ⟨Subspace.includes_of_includesSubspace subspaces ofIdentity,
    Path.isPrefixOf_trans paths atPath, TimeRange.includes_of_includesRange times atTime⟩

/-- Whether every position of `b` is a position of `a`. -/
def Covers (a b : Area) : Prop := ∀ identity path timestamp,
  b.includes identity path timestamp → a.includes identity path timestamp

/-- Each part is told by positions that have the other two parts in common. -/
theorem includesArea_of_covers (occupied : ∃ t, b.times.includes t) (covers : a.Covers b) :
    a.includesArea b := by
  obtain ⟨t, occupied⟩ := occupied
  obtain ⟨someone, present⟩ := b.subspace.exists_includes
  have here := Path.isPrefixOf_refl b.path
  have corner := includes_iff.mp (covers someone b.path t (includes_iff.mpr ⟨present, here, occupied⟩))
  refine includesArea_iff.mpr ⟨?_, corner.2.1, ?_⟩
  · refine Subspace.includesSubspace_of_includes fun identity inside => ?_
    exact (includes_iff.mp (covers identity b.path t (includes_iff.mpr ⟨inside, here, occupied⟩))).1
  · refine TimeRange.includesRange_of_includes occupied fun timestamp inside => ?_
    have position := covers someone b.path timestamp (includes_iff.mpr ⟨present, here, inside⟩)
    exact (includes_iff.mp position).2.2

/-! ### Restrictions -/

/-- The area with the parts replaced that a restriction gives, be it within `a` or not. -/
def narrowed (a : Area) (r : Restriction) : Area :=
  ⟨r.subspace.getD a.subspace, r.path.getD a.path, r.times.getD a.times⟩

variable {r : Restriction}

theorem restrict_eq (a : Area) (r : Restriction) : a.restrict r =
    if a.includesArea (a.narrowed r) then .ok (a.narrowed r)
    else .error (.areaWidened (toString (a.narrowed r)) (toString a)) := rfl

theorem restrict_eq_ok : a.restrict r = .ok b ↔ a.includesArea b ∧ b = a.narrowed r := by
  rw [restrict_eq]
  split
  · next within =>
    refine ⟨fun done => ?_, fun ⟨_, narrow⟩ => by rw [narrow]⟩
    cases done
    exact ⟨within, rfl⟩
  · next without =>
    refine ⟨nofun, fun ⟨within, narrow⟩ => ?_⟩
    exact absurd (narrow ▸ within) without

/-- The check of one area within another is inclusion of their positions, if the other has a
timestamp at all, and a restriction is made exactly where it holds. -/
theorem includesArea_exact (a b : Area) (r : Restriction) :
    (a.includesArea b → a.Covers b) ∧
    ((∃ t, b.times.includes t) → a.Covers b → a.includesArea b) ∧
    ((∃ t, (a.narrowed r).times.includes t) →
      ((∃ c, a.restrict r = .ok c) ↔ a.Covers (a.narrowed r)) ∧
      (a.Covers (a.narrowed r) → a.restrict r = .ok (a.narrowed r)) ∧
      (¬a.Covers (a.narrowed r) →
        a.restrict r = .error (.areaWidened (toString (a.narrowed r)) (toString a)))) := by
  have sound (b : Area) (within : a.includesArea b) : a.Covers b :=
    fun _ _ _ inside => includes_of_includesArea within inside
  refine ⟨sound b, includesArea_of_covers, fun occupied => ?_⟩
  have same : a.includesArea (a.narrowed r) ↔ a.Covers (a.narrowed r) :=
    ⟨sound _, includesArea_of_covers occupied⟩
  refine ⟨⟨?_, ?_⟩, ?_, ?_⟩
  · rintro ⟨c, done⟩
    obtain ⟨within, rfl⟩ := restrict_eq_ok.mp done
    exact same.mp within
  · exact fun covers => ⟨_, restrict_eq_ok.mpr ⟨same.mpr covers, rfl⟩⟩
  · exact fun covers => restrict_eq_ok.mpr ⟨same.mpr covers, rfl⟩
  · intro reaches
    rw [restrict_eq, if_neg (mt same.mp reaches)]

end Area

section Restricted

open Crypto.Transparent

/-- Below a path, from a timestamp on. -/
def fromTwo : Area := ⟨.any, path 7, ⟨2, none⟩⟩

/-- What one identity has of the area until a timestamp, and what it would have from an earlier
one. -/
def threeToNine : Restriction := ⟨some (.of (identity 1)), none, some ⟨3, some 9⟩⟩

def zeroToNine : Restriction := ⟨some (.of (identity 1)), none, some ⟨0, some 9⟩⟩

theorem includesArea_exact_threeToNine :
    (fromTwo.includesArea (fromTwo.narrowed threeToNine) ∧
      (fromTwo.narrowed threeToNine).times.includes 3 ∧
      fromTwo.Covers (fromTwo.narrowed threeToNine) ∧
      fromTwo.restrict threeToNine = .ok ⟨.of (identity 1), path 7, ⟨3, some 9⟩⟩) ∧
    (fromTwo.narrowed zeroToNine).times.includes 0 ∧ ¬fromTwo.Covers (fromTwo.narrowed zeroToNine) ∧
      ¬∃ c, fromTwo.restrict zeroToNine = .ok c := by
  have within : fromTwo.includesArea (fromTwo.narrowed threeToNine) := by decide
  have occupied : (fromTwo.narrowed threeToNine).times.includes 3 := by decide
  have occupied' : (fromTwo.narrowed zeroToNine).times.includes 0 := by decide
  obtain ⟨sound, complete, restricts⟩ :=
    Area.includesArea_exact fromTwo (fromTwo.narrowed threeToNine) threeToNine
  obtain ⟨-, -, restricts'⟩ :=
    Area.includesArea_exact fromTwo (fromTwo.narrowed threeToNine) zeroToNine
  have covers := sound within
  have reaches : ¬fromTwo.Covers (fromTwo.narrowed zeroToNine) := fun covers =>
    absurd (covers (identity 1) (path 7) 0 (by decide)) (by decide)
  refine ⟨⟨complete ⟨3, occupied⟩ covers, occupied, covers, ?_⟩, occupied', reaches, ?_⟩
  · exact (restricts ⟨3, occupied⟩).2.1 covers
  · exact mt (restricts' ⟨0, occupied'⟩).1.mp reaches

end Restricted

end DocumentShare
