import DocumentShare.Proofs.Naming.Descent
import DocumentShare.Proofs.Naming.Ordering
import DocumentShare.Proofs.Store.Keys

/-!
# Families of keys and their ranges

The first byte of a key tells its family, and every range that a store looks through keeps to one family
(`Key.Family.Scopes`). Within it, the range contains the keys that it is made for and no others, and keys
compare like what they are made of (`Key.ranges_exact`).
-/

namespace DocumentShare.Key

variable {e f : Entry} {i j : Identity} {p q : Path} {start stop : Option UInt64} {k : Bytes}

/-! ### Families -/

/-- The families of keys. -/
inductive Family
  | entry
  | path
  | time
  | reference
deriving DecidableEq

namespace Family

/-- The first byte of the keys of a family. -/
def mark : Family → UInt8
  | entry => 0
  | path => 1
  | time => 2
  | reference => 3

/-- The keys of a family. -/
inductive Has : Family → Bytes → Prop
  | entry (i : Identity) (p : Path) : Has .entry (Key.entry i p)
  | path (e : Entry) : Has .path (pathIndex e)
  | time (e : Entry) : Has .time (timeIndex e)
  | reference (g : Digest) : Has .reference (Key.reference g)

variable {F G : Family} {r : KeyRange}

theorem mark_inj (same : F.mark = G.mark) : F = G := by
  cases F <;> cases G <;> first | rfl | exact absurd same (by decide)

theorem Has.marked (has : F.Has k) : ∃ rest, k = F.mark :: rest := by
  cases has <;> exact ⟨_, rfl⟩

/-- Of the keys of all families, a range contains only those of this one. -/
def Scopes (F : Family) (r : KeyRange) : Prop := ∀ G k, G.Has k → r.contains k → G = F

theorem scopes_of_marked (marked : ∀ k, r.contains k → ∃ rest, k = F.mark :: rest) : F.Scopes r := by
  intro G k has inside
  obtain ⟨rest, rfl⟩ := has.marked
  obtain ⟨rest', same⟩ := marked _ inside
  exact mark_inj (List.cons.inj same).1

theorem scopes_startingWith (front : Bytes) : F.Scopes (.startingWith (F.mark :: front)) :=
  scopes_of_marked fun _ => KeyRange.cons_of_startingWith

end Family

/-! ### Ranges of the path index -/

theorem pathIndexBelow_contains :
    (pathIndexBelow p).contains (pathIndex e) ↔ p.isPrefixOf e.path := by
  rw [pathIndexBelow, KeyRange.contains_startingWith, pathIndex, List.cons_prefix_cons,
    List.append_assoc, Path.orderedComponents_prefix_iff]
  exact and_iff_right rfl

theorem pathIndexAt_contains : (pathIndexAt p).contains (pathIndex e) ↔ e.path = p := by
  rw [pathIndexAt, KeyRange.contains_startingWith, pathIndex, List.cons_prefix_cons,
    List.append_assoc, and_iff_right rfl]
  constructor
  · intro ⟨rest, same⟩
    exact (Path.ordered_append_inj same).1.symm
  · intro same
    rw [same]
    exact List.prefix_append _ _

/-! ### Ranges of the time index -/

theorem compare_nil_ne_lt (b : Bytes) : compare b [] ≠ .lt := by
  cases b with
  | nil => simp
  | cons x b => simp

/-- The key of an entry in the time index is below an end of a range exactly if its timestamp is
below that. -/
theorem timeIndex_lt_iff {t : UInt64} : timeIndex e < 2 :: Bytes.ofWord t ↔ e.timestamp < t := by
  have whole := Bytes.keepsOrder_ofWord e.timestamp t (e.identity.encode ++ e.path.ordered) []
  rw [List.append_nil, ← List.append_assoc] at whole
  rw [← Bytes.compare_eq_lt_iff, timeIndex, List.compare_cons_cons, Std.compare_self, whole,
    Ordering.eq_then, Ordering.then_eq_lt, Std.compare_eq_lt]
  exact or_iff_left fun level => compare_nil_ne_lt _ level.2

theorem timeIndexBetween_contains : (timeIndexBetween start stop).contains (timeIndex e) ↔
    (∀ t ∈ start, t ≤ e.timestamp) ∧ ∀ t ∈ stop, e.timestamp < t := by
  unfold timeIndexBetween KeyRange.contains Bound.admitsAbove Bound.admitsBelow
  rw [Bool.and_eq_true, Bool.not_eq_true', decide_eq_false_iff_not, decide_eq_true_eq]
  refine and_congr ?_ ?_
  · cases start with
    | none =>
      have above : ¬timeIndex e < [2] := by
        intro less
        rcases List.cons_lt_cons_iff.mp less with less | ⟨_, less⟩
        · exact UInt8.lt_irrefl 2 less
        · exact List.not_lt_nil _ less
      simpa using above
    | some t => simp [timeIndex_lt_iff]
  · cases stop with
    | none =>
      have below : timeIndex e < [3] := List.cons_lt_cons_iff.mpr (.inl (by decide))
      simpa using below
    | some t => simp [timeIndex_lt_iff]

theorem of_timeIndexBetween
    (inside : (timeIndexBetween start stop).contains k) : ∃ rest, k = 2 :: rest := by
  unfold timeIndexBetween KeyRange.contains Bound.admitsAbove Bound.admitsBelow at inside
  rw [Bool.and_eq_true, Bool.not_eq_true', decide_eq_false_iff_not, decide_eq_true_eq] at inside
  obtain ⟨above, below⟩ := inside
  cases k with
  | nil => cases start <;> exact absurd (List.nil_lt_cons _ _) above
  | cons x rest =>
    have least : ¬x < 2 := by
      intro less
      refine above ?_
      cases start <;> exact List.cons_lt_cons_iff.mpr (.inl less)
    have most : x < 3 := by
      cases stop with
      | none => simpa [List.cons_lt_cons_iff] using below
      | some t =>
        rcases List.cons_lt_cons_iff.mp below with less | ⟨rfl, _⟩
        · exact absurd less least
        · decide
    rw [UInt8.lt_iff_toNat_lt] at least most
    have two : x.toNat = 2 := by
      simp only [UInt8.reduceToNat] at least most
      omega
    exact ⟨rest, congrArg (· :: rest) (UInt8.toNat_inj.mp two)⟩

/-! ### Order -/

theorem compare_entry : compare (entry i p) (entry j q) = (compare i j).then (compare p q) := by
  rw [entry, entry, List.compare_cons_cons, Std.compare_self, Identifier.keepsOrder_encode,
    Path.keepsOrder_ordered.compare]
  rfl

theorem compare_pathIndex : compare (pathIndex e) (pathIndex f) =
    (compare e.path f.path).then
      ((compare e.timestamp f.timestamp).then (compare e.identity f.identity)) := by
  rw [pathIndex, pathIndex, List.compare_cons_cons, Std.compare_self, List.append_assoc,
    List.append_assoc, Path.keepsOrder_ordered, Bytes.keepsOrder_ofWord,
    Identifier.keepsOrder_encode.compare]
  rfl

theorem compare_timeIndex : compare (timeIndex e) (timeIndex f) =
    (compare e.timestamp f.timestamp).then
      ((compare e.identity f.identity).then (compare e.path f.path)) := by
  rw [timeIndex, timeIndex, List.compare_cons_cons, Std.compare_self, List.append_assoc,
    List.append_assoc, Bytes.keepsOrder_ofWord, Identifier.keepsOrder_encode,
    Path.keepsOrder_ordered.compare]
  rfl

/-- Each range has the keys that it is meant for and none of another family, and the keys of each
family are in the order of what they are made of. -/
theorem ranges_exact (e f : Entry) (i : Identity) (p : Path) (start stop : Option UInt64) :
    ((entriesBelow i p).contains (entry e.identity e.path) ↔
      e.identity = i ∧ p.isPrefixOf e.path) ∧
    (p.isPrefixOf e.path ↔ p = e.path ∨ p ∈ e.path.strictPrefixes) ∧
    ((pathIndexBelow p).contains (pathIndex e) ↔ p.isPrefixOf e.path) ∧
    ((pathIndexAt p).contains (pathIndex e) ↔ e.path = p) ∧
    ((timeIndexBetween start stop).contains (timeIndex e) ↔
      (∀ t ∈ start, t ≤ e.timestamp) ∧ ∀ t ∈ stop, e.timestamp < t) ∧
    (Family.entry.Scopes (entriesBelow i p) ∧ Family.entry.Scopes entries ∧
      Family.path.Scopes (pathIndexBelow p) ∧ Family.path.Scopes (pathIndexAt p) ∧
      Family.time.Scopes (timeIndexBetween start stop)) ∧
    compare (pathIndex e) (pathIndex f) = (compare e.path f.path).then
      ((compare e.timestamp f.timestamp).then (compare e.identity f.identity)) ∧
    compare (timeIndex e) (timeIndex f) = (compare e.timestamp f.timestamp).then
      ((compare e.identity f.identity).then (compare e.path f.path)) ∧
    compare (entry e.identity e.path) (entry f.identity f.path) =
      (compare e.identity f.identity).then (compare e.path f.path) := by
  refine ⟨?_, ?_, pathIndexBelow_contains, pathIndexAt_contains, timeIndexBetween_contains, ?_,
    compare_pathIndex, compare_timeIndex, compare_entry⟩
  · rw [entriesBelow_contains, eq_comm]
  · rw [Path.isPrefixOf_iff_eq_or_strict, Path.mem_strictPrefixes]
  · exact ⟨Family.scopes_startingWith _, Family.scopes_startingWith _, Family.scopes_startingWith _,
      Family.scopes_startingWith _, Family.scopes_of_marked fun _ => of_timeIndexBetween⟩

end DocumentShare.Key
