import DocumentShare.Storage.KeyRange

/-!
# Contents

Key-value pairs in strictly ascending key order. `get?` is the view that the lemmas speak of:
`get?_insert` and `get?_erase` say what writing and deleting do to it.
-/

namespace DocumentShare

theorem Bytes.lt_of_not_lt_of_ne {a b : Bytes} (h : ¬ a < b) (hne : a ≠ b) : b < a := by
  rcases List.le_iff_lt_or_eq.mp (List.not_lt.mp h) with h | h
  · exact h
  · exact absurd h.symm hne

namespace Contents

/-- The pairs with one value written. -/
def insertSorted (key value : Bytes) : List (Bytes × Bytes) → List (Bytes × Bytes)
  | [] => [(key, value)]
  | (k, v) :: rest =>
    if key < k then (key, value) :: (k, v) :: rest
    else if key = k then (key, value) :: rest
    else (k, v) :: insertSorted key value rest

theorem mem_insertSorted {key value : Bytes} {l : List (Bytes × Bytes)} {x : Bytes × Bytes}
    (h : x ∈ insertSorted key value l) : x = (key, value) ∨ x ∈ l := by
  induction l with
  | nil => simp [insertSorted] at h; exact .inl h
  | cons y l ih =>
    unfold insertSorted at h
    split at h
    · rcases List.mem_cons.mp h with h | h
      · exact .inl h
      · exact .inr h
    · split at h
      · rcases List.mem_cons.mp h with h | h
        · exact .inl h
        · exact .inr (List.mem_cons_of_mem _ h)
      · rcases List.mem_cons.mp h with h | h
        · exact .inr (h ▸ List.mem_cons_self)
        · rcases ih h with h | h
          · exact .inl h
          · exact .inr (List.mem_cons_of_mem _ h)

theorem sorted_insertSorted {key value : Bytes} {l : List (Bytes × Bytes)}
    (h : l.Pairwise (fun a b => a.1 < b.1)) :
    (insertSorted key value l).Pairwise (fun a b => a.1 < b.1) := by
  induction l with
  | nil => simp [insertSorted]
  | cons y l ih =>
    have ⟨hy, hl⟩ := List.pairwise_cons.mp h
    unfold insertSorted
    split
    · next hlt =>
      refine List.pairwise_cons.mpr ⟨fun x hx => ?_, h⟩
      rcases List.mem_cons.mp hx with rfl | hx
      · exact hlt
      · exact List.lt_trans hlt (hy x hx)
    · next hlt =>
      split
      · next heq => subst heq; exact List.pairwise_cons.mpr ⟨hy, hl⟩
      · next hne =>
        refine List.pairwise_cons.mpr ⟨fun x hx => ?_, ih hl⟩
        rcases mem_insertSorted hx with rfl | hx
        · exact Bytes.lt_of_not_lt_of_ne hlt hne
        · exact hy x hx

end Contents

structure Contents where
  pairs : List (Bytes × Bytes)
  sorted : pairs.Pairwise (fun a b => a.1 < b.1)

namespace Contents

def empty : Contents := ⟨[], List.Pairwise.nil⟩

instance : Inhabited Contents := ⟨empty⟩

def get? (c : Contents) (key : Bytes) : Option Bytes := c.pairs.lookup key

def insert (c : Contents) (key value : Bytes) : Contents :=
  ⟨insertSorted key value c.pairs, sorted_insertSorted c.sorted⟩

def erase (c : Contents) (key : Bytes) : Contents :=
  ⟨c.pairs.filter (fun x => x.1 != key), c.sorted.filter _⟩

def within (c : Contents) (r : KeyRange) : List (Bytes × Bytes) :=
  c.pairs.filter (fun x => r.contains x.1)

/-- Whether a lookup from a lower end goes past a key. -/
def skips (start : Bound) (key : Bytes) : Bool :=
  match start with
  | .unbounded => false
  | .included bound => compare key bound == .lt
  | .excluded bound => compare key bound != .gt

/-- Whether a lookup up to an upper end still takes a key. -/
def reaches (stop : Bound) (key : Bytes) : Bool :=
  match stop with
  | .unbounded => true
  | .included bound => compare key bound != .gt
  | .excluded bound => compare key bound == .lt

/-- The pairs between two ends. It is only looked for between ends that are in order. -/
def between (c : Contents) (r : KeyRange) (_ : r.Ordered) : List (Bytes × Bytes) :=
  (c.pairs.dropWhile (fun x => skips r.start x.1)).takeWhile (fun x => reaches r.stop x.1)

def size (c : Contents) : Nat := c.pairs.length

theorem lookup_insertSorted (key value k : Bytes) (l : List (Bytes × Bytes)) :
    (insertSorted key value l).lookup k = if k = key then some value else l.lookup k := by
  induction l with
  | nil => by_cases h : k = key <;> simp [insertSorted, List.lookup_cons, beq_false_of_ne, h]
  | cons y l ih =>
    obtain ⟨k', v'⟩ := y
    by_cases h : k = key
    · subst h
      unfold insertSorted
      split
      · simp
      · split
        · simp
        · next hne => simp [List.lookup_cons, beq_false_of_ne hne, ih]
    · unfold insertSorted
      split
      · simp [List.lookup_cons, beq_false_of_ne h]
      · split
        · next heq => subst heq; simp [List.lookup_cons, beq_false_of_ne h]
        · simp only [List.lookup_cons, ih, h, if_false]

theorem get?_insert (c : Contents) (key value k : Bytes) :
    (c.insert key value).get? k = if k = key then some value else c.get? k :=
  lookup_insertSorted key value k c.pairs

theorem get?_erase (c : Contents) (key k : Bytes) :
    (c.erase key).get? k = if k = key then none else c.get? k := by
  obtain ⟨l, h⟩ := c
  simp only [get?, erase]
  clear h
  induction l with
  | nil => simp
  | cons y l ih =>
    obtain ⟨k', v'⟩ := y
    by_cases hk : k' = key
    · subst hk
      by_cases h : k = k'
      · subst h; simpa using ih
      · simpa [List.lookup_cons, beq_false_of_ne h, h] using ih
    · by_cases h : k = k'
      · subst h; simp [hk]
      · simp [hk, List.lookup_cons, beq_false_of_ne h, ih]

end Contents

end DocumentShare
