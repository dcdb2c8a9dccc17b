import DocumentShare.Proofs.Storage.Backend

/-!
# Where scans are

A scan keeps nothing but the last key that it yielded, and looks at each pull for the next one in the
contents of that moment. `Scan.contains_move` says which keys are left behind a cursor, and
`Scan.pending_past` what is to come after a pull.
-/

namespace DocumentShare

open Work

/-! ### Ends of ranges -/

namespace Bound

variable {b : Bound} {key key' : Bytes}

theorem admitsAbove_of_lt (admits : b.admitsAbove key) (less : key < key') : b.admitsAbove key' := by
  cases b with
  | unbounded => rfl
  | included bound =>
    simp only [admitsAbove, Bool.not_eq_true', decide_eq_false_iff_not] at admits ⊢
    intro below
    exact admits (List.lt_trans less below)
  | excluded bound =>
    simp only [admitsAbove, decide_eq_true_eq] at admits ⊢
    exact List.lt_trans admits less

theorem admitsBelow_of_lt (admits : b.admitsBelow key') (less : key < key') : b.admitsBelow key := by
  cases b with
  | unbounded => rfl
  | included bound =>
    simp only [admitsBelow, Bool.not_eq_true', decide_eq_false_iff_not] at admits ⊢
    intro above
    exact admits (List.lt_trans above less)
  | excluded bound =>
    simp only [admitsBelow, decide_eq_true_eq] at admits ⊢
    exact List.lt_trans less admits

end Bound

namespace KeyRange

/-- Ends that leave no room have no key between them. -/
theorem not_contains_of_isVoid {r : KeyRange} (void : r.isVoid) (key : Bytes) : ¬r.contains key := by
  obtain ⟨start, stop⟩ := r
  cases start <;> cases stop <;>
    simp [isVoid, contains, Bound.admitsAbove, Bound.admitsBelow] at void ⊢
  case included.included => exact Std.lt_of_lt_of_le void
  case included.excluded => exact List.le_trans void
  case excluded.included => exact List.lt_of_le_of_lt void
  case excluded.excluded => exact fun above => List.le_of_lt (List.lt_of_le_of_lt void above)

/-- Whatever the ends are, an ordered map is not asked between them or may be. -/
theorem isVoid_or_ordered (r : KeyRange) : r.isVoid ∨ r.Ordered := by
  by_cases void : r.isVoid
  · exact .inl void
  · exact .inr (ordered_of_not_isVoid void)

end KeyRange

/-! ### What lies between two ends -/

namespace Contents

section Cuts

variable {α : Type} {p : α → Bool} {l : List α}

/-- Where a test that is once met stays met, what it is met by is the end of the list. -/
theorem dropWhile_eq_filter (stays : l.Pairwise fun x y => p x → p y) :
    l.dropWhile (fun x => !p x) = l.filter p := by
  induction l with
  | nil => rfl
  | cons x l ih =>
    obtain ⟨later, rest⟩ := List.pairwise_cons.mp stays
    by_cases here : p x
    · have all : ∀ y ∈ l, p y := fun y member => later y member here
      simp [here, List.filter_eq_self.mpr all]
    · simp [here, ih rest]

/-- Where a test that once fails stays failed, what it is met by is the front of the list. -/
theorem takeWhile_eq_filter (stays : l.Pairwise fun x y => p y → p x) :
    l.takeWhile p = l.filter p := by
  induction l with
  | nil => rfl
  | cons x l ih =>
    obtain ⟨later, rest⟩ := List.pairwise_cons.mp stays
    by_cases here : p x
    · simp [here, ih rest]
    · have none : ∀ y ∈ l, ¬p y := fun y member there => here (later y member there)
      simp [here, List.filter_eq_nil_iff.mpr none]

end Cuts

/-- A lookup compares keys with its ends, and by this tells what a range contains. -/
theorem skips_eq (start : Bound) (key : Bytes) : skips start key = !start.admitsAbove key := by
  cases start with
  | unbounded => rfl
  | included bound =>
    rw [skips, Bound.admitsAbove, Bool.not_not, Bool.eq_iff_iff, beq_iff_eq, decide_eq_true_iff]
    exact Bytes.compare_eq_lt_iff
  | excluded bound =>
    rw [skips, Bound.admitsAbove, Bool.eq_iff_iff, bne_iff_ne, Bool.not_eq_true',
      decide_eq_false_iff_not, ← Bytes.compare_eq_lt_iff]
    exact not_congr Std.OrientedCmp.gt_iff_lt

theorem reaches_eq (stop : Bound) (key : Bytes) : reaches stop key = stop.admitsBelow key := by
  cases stop with
  | unbounded => rfl
  | included bound =>
    rw [reaches, Bound.admitsBelow, Bool.eq_iff_iff, bne_iff_ne, Bool.not_eq_true',
      decide_eq_false_iff_not, ← Bytes.compare_eq_lt_iff]
    exact not_congr Std.OrientedCmp.gt_iff_lt
  | excluded bound =>
    rw [reaches, Bound.admitsBelow, Bool.eq_iff_iff, beq_iff_eq, decide_eq_true_iff]
    exact Bytes.compare_eq_lt_iff

theorem between_eq_within (c : Contents) {r : KeyRange} (ordered : r.Ordered) :
    c.between r ordered = c.within r := by
  have above : c.pairs.Pairwise fun x y => r.start.admitsAbove x.1 → r.start.admitsAbove y.1 :=
    c.sorted.imp fun less admits => Bound.admitsAbove_of_lt admits less
  have below : c.pairs.Pairwise fun x y => r.stop.admitsBelow y.1 → r.stop.admitsBelow x.1 :=
    c.sorted.imp fun less admits => Bound.admitsBelow_of_lt admits less
  simp only [between, skips_eq, reaches_eq]
  rw [dropWhile_eq_filter above, takeWhile_eq_filter (below.filter _), List.filter_filter]
  apply List.filter_congr
  intro x _
  rw [KeyRange.contains, Bool.and_comm]

theorem within_of_isVoid (c : Contents) {r : KeyRange} (void : r.isVoid) : c.within r = [] :=
  List.filter_eq_nil_iff.mpr fun x _ => KeyRange.not_contains_of_isVoid void x.1

end Contents

/-! ### Directions -/

namespace Direction

variable {d : Direction}

/-- A key that a scan in the direction comes to before another. -/
def Precedes : Direction → Bytes → Bytes → Prop
  | ascending, a, b => a < b
  | descending, a, b => b < a

instance (a b : Bytes) : Decidable (d.Precedes a b) :=
  match d with
  | ascending => inferInstanceAs (Decidable (a < b))
  | descending => inferInstanceAs (Decidable (b < a))

theorem precedes_irrefl (key : Bytes) : ¬d.Precedes key key := by
  cases d <;> exact List.lt_irrefl key

theorem pairwise_arrange {l : List (Bytes × Bytes)} (sorted : l.Pairwise fun x y => x.1 < y.1) :
    (d.arrange l).Pairwise fun x y => d.Precedes x.1 y.1 := by
  cases d with
  | ascending => exact sorted
  | descending => exact List.pairwise_reverse.mpr sorted

end Direction

namespace Scan

variable {s : Scan} {range : KeyRange} {key key' : Bytes} {c : Contents}

/-! ### Where a scan is -/

/-- The scan is of the range and is still inside. -/
structure On (s : Scan) (range : KeyRange) : Prop where
  whole : s.range = range
  visited : ∀ key ∈ s.cursor, range.contains key

theorem on_start (range : KeyRange) (direction : Direction) : (start range direction).On range where
  whole := rfl
  visited key none := by cases none

theorem On.move (on : s.On range) (inside : range.contains key) :
    On { s with cursor := some key } range where
  whole := on.whole
  visited key' same := by
    cases same
    exact inside

theorem On.contains (on : s.On range) (left : s.remaining.contains key) : range.contains key := by
  obtain ⟨whole, direction, cursor, ended⟩ := s
  obtain ⟨rfl, visited⟩ := on
  cases cursor with
  | none => exact left
  | some last =>
    obtain ⟨start, stop⟩ := Bool.and_eq_true_iff.mp (visited last rfl)
    apply Bool.and_eq_true_iff.mpr
    cases direction with
    | ascending =>
      obtain ⟨above, below⟩ := Bool.and_eq_true_iff.mp left
      exact ⟨Bound.admitsAbove_of_lt start (of_decide_eq_true above), below⟩
    | descending =>
      obtain ⟨above, below⟩ := Bool.and_eq_true_iff.mp left
      exact ⟨above, Bound.admitsBelow_of_lt stop (of_decide_eq_true below)⟩

/-- A cursor takes the place of the end that the scan comes from. -/
theorem remaining_move (s : Scan) (key : Bytes) :
    remaining { s with cursor := some key } = match s.direction with
      | .ascending => ⟨.excluded key, s.remaining.stop⟩
      | .descending => ⟨s.remaining.start, .excluded key⟩ := by
  obtain ⟨range, direction, cursor, ended⟩ := s
  cases direction <;> cases cursor <;> rfl

/-- Moving the cursor to a key that is left leaves the keys that the scan comes to after it. -/
theorem contains_move (left : s.remaining.contains key) :
    (remaining { s with cursor := some key }).contains key' ↔
      s.remaining.contains key' ∧ s.direction.Precedes key key' := by
  obtain ⟨start, stop⟩ := Bool.and_eq_true_iff.mp left
  rw [remaining_move, KeyRange.contains, Bool.and_eq_true_iff]
  cases s.direction with
  | ascending =>
    constructor
    · rintro ⟨after, below⟩
      have after : key < key' := of_decide_eq_true after
      exact ⟨Bool.and_eq_true_iff.mpr ⟨Bound.admitsAbove_of_lt start after, below⟩, after⟩
    · rintro ⟨inside, after⟩
      exact ⟨decide_eq_true after, (Bool.and_eq_true_iff.mp inside).2⟩
  | descending =>
    constructor
    · rintro ⟨above, after⟩
      have after : key' < key := of_decide_eq_true after
      exact ⟨Bool.and_eq_true_iff.mpr ⟨above, Bound.admitsBelow_of_lt stop after⟩, after⟩
    · rintro ⟨inside, after⟩
      exact ⟨(Bool.and_eq_true_iff.mp inside).1, decide_eq_true after⟩

/-! ### What is to come -/

theorem pending_eq_arrange (s : Scan) (c : Contents) :
    s.pending c = if s.ended then [] else s.direction.arrange (c.within s.remaining) := by
  obtain ⟨range, direction, cursor, ended⟩ := s
  cases direction <;> rfl

theorem pending_of_ended (ended : s.ended) : s.pending c = [] := by
  rw [pending_eq_arrange, if_pos ended]

theorem mem_pending {x : Bytes × Bytes} : x ∈ s.pending c ↔
    s.ended = false ∧ c.get? x.1 = some x.2 ∧ s.remaining.contains x.1 := by
  rw [pending_eq_arrange]
  cases s.ended <;> simp [Direction.mem_arrange, Contents.mem_within]

theorem On.mem_pending (on : s.On range) {x : Bytes × Bytes} (member : x ∈ s.pending c) :
    c.get? x.1 = some x.2 ∧ range.contains x.1 := by
  obtain ⟨_, stored, left⟩ := Scan.mem_pending.mp member
  exact ⟨stored, on.contains left⟩

/-- What is to come comes in the scan's direction. -/
theorem pairwise_pending (s : Scan) (c : Contents) :
    (s.pending c).Pairwise fun x y => s.direction.Precedes x.1 y.1 := by
  rw [pending_eq_arrange]
  split
  · exact .nil
  · exact Direction.pairwise_arrange (c.sorted_within s.remaining)

theorem seek_eq_head (s : Scan) (c : Contents) :
    s.seek c = (s.direction.arrange (c.within s.remaining)).head? := by
  unfold seek
  split
  · next void =>
    rw [c.within_of_isVoid void]
    cases s.direction <;> rfl
  · next roomy =>
    dsimp only
    rw [c.between_eq_within]
    cases s.direction with
    | ascending => rfl
    | descending => exact List.head?_reverse.symm

/-- Where the scan is after a pull that found this. -/
def past (s : Scan) : Option (Bytes × Bytes) → Scan
  | none => { s with ended := true }
  | some x => { s with cursor := some x.1 }

/-- A pull takes away the first of what is to come, as long as the contents stay as they are. -/
theorem pending_past (s : Scan) (c : Contents) :
    (s.past (s.pending c).head?).pending c = (s.pending c).tail := by
  rcases items : s.pending c with _ | ⟨x, rest⟩
  · rfl
  · obtain ⟨going, _, left⟩ := mem_pending.mp (items ▸ List.mem_cons_self : x ∈ s.pending c)
    obtain ⟨first, _⟩ := List.pairwise_cons.mp (items ▸ s.pairwise_pending c)
    have after : (s.past (some x)).pending c =
        (s.pending c).filter fun y => decide (s.direction.Precedes x.1 y.1) := by
      rw [pending_eq_arrange, pending_eq_arrange, if_neg (by simp [past, going]),
        if_neg (by simp [going]), ← Direction.arrange_filter]
      congr 1
      rw [Contents.within, Contents.within, List.filter_filter]
      apply List.filter_congr
      intro y _
      rw [Bool.eq_iff_iff, Bool.and_eq_true_iff, decide_eq_true_iff, and_comm]
      exact contains_move left
    have stays : rest.filter (fun y => decide (s.direction.Precedes x.1 y.1)) = rest :=
      List.filter_eq_self.mpr fun y member => decide_eq_true (first y member)
    rw [List.head?_cons, List.tail_cons, after, items,
      List.filter_cons_of_neg (by simpa using Direction.precedes_irrefl x.1), stays]

/-- A pull of a backend that works finds the first of what is to come, and changes nothing there. -/
theorem next_answers (s : Scan) {b : Backend} (works : b.Works) :
    next.Answers (s, b) fun item t => item = (s.pending b.contents).head? ∧ t.1 = s.past item ∧
      t.2.contents = b.contents ∧ t.2.Works := by
  have found : (if s.ended then none else s.seek b.contents) = (s.pending b.contents).head? := by
    rw [pending_eq_arrange, seek_eq_head]
    cases s.ended <;> rfl
  apply Ends.ofStep
  dsimp only
  rw [found]
  rcases (s.pending b.contents).head? with _ | ⟨key, value⟩
  · exact ⟨rfl, rfl, rfl, works⟩
  · obtain ⟨_, answer, _, same, stillWorks⟩ := ((Backend.does_ask b .scan).answers works).ran
    rcases ran : (Backend.ask .scan).runOn b with ⟨e | _, b'⟩
    · rw [ran] at answer
      cases answer
    · rw [ran] at same stillWorks
      exact ⟨rfl, rfl, same, stillWorks⟩

end Scan

end DocumentShare
