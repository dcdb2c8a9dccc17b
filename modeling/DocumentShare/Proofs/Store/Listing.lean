import DocumentShare.Proofs.Store.Families
import DocumentShare.Proofs.Store.Records
import DocumentShare.Proofs.Storage.Backend
import DocumentShare.Store.Listing
import Mathlib.Data.List.Infix
import Mathlib.Data.Nat.Find

/-!
# What a query lists

`Query.listing` is the list that a query stands for, whatever is stored in which way: the documents
that match it, sorted and arranged, and of these the longest front that it affords. `Query.fill`
takes them one by one and comes to the same (`Query.cut_eq_fill`). The keys of an order compare like
its documents (`Order.compare_key`).
-/

namespace DocumentShare

namespace Order

/-- How two documents compare in an order. -/
def rank : Order → Document → Document → Ordering
  | .path, d, e => (compare d.path e.path).then
      ((compare d.timestamp e.timestamp).then (compare d.identity e.identity))
  | .timestamp, d, e => (compare d.timestamp e.timestamp).then
      ((compare d.identity e.identity).then (compare d.path e.path))
  | .identity, d, e => (compare d.identity e.identity).then (compare d.path e.path)

def key : Order → Document → Bytes
  | .path, d => Key.pathIndex d.entry
  | .timestamp, d => Key.timeIndex d.entry
  | .identity, d => d.key

def value : Order → Document → Bytes
  | .path, d => d.key
  | .timestamp, d => d.key
  | .identity, d => d.encode

/-- The first byte of the keys of an order. -/
def family : Order → UInt8
  | .identity => 0
  | .path => 1
  | .timestamp => 2

theorem key_eq_cons (o : Order) (d : Document) : ∃ rest, o.key d = o.family :: rest := by
  cases o with
  | identity => exact ⟨_, rfl⟩
  | path => exact ⟨_, rfl⟩
  | timestamp => exact ⟨_, rfl⟩

theorem family_inj {o p : Order} (same : o.family = p.family) : o = p := by
  cases o <;> cases p <;> first | rfl | exact absurd same (by decide)

variable {o : Order} {d e f : Document}

theorem key_inj (same : o.key d = o.key e) : d.key = e.key := by
  cases o with
  | path => exact Document.key_of_pathIndex same
  | timestamp => exact Document.key_of_timeIndex same
  | identity => exact same

theorem compare_key (o : Order) (d e : Document) : compare (o.key d) (o.key e) = o.rank d e := by
  cases o with
  | path => exact Key.compare_pathIndex
  | timestamp => exact Key.compare_timeIndex
  | identity => exact Key.compare_entry

theorem rank_of_key_lt (less : o.key d < o.key e) : (o.rank d e).isLE := by
  rw [← compare_key, Bytes.compare_eq_lt_iff.mpr less]
  rfl

theorem rank_trans (first : (o.rank d e).isLE) (second : (o.rank e f).isLE) :
    (o.rank d f).isLE := by
  rw [← compare_key] at *
  exact Std.TransCmp.isLE_trans first second

theorem rank_total (o : Order) (d e : Document) : (o.rank d e).isLE || (o.rank e d).isLE := by
  rw [← compare_key, ← compare_key, Std.OrientedOrd.eq_swap (a := o.key e)]
  cases compare (o.key d) (o.key e) <;> rfl

theorem key_eq_of_rank (first : (o.rank d e).isLE) (second : (o.rank e d).isLE) : d.key = e.key := by
  rw [← compare_key] at *
  exact key_inj (Std.compare_eq_iff_eq.mp (Std.OrientedCmp.isLE_antisymm first second))

end Order

namespace Query

/-- What a query asks of a document. -/
structure Matches (q : Query) (d : Document) : Prop where
  path : ∀ p ∈ q.path, p.components <+: d.path.components
  identity : ∀ i ∈ q.identity, d.identity = i
  start : ∀ t ∈ q.start, t ≤ d.timestamp
  stop : ∀ t ∈ q.stop, d.timestamp < t

theorem selects_iff {q : Query} {d : Document} : q.selects d.entry ↔ q.Matches d := by
  simp only [selects, Bool.and_eq_true, Option.all_eq_true, decide_eq_true_eq, Path.isPrefixOf_iff]
  constructor
  · rintro ⟨⟨⟨path, identity⟩, start⟩, stop⟩
    exact ⟨path, fun i wanted => (identity i wanted).symm, start, stop⟩
  · rintro ⟨path, identity, start, stop⟩
    exact ⟨⟨⟨path, fun i wanted => (identity i wanted).symm⟩, start⟩, stop⟩

instance (q : Query) (d : Document) : Decidable (q.Matches d) := decidable_of_iff _ selects_iff

theorem matches_all (o : Order) (direction : Direction) (d : Document) :
    (all o direction).Matches d :=
  selects_iff.mp rfl

theorem filter_selects (q : Query) (ds : List Document) :
    (ds.filter fun d => q.selects d.entry) = ds.filter fun d => q.Matches d :=
  List.filter_congr fun _ _ => Bool.eq_iff_iff.mpr (selects_iff.trans decide_eq_true_iff.symm)

/-- The documents that match a query, in its order and direction. -/
def arranged (q : Query) (documents : List Document) : List Document :=
  q.direction.arrange
    ((documents.filter fun d => q.Matches d).mergeSort fun d e => (q.order.rank d e).isLE)

/-- The sum of payload lengths, as far as a word can hold it. -/
def size (ds : List Document) : Nat :=
  min (ds.map fun d => d.entry.payloadLength.toNat).sum (UInt64.size - 1)

/-- Whether documents are no more than a query wants, and never too large on the way. -/
def affords (q : Query) (ds : List Document) : Bool :=
  q.limit.all (ds.length ≤ ·) && ds.inits.all fun front => q.maxSize.all (size front ≤ ·)

/-- The longest front of documents that a query affords. -/
def cut (q : Query) (ds : List Document) : List Document :=
  ds.take (Nat.findGreatest (fun n => q.affords (ds.take n)) ds.length)

def listing (q : Query) (documents : List Document) : List Document := q.cut (q.arranged documents)

/-- What is taken of documents one by one after a tally. -/
def fill (q : Query) : Tally → List Document → List Document
  | _, [] => []
  | t, d :: ds =>
    if q.isFull t || q.isOversize (t.add d.entry) then [] else d :: q.fill (t.add d.entry) ds

/-! ### Taking one by one -/

section Filling

variable {q : Query} {d : Document} {ds es : List Document}

def tally (ds : List Document) : Tally := ⟨ds.length, size ds⟩

theorem tally_concat (ds : List Document) (d : Document) :
    tally (ds ++ [d]) = (tally ds).add d.entry := by
  unfold tally Tally.add size
  rw [List.length_append, List.map_append, List.sum_append]
  congr 1
  simp only [List.map_cons, List.map_nil, List.sum_cons, List.sum_nil]
  omega

theorem affords_iff : q.affords ds ↔
    (∀ n ∈ q.limit, ds.length ≤ n) ∧ ∀ front, front <+: ds → ∀ n ∈ q.maxSize, size front ≤ n := by
  simp only [affords, Bool.and_eq_true, Option.all_eq_true, List.all_eq_true, List.mem_inits,
    decide_eq_true_eq]
  rfl

theorem affords_nil (q : Query) : q.affords [] := by
  refine affords_iff.mpr ⟨fun n _ => Nat.zero_le n, fun front isFront n _ => ?_⟩
  rw [List.prefix_nil.mp isFront]
  exact Nat.zero_le n

theorem affords_concat : q.affords (ds ++ [d]) ↔
    q.affords ds ∧ ¬q.isFull (tally ds) ∧ ¬q.isOversize (tally (ds ++ [d])) := by
  have full : ¬q.isFull (tally ds) ↔ ∀ n ∈ q.limit, ds.length + 1 ≤ n := by
    unfold isFull
    cases q.limit with
    | none => simp
    | some n =>
      show ¬decide (n ≤ ds.length) = true ↔ ∀ m ∈ some n, ds.length + 1 ≤ m
      simp only [decide_eq_true_eq, Option.mem_def, Option.some.injEq, forall_eq']
      exact Nat.not_le
  have oversize : ¬q.isOversize (tally (ds ++ [d])) ↔ ∀ n ∈ q.maxSize, size (ds ++ [d]) ≤ n := by
    unfold isOversize
    cases q.maxSize with
    | none => simp
    | some n => simp [tally]
  rw [full, oversize, affords_iff, affords_iff, List.length_append, List.length_singleton]
  constructor
  · rintro ⟨fewer, small⟩
    refine ⟨⟨fun n limit => Nat.le_of_succ_le (fewer n limit), fun front isFront => ?_⟩, fewer,
      small _ List.prefix_rfl⟩
    exact small front (List.prefix_concat_iff.mpr (.inr isFront))
  · rintro ⟨⟨_, small⟩, fewer, last⟩
    refine ⟨fewer, fun front isFront => ?_⟩
    rcases List.prefix_concat_iff.mp isFront with rfl | isFront
    · exact last
    · exact small front isFront

theorem affords_of_prefix (affords : q.affords es) (isFront : ds <+: es) : q.affords ds := by
  obtain ⟨fewer, small⟩ := affords_iff.mp affords
  refine affords_iff.mpr ⟨fun n limit => ?_, fun front before => small front (before.trans isFront)⟩
  exact Nat.le_trans isFront.length_le (fewer n limit)

/-- What is taken after others is the longest front that is affordable together with these. -/
theorem fill_spec (done ds : List Document) (affordable : q.affords done) :
    ∃ n ≤ ds.length, q.fill (tally done) ds = ds.take n ∧ q.affords (done ++ ds.take n) ∧
      ∀ m, n < m → m ≤ ds.length → ¬q.affords (done ++ ds.take m) := by
  induction ds generalizing done with
  | nil =>
    refine ⟨0, Nat.le_refl 0, rfl, by simpa using affordable, fun m less most => ?_⟩
    exact absurd less (Nat.not_lt.mpr most)
  | cons d ds ih =>
    by_cases next : q.affords (done ++ [d])
    · obtain ⟨_, notFull, notOversize⟩ := affords_concat.mp next
      obtain ⟨n, within, taken, affordable, longest⟩ := ih (done ++ [d]) next
      refine ⟨n + 1, Nat.succ_le_succ within, ?_, ?_, fun m less most => ?_⟩
      · rw [fill, ← tally_concat, if_neg (by simp [notFull, notOversize]), taken, List.take_succ_cons]
      · simpa using affordable
      · obtain ⟨m, rfl⟩ := Nat.exists_eq_succ_of_ne_zero (Nat.ne_zero_of_lt less)
        rw [List.take_succ_cons, List.append_cons]
        exact longest m (Nat.lt_of_succ_lt_succ less) (Nat.le_of_succ_le_succ most)
    · refine ⟨0, Nat.zero_le _, ?_, by simpa using affordable, fun m less _ more => next ?_⟩
      · have ends : q.isFull (tally done) || q.isOversize (tally (done ++ [d])) := by
          by_contra go
          refine next (affords_concat.mpr ⟨affordable, ?_⟩)
          simpa using go
        rw [fill, ← tally_concat, if_pos ends, List.take_zero]
      · obtain ⟨m, rfl⟩ := Nat.exists_eq_succ_of_ne_zero (Nat.ne_zero_of_lt less)
        refine affords_of_prefix more ⟨ds.take m, ?_⟩
        rw [List.take_succ_cons, List.append_assoc, List.singleton_append]

theorem cut_eq_fill (q : Query) (ds : List Document) : q.cut ds = q.fill .zero ds := by
  obtain ⟨n, within, taken, affordable, longest⟩ := fill_spec (q := q) [] ds (affords_nil q)
  have greatest : Nat.findGreatest (fun n => q.affords (ds.take n)) ds.length = n := by
    refine Nat.findGreatest_eq_iff.mpr ⟨within, fun _ => affordable, ?_⟩
    exact fun m less most => longest m less most
  rw [cut, greatest, ← taken]
  rfl

end Filling

end Query

end DocumentShare
