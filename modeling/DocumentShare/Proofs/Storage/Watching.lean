import DocumentShare.Proofs.Storage.Scanning
import Mathlib.Data.List.Nodup

/-!
# Scans while the contents change

`Scan.Watched` is a scan that is pulled while values are set and deleted, and `Scan.Exact` says what its
pulls come to, whatever the range and whatever is written in between (`Scan.Watched.exact_and_ordered`).
-/

namespace DocumentShare

open Work

/-- A pull of a scan: the contents that it met, and what it came to. -/
structure Pull where
  contents : Contents
  answer : Except StorageError (Option (Bytes × Bytes))

namespace Pull

/-- What the pull yielded, if it did. -/
def item (p : Pull) : Option (Bytes × Bytes) :=
  match p.answer with
  | .ok item => item
  | .error _ => none

/-- The items of a list of pulls, in the order in which they were yielded. -/
def items (log : List Pull) : List (Bytes × Bytes) := log.filterMap item

theorem items_concat (log : List Pull) (c : Contents) (item : Option (Bytes × Bytes)) :
    items (log ++ [⟨c, .ok item⟩]) = items log ++ item.toList := by
  rw [items, List.filterMap_append]
  cases item <;> rfl

end Pull

namespace Scan

variable {range : KeyRange} {direction : Direction} {b : Backend}

/-- A scan of a range that is pulled while values are set and deleted: its pulls so far, where it is,
and the backend. -/
inductive Watched (range : KeyRange) (direction : Direction) (b : Backend) :
    List Pull → Scan → Backend → Prop
  | start : Watched range direction b [] (.start range direction) b
  | pull {log : List Pull} {s : Scan} {c : Backend} (before : Watched range direction b log s c) :
    Watched range direction b (log ++ [⟨c.contents, (next.runOn (s, c)).1⟩]) (next.runOn (s, c)).2.1
      (next.runOn (s, c)).2.2
  | set {log : List Pull} {s : Scan} {c : Backend} (before : Watched range direction b log s c)
    (key value : Bytes) : Watched range direction b log s ((Backend.set key value).runOn c).2
  | delete {log : List Pull} {s : Scan} {c : Backend} (before : Watched range direction b log s c)
    (key : Bytes) : Watched range direction b log s ((Backend.delete key).runOn c).2

/-- Every pull answered with what was stored in the range at that moment, in the direction of the
scan, and none yields after the end. -/
structure Sound (range : KeyRange) (direction : Direction) (log : List Pull) : Prop where
  answered : ∀ p ∈ log, ∃ item, p.answer = .ok item ∧
    ∀ x ∈ item, p.contents.get? x.1 = some x.2 ∧ range.contains x.1
  inDirection : (Pull.items log).Pairwise fun x y => direction.Precedes x.1 y.1
  undisturbed : ∀ c : Contents, (∀ p ∈ log, p.contents = c) → log.map Pull.answer =
    (List.range log.length).map fun i => .ok (direction.arrange (c.within range))[i]?
  exhausted : log.Pairwise fun p q => p.answer = .ok none → q.answer = .ok none

/-- Moreover each key of the range that all pulls met, up to one that yielded nothing, was yielded
once. -/
structure Exact (range : KeyRange) (direction : Direction) (log : List Pull) : Prop
    extends Sound range direction log where
  complete : ∀ front p, front ++ [p] <+: log → p.answer = .ok none → ∀ key, range.contains key →
    (∀ q ∈ front ++ [p], (q.contents.get? key).isSome) → ((Pull.items log).map Prod.fst).count key = 1

/-- What is left of the range is what the scan has not passed, and a key of the range that all pulls
met was yielded or is left. -/
structure Followed (range : KeyRange) (direction : Direction) (log : List Pull) (s : Scan) : Prop
    extends Sound range direction log where
  facing : s.direction = direction
  left : ∀ key, s.remaining.contains key ↔
    range.contains key ∧ ∀ x ∈ Pull.items log, direction.Precedes x.1 key
  rest : ∀ c : Contents, (∀ p ∈ log, p.contents = c) →
    s.pending c = (direction.arrange (c.within range)).drop log.length
  ends : ∀ p ∈ log, p.answer = .ok none → s.ended
  kept : ∀ key, range.contains key → (∀ p ∈ log, (p.contents.get? key).isSome) →
    key ∈ (Pull.items log).map Prod.fst ∨ s.ended = false ∧ s.remaining.contains key

theorem followed_start (range : KeyRange) (direction : Direction) :
    Followed range direction [] (start range direction) where
  answered := by simp
  inDirection := .nil
  undisturbed := by simp
  exhausted := .nil
  facing := rfl
  left key := ⟨fun inside => ⟨inside, by simp [Pull.items]⟩, fun h => h.1⟩
  rest c _ := by cases direction <;> rfl
  ends := by simp
  kept key inside _ := .inr ⟨rfl, inside⟩

namespace Followed

variable {log : List Pull} {s : Scan}

theorem mem_head {x : Bytes × Bytes} {c : Contents} (found : (s.pending c).head? = some x) :
    c.get? x.1 = some x.2 ∧ s.remaining.contains x.1 :=
  (mem_pending.mp (List.mem_of_head? found)).2

theorem pull (h : Followed range direction log s) (c : Contents) :
    Followed range direction (log ++ [⟨c, .ok (s.pending c).head?⟩]) (s.past (s.pending c).head?) where
  answered := by
    intro p member
    rcases List.mem_append.mp member with member | member
    · exact h.answered p member
    · cases List.mem_singleton.mp member
      refine ⟨_, rfl, fun x found => ?_⟩
      obtain ⟨stored, left⟩ := mem_head found
      exact ⟨stored, ((h.left x.1).mp left).1⟩
  inDirection := by
    rw [Pull.items_concat]
    refine List.pairwise_append.mpr ⟨h.inDirection, by cases (s.pending c).head? <;> simp, ?_⟩
    intro x before y here
    exact ((h.left y.1).mp (mem_head (Option.mem_toList.mp here)).2).2 x before
  undisturbed c' same := by
    obtain ⟨earlier, here⟩ := List.forall_mem_append.mp same
    cases here _ (List.mem_singleton_self _)
    rw [List.map_append, h.undisturbed c earlier, h.rest c earlier, List.head?_drop,
      List.length_append, List.length_singleton, List.range_succ, List.map_append]
    rfl
  exhausted := by
    refine List.pairwise_append.mpr ⟨h.exhausted, List.pairwise_singleton _ _, ?_⟩
    intro p before q here none
    cases List.mem_singleton.mp here
    rw [pending_of_ended (h.ends p before none)]
    rfl
  facing := by
    rw [← h.facing]
    cases (s.pending c).head? <;> rfl
  left key := by
    rw [Pull.items_concat]
    rcases found : (s.pending c).head? with _ | x
    · rw [Option.toList_none, List.append_nil]
      exact h.left key
    · rw [Option.toList_some, List.forall_mem_append, List.forall_mem_singleton, ← and_assoc,
        ← h.left key, ← h.facing]
      exact contains_move (mem_head found).2
  rest c' same := by
    obtain ⟨earlier, here⟩ := List.forall_mem_append.mp same
    cases here _ (List.mem_singleton_self _)
    rw [pending_past, h.rest c earlier, List.tail_drop, List.length_append, List.length_singleton]
  ends := by
    intro p member none
    rcases List.mem_append.mp member with member | member
    · have ended := h.ends p member none
      rw [pending_of_ended ended]
      rfl
    · cases List.mem_singleton.mp member
      rw [Except.ok.inj none]
      rfl
  kept key inside there := by
    obtain ⟨earlier, here⟩ := List.forall_mem_append.mp there
    rw [Pull.items_concat, List.map_append, List.mem_append]
    rcases h.kept key inside earlier with yielded | ⟨going, left⟩
    · exact .inl (.inl yielded)
    · -- The key is among what is to come, so it is the first of it or comes after the first.
      obtain ⟨value, stored⟩ := Option.isSome_iff_exists.mp (here _ (List.mem_singleton_self _))
      have member : (key, value) ∈ s.pending c := mem_pending.mpr ⟨going, stored, left⟩
      rcases items : s.pending c with _ | ⟨x, rest⟩
      · rw [items] at member
        cases member
      · obtain ⟨first, _⟩ := List.pairwise_cons.mp (items ▸ s.pairwise_pending c)
        rw [items] at member
        rcases List.mem_cons.mp member with rfl | later
        · exact .inl (.inr (List.mem_singleton_self _))
        · have found : (s.pending c).head? = some x := by rw [items, List.head?_cons]
          exact .inr ⟨going, (contains_move (mem_head found).2).mpr ⟨left, first _ later⟩⟩

end Followed

/-- A scan of a backend that works goes on as it stands, whatever is written between its pulls. -/
theorem Watched.followed {log : List Pull} {s : Scan} {c : Backend} (works : b.Works)
    (watched : Watched range direction b log s c) : Followed range direction log s ∧ c.Works := by
  induction watched with
  | start => exact ⟨followed_start range direction, works⟩
  | @pull log s c _ ih =>
    obtain ⟨followed, works⟩ := ih
    obtain ⟨item, answer, found, moved, _, stillWorks⟩ := (next_answers s works).ran
    rw [answer, moved, found]
    exact ⟨followed.pull c.contents, stillWorks⟩
  | set _ key value ih =>
    obtain ⟨_, _, _, _, works⟩ := ((Backend.does_set _ key value).answers ih.2).ran
    exact ⟨ih.1, works⟩
  | delete _ key ih =>
    obtain ⟨_, _, _, _, works⟩ := ((Backend.does_delete _ key).answers ih.2).ran
    exact ⟨ih.1, works⟩

/-- The pulls up to some moment are those of the same scan at that moment. -/
theorem Watched.front {log front : List Pull} {s : Scan} {c : Backend}
    (watched : Watched range direction b log s c) (begins : front <+: log) :
    ∃ s' c', Watched range direction b front s' c' := by
  induction watched with
  | start =>
    cases List.prefix_nil.mp begins
    exact ⟨_, _, .start⟩
  | pull before ih =>
    rcases List.prefix_concat_iff.mp begins with rfl | begins
    · exact ⟨_, _, before.pull⟩
    · exact ih begins
  | set _ _ _ ih => exact ih begins
  | delete _ _ ih => exact ih begins

/-- Of the keys of a scan's range, those that its pulls always met are behind it once one of them
yields nothing. -/
theorem Followed.mem_items {log : List Pull} {s : Scan} {p : Pull} {key : Bytes}
    (followed : Followed range direction (log ++ [p]) s) (none : p.answer = .ok none)
    (inside : range.contains key) (there : ∀ q ∈ log ++ [p], (q.contents.get? key).isSome) :
    key ∈ (Pull.items (log ++ [p])).map Prod.fst := by
  rcases followed.kept key inside there with yielded | ⟨going, _⟩
  · exact yielded
  · have ended := followed.ends p (List.mem_append_right log (List.mem_singleton_self p)) none
    rw [going] at ended
    cases ended

theorem Sound.nodup {log : List Pull} (sound : Sound range direction log) :
    ((Pull.items log).map Prod.fst).Nodup := by
  apply List.pairwise_map.mpr
  refine sound.inDirection.imp fun {x y} precedes same => ?_
  rw [same] at precedes
  exact Direction.precedes_irrefl _ precedes

/-- Scans are exact under any writes and for any range. An ordered map is asked between two ends
only if it allows that, and else no key is between them. -/
theorem Watched.exact_and_ordered {log : List Pull} {s : Scan} {c : Backend} (works : b.Works)
    (watched : Watched range direction b log s c) :
    Exact range direction log ∧ (next.runOn (s, c)).2.2.contents = c.contents ∧
      (∀ c, s.seek c = (direction.arrange (c.within s.remaining)).head?) ∧
      ∀ r : KeyRange, (r.isVoid ∨ r.Ordered) ∧ (r.isVoid → ∀ key, ¬r.contains key) := by
  obtain ⟨followed, stillWorks⟩ := watched.followed works
  have exactly : Exact range direction log := by
    refine ⟨followed.toSound, fun front p begins none key inside there => ?_⟩
    obtain ⟨s', c', earlier⟩ := watched.front begins
    have yielded := (earlier.followed works).1.mem_items none inside there
    have kept := (begins.filterMap Pull.item).map Prod.fst
    exact List.count_eq_one_of_mem followed.nodup (kept.subset yielded)
  obtain ⟨_, _, _, _, same, _⟩ := (next_answers s stillWorks).ran
  refine ⟨exactly, same, fun c => ?_, fun r => ⟨r.isVoid_or_ordered, KeyRange.not_contains_of_isVoid⟩⟩
  rw [← followed.facing]
  exact s.seek_eq_head c

/-- A backend of two values. -/
def numbered : Backend :=
  { Backend.empty with contents := (Contents.empty.insert [1] [1]).insert [3] [3] }

/-- A value set ahead of a scan is yielded, one deleted ahead of it is not, and one that stays is
yielded once. -/
theorem exact_of_writes_ahead : numbered.Works ∧ ∃ log s c,
    Watched .full .ascending numbered log s c ∧
      log.map Pull.answer = [.ok (some ([1], [1])), .ok (some ([2], [2])), .ok none] ∧
      Exact .full .ascending log ∧ ((Pull.items log).map Prod.fst).count [1] = 1 := by
  have works : numbered.Works := fun _ => rfl
  have began : Watched .full .ascending numbered [] (start .full .ascending) numbered := .start
  have watched := ((began.pull.set [2] [2]).delete [3]).pull.pull
  have exactly := (watched.exact_and_ordered works).1
  refine ⟨works, _, _, _, watched, rfl, exactly, ?_⟩
  exact exactly.complete _ _ (List.prefix_refl _) rfl [1] rfl (by decide)

end Scan

end DocumentShare
