import DocumentShare.Proofs.Authority.Recency
import DocumentShare.Proofs.Store.Pulling
import Mathlib.Data.List.Sort
import Mathlib.Data.List.SplitBy

/-!
# Lists by timestamp

A listing at a path is ranked by recency within each timestamp, which lists every document once and
none after an older one (`Archive.rank_perm`, `Archive.rank_pairwise`). What a scan has left of the
documents at a path is said by `Archive.LeftAt`.
-/

namespace DocumentShare

open Work

/-! ### Timestamp by timestamp -/

namespace Document

variable {d : Document} {ds group rest : List Document}

/-- In descending order of time, what begins with another timestamp is earlier throughout. -/
theorem Tied.earlier (tied : Tied group rest)
    (sorted : (group ++ rest).Pairwise fun d e => e.timestamp ≤ d.timestamp) (member : d ∈ group) :
    ∀ e ∈ rest, e.timestamp < d.timestamp := by
  obtain ⟨_, inRest, across⟩ := List.pairwise_append.mp sorted
  cases rest with
  | nil => simp
  | cons f rest =>
    have next : f.timestamp < d.timestamp :=
      UInt64.lt_of_le_of_ne (across d member f List.mem_cons_self) (tied.next d member f rfl).symm
    intro e later
    rcases List.mem_cons.mp later with same | later
    · exact same ▸ next
    · exact UInt64.lt_of_le_of_lt ((List.pairwise_cons.mp inRest).1 e later) next

/-- The groups that a list is split into have one timestamp each. -/
theorem tied_of_splitBy {later : List (List Document)}
    (groups : ds.splitBy (fun a b => a.timestamp = b.timestamp) = group :: later) :
    Tied group later.flatten := by
  have here : group ∈ ds.splitBy (fun a b => a.timestamp = b.timestamp) :=
    groups ▸ List.mem_cons_self
  have level : ∀ d ∈ group, ∀ e ∈ group, d.timestamp = e.timestamp := by
    have chain := List.isChain_of_mem_splitBy here
    have stamps : (group.map timestamp).IsChain (· = ·) := by
      rw [List.isChain_map]
      exact chain.imp fun _ _ same => of_decide_eq_true same
    have same := List.Pairwise.forall_of_forall (fun _ _ => rfl) stamps.pairwise
    intro d member e member'
    exact same (List.mem_map_of_mem member) (List.mem_map_of_mem member')
  have next : ∀ d ∈ group, ∀ e ∈ later.flatten.head?, d.timestamp ≠ e.timestamp := by
    have chains := List.isChain_getLast_head_splitBy
      (fun a b : Document => decide (a.timestamp = b.timestamp)) ds
    rw [groups] at chains
    intro d member e head
    cases later with
    | nil => cases head
    | cons next later =>
      obtain ⟨⟨some, some', differs⟩, _⟩ := List.isChain_cons_cons.mp chains
      rw [List.flatten_cons, List.head?_append_of_ne_nil _ some',
        List.head?_eq_some_head some'] at head
      cases head
      rw [level d member _ (List.getLast_mem some)]
      exact of_decide_eq_false differs
  exact ⟨level, next, fun empty => absurd empty (List.ne_nil_of_mem_splitBy here)⟩

theorem exists_tied (some : ds ≠ []) : ∃ group rest, ds = group ++ rest ∧ group ≠ [] ∧
    Tied group rest := by
  cases groups : ds.splitBy (fun a b => a.timestamp = b.timestamp) with
  | nil => exact absurd (List.splitBy_eq_nil.mp groups) some
  | cons group later =>
    have here : group ∈ ds.splitBy (fun a b => a.timestamp = b.timestamp) :=
      groups ▸ List.mem_cons_self
    refine ⟨group, later.flatten, ?_, List.ne_nil_of_mem_splitBy here, tied_of_splitBy groups⟩
    rw [← List.flatten_cons, ← groups, List.flatten_splitBy]

/-- A list is taken apart by its first timestamp, then by the next one. -/
theorem tied_induction {motive : List Document → Prop} (nil : motive [])
    (append : ∀ group rest, Tied group rest → motive rest → motive (group ++ rest))
    (ds : List Document) : motive ds := by
  by_cases empty : ds = []
  · exact empty ▸ nil
  · obtain ⟨group, rest, split, some, tied⟩ := exists_tied empty
    have shorter : rest.length < ds.length := by
      have := List.length_pos_of_ne_nil some
      rw [split, List.length_append]
      omega
    exact split ▸ append group rest tied (tied_induction nil append rest)
termination_by ds.length

end Document

/-! ### Ranking within timestamps -/

namespace Archive

variable {ds group rest : List Document}

theorem newestFirst_eq (ds : List Document) :
    newestFirst ds = ds.mergeSort fun a b => !b.entry.isNewerThan a.entry := by
  unfold newestFirst
  congr 1

theorem not_newer_trans (a b c : Document) (first : !b.entry.isNewerThan a.entry)
    (second : !c.entry.isNewerThan b.entry) : !c.entry.isNewerThan a.entry := by
  rw [Bool.not_eq_true'] at *
  exact Entry.not_isNewerThan_trans second first

theorem not_newer_total (a b : Document) :
    (!b.entry.isNewerThan a.entry) || !a.entry.isNewerThan b.entry := by
  cases newer : b.entry.isNewerThan a.entry with
  | true => simp [Entry.isNewerThan_asymm newer]
  | false => rfl

/-- The documents of the first timestamp are ranked, and then the others. -/
theorem rank_append (tied : Document.Tied group rest) :
    rank (group ++ rest) = newestFirst group ++ rank rest := by
  by_cases empty : group = []
  · rw [tied.whole empty, empty, newestFirst, List.mergeSort_nil, List.nil_append, List.nil_append]
  · have chain : group.IsChain fun d e => decide (d.timestamp = e.timestamp) := by
      refine List.Pairwise.isChain (List.pairwise_of_forall_mem_list ?_)
      exact fun d here e here' => decide_eq_true (tied.level d here e here')
    have apart : ∀ d ∈ group.getLast?, ∀ e ∈ rest.head?, decide (d.timestamp = e.timestamp) = false :=
      fun d last e next => decide_eq_false (tied.next d (List.mem_of_getLast? last) e next)
    rw [rank, List.splitBy_append apart, List.splitBy_of_isChain empty chain]
    rfl

theorem newestFirst_perm (ds : List Document) : (newestFirst ds).Perm ds := List.mergeSort_perm ds _

theorem newestFirst_ne_nil (some : ds ≠ []) : newestFirst ds ≠ [] := by
  intro none
  have perm := newestFirst_perm ds
  rw [none] at perm
  exact some perm.nil_eq.symm

theorem rank_perm (ds : List Document) : (rank ds).Perm ds := by
  induction ds using Document.tied_induction with
  | nil => exact .refl []
  | append group rest tied ih =>
    rw [rank_append tied]
    exact (newestFirst_perm group).append ih

theorem newestFirst_pairwise (ds : List Document) :
    (newestFirst ds).Pairwise fun d e => e.entry.isNewerThan d.entry = false := by
  rw [newestFirst_eq]
  have sorted := List.pairwise_mergeSort not_newer_trans not_newer_total ds
  exact sorted.imp fun notNewer => by simpa using notNewer

/-- Ranking within timestamps ranks the whole, since later timestamps come first. -/
theorem rank_pairwise (sorted : ds.Pairwise fun d e => e.timestamp ≤ d.timestamp) :
    (rank ds).Pairwise fun d e => e.entry.isNewerThan d.entry = false := by
  induction ds using Document.tied_induction with
  | nil => exact .nil
  | append group rest tied ih =>
    rw [rank_append tied, List.pairwise_append]
    refine ⟨newestFirst_pairwise group, ih (List.pairwise_append.mp sorted).2.1, ?_⟩
    intro d here e later
    have member := (newestFirst_perm group).mem_iff.mp here
    have member' := (rank_perm rest).mem_iff.mp later
    exact Entry.not_isNewerThan_of_earlier (tied.earlier sorted member e member')

/-! ### In the order of a scan -/

variable {documents : Finset Document} {path : Path} {direction : Direction} {d : Document}
  {last : Option Document} {ds' : List Document}

/-- Every document at a path, in the direction of a scan. -/
structure VisitedAt (documents : Finset Document) (path : Path) (direction : Direction)
    (ds : List Document) : Prop where
  sorted : ds.Pairwise (Order.path.Precedes direction)
  mem_iff : ∀ d, d ∈ ds ↔ d ∈ documents ∧ d.path = path

theorem VisitedAt.timestamps (visited : VisitedAt documents path .descending ds) :
    ds.Pairwise fun d e => e.timestamp ≤ d.timestamp := by
  refine visited.sorted.imp_of_mem ?_
  intro d e member member' precedes
  have together : e.path = d.path :=
    ((visited.mem_iff e).mp member').2.trans ((visited.mem_iff d).mp member).2.symm
  have ranked : Order.path.rank e d = .lt := precedes
  rw [Order.rank, together, Std.compare_self] at ranked
  have notLater : compare e.timestamp d.timestamp ≠ .gt := by
    intro later
    rw [later] at ranked
    cases ranked
  exact Std.isLE_compare.mp (Ordering.isLE_iff_ne_gt.mpr notLater)

/-- The documents at a path behind the last one that a scan visited, in its direction. -/
structure LeftAt (documents : Finset Document) (path : Path) (direction : Direction)
    (last : Option Document) (ds : List Document) : Prop where
  sorted : ds.Pairwise (Order.path.Precedes direction)
  mem_iff : ∀ d, d ∈ ds ↔ (d ∈ documents ∧ d.path = path) ∧
    ∀ e ∈ last, Order.path.Precedes direction e d

namespace LeftAt

theorem start (visited : VisitedAt documents path direction ds) :
    LeftAt documents path direction none ds where
  sorted := visited.sorted
  mem_iff d := by simp [visited.mem_iff]

theorem visited (left : LeftAt documents path direction none ds) :
    VisitedAt documents path direction ds where
  sorted := left.sorted
  mem_iff d := by simp [left.mem_iff]

theorem unique (left : LeftAt documents path direction last ds)
    (left' : LeftAt documents path direction last ds') : ds = ds' := by
  have irrefl : Std.Irrefl (Order.path.Precedes direction) := ⟨fun d back => back.irrefl⟩
  have antisymm : Std.Antisymm (Order.path.Precedes direction) :=
    ⟨fun d e first second => (first.trans second).irrefl.elim⟩
  exact left.sorted.eq_of_mem_iff left'.sorted fun d => (left.mem_iff d).trans (left'.mem_iff d).symm

/-- A scan that goes on to one of these documents leaves those after it. -/
theorem advance (left : LeftAt documents path direction last (group ++ d :: rest)) :
    LeftAt documents path direction (some d) rest := by
  obtain ⟨_, sorted, across⟩ := List.pairwise_append.mp left.sorted
  obtain ⟨after, sorted⟩ := List.pairwise_cons.mp sorted
  obtain ⟨_, passed⟩ := (left.mem_iff d).mp (List.mem_append_right group List.mem_cons_self)
  refine ⟨sorted, fun e => ⟨fun member => ?_, fun ⟨live, ahead⟩ => ?_⟩⟩
  · have there := List.mem_append_right group (List.mem_cons_of_mem d member)
    refine ⟨((left.mem_iff e).mp there).1, fun f same => ?_⟩
    cases same
    exact after e member
  · -- What follows `d` follows all that was passed, so it is in the list, and only behind `d`.
    have behind := ahead d rfl
    have there := (left.mem_iff e).mpr ⟨live, fun f same => (passed f same).trans behind⟩
    rcases List.mem_append.mp there with before | same | ⟨_, member⟩
    · exact (behind.trans (across e before d List.mem_cons_self)).irrefl.elim
    · exact behind.irrefl.elim
    · exact member

end LeftAt

end Archive

end DocumentShare
