import DocumentShare.Proofs.Store.Coherence
import DocumentShare.Proofs.Store.Listing

/-!
# Queries answer what they list

The range of keys that a query scans has the keys of all documents that match the query and of no
other kind of record (`Query.range_contains_key`, `Query.kind_of_range`). So a query on a store answers
its listing of the documents there are (`listed_of_run`).
-/

namespace DocumentShare

open Work

/-- The records of an order among the contents are those of the documents. -/
def Contents.Files (c : Contents) (o : Order) (documents : Finset Document) : Prop :=
  ∀ rest value, c.get? (o.family :: rest) = some value ↔
    ∃ d ∈ documents, o.family :: rest = o.key d ∧ value = o.value d

theorem Contents.lists_iff {c : Contents} {documents : Finset Document} :
    c.Lists documents ↔
      c.Files .identity documents ∧ ∀ d ∈ documents, Document.decode d.encode = .ok d := by
  constructor
  · intro lists
    exact ⟨fun rest value => lists.records _ value (Key.entries_contains.mpr ⟨rest, rfl⟩),
      lists.readable⟩
  · intro ⟨files, readable⟩
    refine ⟨fun key value inside => ?_, readable⟩
    obtain ⟨rest, rfl⟩ := Key.entries_contains.mp inside
    exact files rest value

theorem Ledger.holds_family {l : Ledger} {rest value : Bytes} (o : Order) :
    l.Holds (o.family :: rest) value ↔
      ∃ d ∈ l.documents, o.family :: rest = o.key d ∧ value = o.value d := by
  constructor
  · intro held
    generalize same : o.family :: rest = key at held
    cases held with
    | @document d live =>
      obtain rfl := Order.family_inj (p := .identity) (List.cons.inj same).1
      exact ⟨d, live, rfl, rfl⟩
    | @path d live =>
      obtain rfl := Order.family_inj (p := .path) (List.cons.inj same).1
      exact ⟨d, live, rfl, rfl⟩
    | @time d live =>
      obtain rfl := Order.family_inj (p := .timestamp) (List.cons.inj same).1
      exact ⟨d, live, rfl, rfl⟩
    | count counted =>
      have other := (List.cons.inj same).1
      cases o <;> exact absurd other (by decide)
  · rintro ⟨d, live, same, rfl⟩
    rw [same]
    cases o with
    | identity => exact .document live
    | path => exact .path live
    | timestamp => exact .time live

namespace Query

variable {q : Query} {d : Document} {k v : Bytes}

theorem Matches.isPrefixOf (wanted : q.Matches d) : (q.path.getD .empty).isPrefixOf d.path := by
  cases path : q.path with
  | none => rfl
  | some p => exact Path.isPrefixOf_iff.mpr (wanted.path p path)

theorem range_contains_key (wanted : q.Matches d) : q.range.contains (q.order.key d) := by
  have below := wanted.isPrefixOf
  unfold range
  dsimp only
  cases q.order with
  | path => exact Key.pathIndexBelow_contains.mpr below
  | timestamp => exact Key.timeIndexBetween_contains.mpr ⟨wanted.start, wanted.stop⟩
  | identity =>
    cases identity : q.identity with
    | none => exact Key.entries_contains.mpr ⟨_, rfl⟩
    | some i => exact Key.entriesBelow_contains.mpr ⟨(wanted.identity i identity).symm, below⟩

theorem family_of_range (inside : q.range.contains k) : ∃ rest, k = q.order.family :: rest := by
  unfold range at inside
  dsimp only at inside
  cases order : q.order with
  | path =>
    rw [order] at inside
    exact KeyRange.cons_of_startingWith inside
  | timestamp =>
    rw [order] at inside
    exact Key.of_timeIndexBetween inside
  | identity =>
    rw [order] at inside
    cases identity : q.identity with
    | none =>
      rw [identity] at inside
      exact Key.entries_contains.mp inside
    | some i =>
      rw [identity] at inside
      exact Key.of_entriesBelow inside

theorem kind_of_range {l : Ledger} (inside : q.range.contains k) (held : l.Holds k v) :
    ∃ d ∈ l.documents, k = q.order.key d ∧ v = q.order.value d := by
  obtain ⟨rest, rfl⟩ := family_of_range inside
  exact (Ledger.holds_family q.order).mp held

theorem fill_full {t : Tally} (full : q.isFull t) (ds : List Document) : q.fill t ds = [] := by
  cases ds with
  | nil => rfl
  | cons d ds => rw [fill, full, Bool.true_or, if_pos rfl]

end Query

theorem Archive.ofItem_index {order : Order} (other : order ≠ .identity) (value : Bytes) :
    ofItem order value = ofItem .path value := by
  cases order with
  | path => rfl
  | timestamp => rfl
  | identity => exact absurd rfl other

namespace Contents

variable {c : Contents} {documents : Finset Document} {d : Document} {q : Query}

theorem Files.items (files : c.Files q.order documents)
    (distinct : ∀ d ∈ documents, ∀ e ∈ documents, d.key = e.key → d = e) :
    ∃ ds : List Document,
      c.within q.range = ds.map (fun d => (q.order.key d, q.order.value d)) ∧
      ds.Pairwise (fun d d' => q.order.key d < q.order.key d') ∧
      ∀ d, d ∈ ds ↔ d ∈ documents ∧ q.range.contains (q.order.key d) := by
  refine Contents.within_eq_map (fun x => ?_) fun d e live there same =>
    distinct d live.1 e there.1 (Order.key_inj same)
  rw [Contents.mem_within]
  constructor
  · rintro ⟨found, inside⟩
    obtain ⟨rest, family⟩ := Query.family_of_range inside
    rw [family] at found
    obtain ⟨d, live, place, value⟩ := (files rest x.2).mp found
    rw [← family] at place
    exact ⟨d, ⟨live, place ▸ inside⟩, Prod.ext place.symm value.symm⟩
  · rintro ⟨d, ⟨live, inside⟩, rfl⟩
    obtain ⟨rest, family⟩ := q.order.key_eq_cons d
    refine ⟨?_, inside⟩
    dsimp only
    rw [family]
    exact (files rest _).mpr ⟨d, live, family.symm, rfl⟩

namespace Lists

theorem ofItem (lists : c.Lists documents) (live : d ∈ documents) (order : Order) :
    (Archive.ofItem order (order.value d)).Reads c (· = d) := by
  have index : (Archive.ofItem .path d.key).Reads c (· = d) := by
    apply (lists.documentAt d.identity d.path).bind
    intro o here
    obtain rfl := (here d).mpr ⟨live, rfl, rfl⟩
    exact .pure rfl
  cases order with
  | path => exact index
  | timestamp => exact index
  | identity => exact lists.ofStored live

theorem askDocument (lists : c.Lists documents) (live : d ∈ documents) (order : Order) :
    (Archive.askDocument order (order.value d)).Reads c (· = d) :=
  ArchiveWork.Reads.ask.bind fun _ _ => lists.ofItem live order

theorem gather (lists : c.Lists documents) {ds : List Document} (live : ∀ d ∈ ds, d ∈ documents)
    (t : Tally) :
    (Archive.gather q t (ds.map fun d => (q.order.key d, q.order.value d))).Reads c
      (· = q.fill t (ds.filter fun d => q.Matches d)) := by
  rw [← Query.filter_selects]
  induction ds generalizing t with
  | nil => exact .pure rfl
  | cons d ds ih =>
    obtain ⟨here, rest⟩ := List.forall_mem_cons.mp live
    rw [List.map_cons, Archive.gather]
    split
    · next full => exact .pure (Query.fill_full full _).symm
    · next notFull =>
      apply (lists.askDocument here q.order).bind
      intro d' same
      rw [same, Archive.judge]
      by_cases selected : q.selects d.entry
      · rw [if_neg (by simp [selected]), List.filter_cons, if_pos selected, Query.fill]
        by_cases oversize : q.isOversize (t.add d.entry)
        · rw [if_pos oversize, if_pos (by simp [oversize])]
          exact .pure rfl
        · rw [if_neg oversize, if_neg (by simp [notFull, oversize])]
          apply (ih rest (t.add d.entry)).bind
          intro listed answer
          exact .pure (congrArg (d :: ·) answer)
      · rw [if_pos (by simp [selected]), List.filter_cons, if_neg selected]
        exact ih rest t

/-- A scan finds the documents that match a query in the order of the query. -/
theorem arranged (lists : c.Lists documents) (files : c.Files q.order documents)
    {enumeration : List Document} (once : enumeration.Nodup)
    (all : ∀ d, d ∈ enumeration ↔ d ∈ documents) :
    ∃ ds : List Document, (∀ d ∈ ds, d ∈ documents) ∧
      q.direction.arrange (c.within q.range)
        = ds.map (fun d => (q.order.key d, q.order.value d)) ∧
      (ds.filter fun d => q.Matches d) = q.arranged enumeration := by
  obtain ⟨ds, same, ascending, member⟩ := files.items fun d live e there => lists.distinct live there
  refine ⟨q.direction.arrange ds, fun d here => ((member d).mp (Direction.mem_arrange.mp here)).1,
    by rw [same, Direction.arrange_map], ?_⟩
  rw [← Direction.arrange_filter, Query.arranged]
  congr 1
  -- Both lists have the same documents and are sorted, and no two documents rank equally.
  have unlike := Document.nodup_of_ascending ascending
  have perm : (ds.filter fun d => q.Matches d).Perm (enumeration.filter fun d => q.Matches d) := by
    refine (List.perm_ext_iff_of_nodup (unlike.filter _) (once.filter _)).mpr fun d => ?_
    rw [List.mem_filter, List.mem_filter, member, all]
    refine and_congr_left fun wanted => and_iff_left ?_
    exact Query.range_contains_key (of_decide_eq_true wanted)
  have scanned : (ds.filter fun d => q.Matches d).Pairwise
      fun d e => (q.order.rank d e).isLE = true :=
    (ascending.imp fun less => Order.rank_of_key_lt less).filter _
  have sorted : ((enumeration.filter fun d => q.Matches d).mergeSort
      fun d e => (q.order.rank d e).isLE).Pairwise fun d e => (q.order.rank d e).isLE = true := by
    apply List.pairwise_mergeSort
    · intro d e f
      exact Order.rank_trans
    · exact Order.rank_total q.order
  refine List.Perm.eq_of_pairwise (fun d e here there first second => ?_) scanned sorted
    (perm.trans (List.mergeSort_perm _ _).symm)
  have live := ((member d).mp (List.mem_of_mem_filter here)).1
  have live' := (all e).mp (List.mem_of_mem_filter ((List.mergeSort_perm _ _).subset there))
  exact lists.distinct live live' (Order.key_eq_of_rank first second)

theorem query (lists : c.Lists documents) (files : c.Files q.order documents)
    {enumeration : List Document} (once : enumeration.Nodup)
    (all : ∀ d, d ∈ enumeration ↔ d ∈ documents) :
    (Archive.query q).Reads c (· = q.listing enumeration) := by
  obtain ⟨ds, live, items, arranged⟩ := lists.arranged files once all
  rw [Query.listing, Query.cut_eq_fill, ← arranged]
  have visited : (Archive.itemsOf q).Reads c fun items =>
      q.isFull .zero ∧ items = [] ∨ items = ds.map fun d => (q.order.key d, q.order.value d) := by
    unfold Archive.itemsOf
    split
    · next full => exact .pure (.inl ⟨full, rfl⟩)
    · apply (ArchiveWork.Reads.scan q.range q.direction).mono
      intro found same
      exact .inr (same.trans items)
  apply visited.bind
  intro visited either
  rcases either with ⟨full, rfl⟩ | rfl
  · exact .pure (Query.fill_full full _).symm
  · exact lists.gather live .zero

end Lists

end Contents

namespace Archive.Tracks

variable [Crypto] {a : Archive} {l : Ledger} {d : Document}

theorem files (tracks : a.Tracks l) (o : Order) : a.entries.contents.Files o l.documents := by
  intro rest value
  rw [tracks.describes.records]
  exact Ledger.holds_family o

theorem ofItem (tracks : a.Tracks l) (live : d ∈ l.documents) (order : Order) :
    (Archive.ofItem order (order.value d)).Answers a fun d' a' => d' = d ∧ a'.Tracks l :=
  tracks.reading (tracks.lists.ofItem live order)

theorem query (tracks : a.Tracks l) (q : Query) {documents : List Document}
    (distinct : documents.Nodup) (all : ∀ d, d ∈ documents ↔ d ∈ l.documents) :
    (Archive.query q).Answers a fun listed a' => listed = q.listing documents ∧ a'.Tracks l :=
  tracks.reading (tracks.lists.query (tracks.files q.order) distinct all)

end Archive.Tracks

namespace Query

variable {q : Query}

theorem listing_of_unbounded (limit : q.limit = none) (maxSize : q.maxSize = none)
    (documents : List Document) : q.listing documents = q.arranged documents := by
  have affordable (ds : List Document) : q.affords ds := by
    rw [affords_iff, limit, maxSize]
    exact ⟨by rintro n ⟨⟩, by rintro front _ n ⟨⟩⟩
  rw [listing, cut, Nat.findGreatest_eq (affordable _), List.take_length]

theorem arranged_perm (q : Query) (documents : List Document) :
    (q.arranged documents).Perm (documents.filter fun d => q.Matches d) := by
  have sorted := List.mergeSort_perm (documents.filter fun d => q.Matches d)
    fun d e => (q.order.rank d e).isLE
  unfold arranged
  cases q.direction with
  | ascending => exact sorted
  | descending => exact (List.reverse_perm _).trans sorted

theorem arranged_descending (q : Query) (documents : List Document) :
    { q with direction := .descending }.arranged documents =
      ({ q with direction := .ascending }.arranged documents).reverse := by
  rw [arranged, arranged, ← filter_selects, ← filter_selects]
  rfl

theorem arranged_perm_order (q : Query) (order : Order) (documents : List Document) :
    (q.arranged documents).Perm ({ q with order := order }.arranged documents) := by
  have here := q.arranged_perm documents
  have there := { q with order := order }.arranged_perm documents
  rw [← filter_selects] at here there
  exact here.trans there.symm

end Query

section

variable [Crypto]

/-- What a query on a store comes to. -/
def Store.queried (s : Store) (t : Site) (q : Query) : Except StoreError (List Document) :=
  ((s.onArchive (Archive.query q) : SiteWork StoreError (List Document)).runOn t).1

theorem Store.Tracks.queried {s : Store} {t : Site} {l : Ledger} (apart : s.Apart)
    (tracks : s.Tracks t l) {documents : List Document} (distinct : documents.Nodup)
    (all : documents.toFinset = l.documents) (q : Query) :
    s.queried t q = .ok (q.listing documents) := by
  have member (d : Document) : d ∈ documents ↔ d ∈ l.documents := by rw [← all, List.mem_toFinset]
  rcases (Tracks.reading apart (Archive.Tracks.query tracks q distinct member)).cases with
    ⟨listed, answer, rfl, _⟩ | ⟨_, _, impossible⟩
  · exact answer
  · exact impossible.elim

/-- A query answers its listing of the documents that there are, however these are enumerated.
Descending is the reverse of ascending, and all orders list the same. -/
theorem listed_of_run {s : Store} {t u : Site} {log : List Exchange} (apart : s.Apart)
    (fresh : s.Fresh t) (run : s.Run s.Spares t log u) (few : log.length < 2 ^ 64) :
    (∀ documents : List Document, documents.Nodup → documents.toFinset = Exchange.live log →
      ∀ q, s.queried u q = .ok (q.listing documents)) ∧
    ∀ q : Query, q.limit = none → q.maxSize = none →
      s.queried u { q with direction := .descending } =
        (s.queried u { q with direction := .ascending }).map List.reverse ∧
      ∀ order, ∃ these those, s.queried u q = .ok these ∧
        s.queried u { q with order := order } = .ok those ∧ these.Perm those := by
  obtain ⟨⟨l, tracks, upkeep⟩, _⟩ := Store.upkeep_of_run apart fresh run few
  have answers (documents : List Document) (distinct : documents.Nodup)
      (all : documents.toFinset = Exchange.live log) (q : Query) :
      s.queried u q = .ok (q.listing documents) :=
    tracks.queried apart distinct (all.trans upkeep.documents.symm) q
  refine ⟨answers, fun q limit maxSize => ?_⟩
  have here := answers (Exchange.live log).toList (Finset.nodup_toList _) (Finset.toList_toFinset _)
  refine ⟨?_, fun order => ⟨_, _, here q, here { q with order := order }, ?_⟩⟩
  · rw [here, here, Query.listing_of_unbounded (by exact limit) (by exact maxSize),
      Query.listing_of_unbounded (by exact limit) (by exact maxSize), q.arranged_descending]
    rfl
  · rw [Query.listing_of_unbounded limit maxSize,
      Query.listing_of_unbounded (by exact limit) (by exact maxSize)]
    exact q.arranged_perm_order order _

end

section Sample

open Crypto.Transparent

attribute [local instance] Crypto.transparent

/-- Of three documents the query bounds off one by its path and one by its time. -/
theorem listed_of_run_bounded :
    let calls := threeWrites ++ [.set (identity 1) (below 8 1) [3] 12 false]
    let after := sample.performAll calls [] blank
    let documents := (sample.archive after.2).documents
    let bounded : Query :=
      ⟨some (path 8), some (identity 1), some 9, some 12, some 2, some 1, .timestamp, .descending⟩
    let unbounded : Query := .all .path .ascending
    (sample.Apart ∧ sample.Fresh blank ∧ sample.Run sample.Spares blank after.1 after.2 ∧
      after.1.length < 2 ^ 64 ∧ documents.Nodup ∧ documents.toFinset = Exchange.live after.1 ∧
      unbounded.limit = none ∧ unbounded.maxSize = none) ∧
    sample.queried after.2 bounded = .ok (bounded.listing documents) ∧
    (sample.queried after.2 { unbounded with direction := .descending } =
        (sample.queried after.2 { unbounded with direction := .ascending }).map List.reverse ∧
      ∀ order, ∃ these those, sample.queried after.2 unbounded = .ok these ∧
        sample.queried after.2 { unbounded with order := order } = .ok those ∧ these.Perm those) ∧
    (sample.queried after.2 bounded).toOption.map (List.map Document.path) = some [path 8] ∧
    (sample.queried after.2 unbounded).toOption.map (List.map Document.path) =
      some [path 7, path 8, below 8 1] := by
  intro calls after documents bounded unbounded
  have fresh : sample.Fresh blank := ⟨Backend.works_empty, Backend.works_empty, rfl, rfl, rfl⟩
  have run : sample.Run sample.Spares blank after.1 after.2 := Store.Run.start.performAll calls
  have few : after.1.length < 2 ^ 64 := by decide +kernel
  have distinct : documents.Nodup := by decide +kernel
  have all : documents.toFinset = Exchange.live after.1 := by decide +kernel
  obtain ⟨listed, unlimited⟩ := listed_of_run sample_apart fresh run few
  exact ⟨⟨sample_apart, fresh, run, few, distinct, all, rfl, rfl⟩,
    listed documents distinct all bounded, unlimited unbounded rfl rfl,
    by decide +kernel, by decide +kernel⟩

end Sample

end DocumentShare
