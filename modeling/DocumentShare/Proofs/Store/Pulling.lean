import DocumentShare.Proofs.Store.Querying
import DocumentShare.Proofs.Store.Streaming

/-!
# What a pull comes to

A scan looks for the first key behind its cursor in the contents of the moment. While the backends
work, that is the next document in the order of the scan (`Archive.Tracks.items`), and a pull goes
through these documents: of a query to the first that matches it (`Archive.Tracks.stepQuery`), and at
a path through those of one timestamp (`Archive.Tracks.pullTied`).
-/

namespace DocumentShare

open Work

/-! ### Order of visits -/

/-- How what is visited first compares with what is visited later. -/
def Direction.sign : Direction → Ordering
  | .ascending => .lt
  | .descending => .gt

namespace Order

variable {o : Order} {direction : Direction} {d e f : Document}

/-- Whether one document is visited before another. -/
def Precedes (o : Order) : Direction → Document → Document → Prop
  | .ascending, d, e => o.rank d e = .lt
  | .descending, d, e => o.rank e d = .lt

def item (o : Order) (d : Document) : Bytes × Bytes := (o.key d, o.value d)

/-- Whatever is kept in the range belongs to a document of this order. -/
def Covers (o : Order) (range : KeyRange) : Prop :=
  ∀ (l : Ledger) k v, range.contains k → l.Holds k v → ∃ d ∈ l.documents, (k, v) = o.item d

theorem rank_eq_lt_iff : o.rank d e = .lt ↔ o.key d < o.key e := by
  rw [← compare_key]
  exact Bytes.compare_eq_lt_iff

theorem precedes_iff_rank : o.Precedes direction d e ↔ o.rank d e = direction.sign := by
  cases direction with
  | ascending => rfl
  | descending =>
    show o.rank e d = .lt ↔ o.rank d e = .gt
    rw [← compare_key, ← compare_key]
    exact Std.OrientedCmp.gt_iff_lt.symm

theorem Precedes.trans (first : o.Precedes direction d e) (second : o.Precedes direction e f) :
    o.Precedes direction d f := by
  cases direction with
  | ascending =>
    have less := List.lt_trans (rank_eq_lt_iff.mp first) (rank_eq_lt_iff.mp second)
    exact rank_eq_lt_iff.mpr less
  | descending =>
    have less := List.lt_trans (rank_eq_lt_iff.mp second) (rank_eq_lt_iff.mp first)
    exact rank_eq_lt_iff.mpr less

theorem Precedes.irrefl (h : o.Precedes direction d d) : False := by
  cases direction with
  | ascending => exact List.lt_irrefl _ (rank_eq_lt_iff.mp h)
  | descending => exact List.lt_irrefl _ (rank_eq_lt_iff.mp h)

theorem pairwise_arrange {ds : List Document}
    (ascending : ds.Pairwise fun d e => o.key d < o.key e) (direction : Direction) :
    (direction.arrange ds).Pairwise (o.Precedes direction) := by
  cases direction with
  | ascending => exact ascending.imp fun less => rank_eq_lt_iff.mpr less
  | descending => exact List.pairwise_reverse.mpr (ascending.imp fun less => rank_eq_lt_iff.mpr less)

end Order

theorem Query.covers_range (q : Query) : q.order.Covers q.range := by
  intro l k v inside held
  obtain ⟨d, live, rfl, rfl⟩ := q.kind_of_range inside held
  exact ⟨d, live, rfl⟩

namespace Key

theorem covers_pathIndexAt (p : Path) : Order.path.Covers (pathIndexAt p) := by
  intro l k v inside held
  obtain ⟨rest, same⟩ := KeyRange.cons_of_startingWith inside
  cases held with
  | path live => exact ⟨_, live, rfl⟩
  | document live => cases same
  | time live => cases same
  | count counted => cases same

end Key

/-! ### Where a scan has come to -/

/-- A scan in an order that visited a document last, or none yet. -/
structure Scan.Reached (s : Scan) (o : Order) (range : KeyRange) (direction : Direction)
    (last : Option Document) : Prop where
  whole : s.range = range
  direction : s.direction = direction
  cursor : s.cursor = last.map o.key
  inside : ∀ d ∈ last, range.contains (o.key d)
  unended : s.ended = false

namespace Scan.Reached

variable {s : Scan} {o : Order} {range : KeyRange} {direction : Direction} {last : Option Document}
  {d : Document}

theorem start (o : Order) (range : KeyRange) (direction : Direction) :
    (Scan.start range direction).Reached o range direction none where
  whole := rfl
  direction := rfl
  cursor := rfl
  inside d none := by cases none
  unended := rfl

theorem move (reached : s.Reached o range direction last) (inside : range.contains (o.key d)) :
    Scan.Reached { s with cursor := some (o.key d) } o range direction (some d) where
  whole := reached.whole
  direction := reached.direction
  cursor := rfl
  inside e same := by
    cases same
    exact inside
  unended := reached.unended

theorem on (reached : s.Reached o range direction last) : s.On range where
  whole := reached.whole
  visited key same := by
    rw [reached.cursor] at same
    obtain ⟨d, found, rfl⟩ := Option.map_eq_some_iff.mp same
    exact reached.inside d found

theorem remaining_contains (reached : s.Reached o range direction last) :
    s.remaining.contains (o.key d) ↔
      range.contains (o.key d) ∧ ∀ e ∈ last, o.Precedes direction e d := by
  constructor
  · intro left
    refine ⟨reached.on.contains left, fun e same => ?_⟩
    obtain ⟨whole, forward, cursor, _, _⟩ := reached
    rw [same] at cursor
    unfold remaining at left
    rw [cursor, forward] at left
    cases direction with
    | ascending =>
      exact Order.rank_eq_lt_iff.mpr (of_decide_eq_true (Bool.and_eq_true_iff.mp left).1)
    | descending =>
      exact Order.rank_eq_lt_iff.mpr (of_decide_eq_true (Bool.and_eq_true_iff.mp left).2)
  · intro ⟨inside, ahead⟩
    obtain ⟨whole, forward, cursor, _, _⟩ := reached
    subst whole forward
    unfold remaining
    rw [cursor]
    cases last with
    | none => exact inside
    | some e =>
      obtain ⟨above, below⟩ := Bool.and_eq_true_iff.mp inside
      have passed := ahead e rfl
      dsimp only [Option.map_some]
      cases forward : s.direction with
      | ascending =>
        rw [forward] at passed
        exact Bool.and_eq_true_iff.mpr ⟨decide_eq_true (Order.rank_eq_lt_iff.mp passed), below⟩
      | descending =>
        rw [forward] at passed
        exact Bool.and_eq_true_iff.mpr ⟨above, decide_eq_true (Order.rank_eq_lt_iff.mp passed)⟩

theorem pending_eq (reached : s.Reached o range direction last) (c : Contents) :
    s.pending c = direction.arrange (c.within s.remaining) := by
  unfold Scan.pending
  rw [if_neg (by simp [reached.unended]), reached.direction]
  cases direction <;> rfl

end Scan.Reached

/-! ### Going through the items -/

/-- The document is the first of a list that matches a query. -/
structure Query.Finds (q : Query) (ds : List Document) (d : Document) : Prop where
  wanted : q.Matches d
  passed : ∃ skipped rest, ds = skipped ++ d :: rest ∧ ∀ e ∈ skipped, ¬q.Matches e

/-- What a pull of a query comes to on the documents that it goes through. -/
def Query.Yields (q : Query) (ds : List Document) : Option (Bytes × Document × Tally) → Prop
  | none => q.maxSize = none → ∀ d ∈ ds, ¬q.Matches d
  | some (key, d, _) => key = q.order.key d ∧ q.Finds ds d

/-- Documents of one timestamp, and others that begin with another timestamp. -/
structure Document.Tied (group rest : List Document) : Prop where
  level : ∀ d ∈ group, ∀ e ∈ group, d.timestamp = e.timestamp
  next : ∀ d ∈ group, ∀ e ∈ rest.head?, d.timestamp ≠ e.timestamp
  whole : group = [] → rest = []

theorem Archive.judge_cases (q : Query) (t : Tally) (d : Document) :
    Archive.judge q t d = .skip ∧ ¬q.Matches d ∨
      Archive.judge q t d = .stop ∧ q.maxSize ≠ none ∨
      (∃ t', Archive.judge q t d = .take t') ∧ q.Matches d := by
  unfold Archive.judge
  by_cases selected : q.selects d.entry
  · rw [if_neg (by simp [selected])]
    by_cases oversize : q.isOversize (t.add d.entry)
    · rw [if_pos oversize]
      refine .inr (.inl ⟨rfl, fun unbounded => ?_⟩)
      simp [Query.isOversize, unbounded] at oversize
    · rw [if_neg oversize]
      exact .inr (.inr ⟨⟨_, rfl⟩, Query.selects_iff.mp selected⟩)
  · rw [if_pos (by simp [selected])]
    exact .inl ⟨rfl, mt Query.selects_iff.mpr selected⟩

namespace Archive.Tracks

variable [Crypto] {a : Archive} {l : Ledger} {d : Document} {q : Query} {o : Order}
  {range : KeyRange} {direction : Direction} {last : Option Document} {ds : List Document}

theorem begin (tracks : a.Tracks l) :
    (onEntries Backend.beginScan).Answers a fun _ a' => a'.Tracks l := by
  have begun := tracks.shows.onEntries (Backend.does_begin (b := a.entries))
  exact begun.mono (fun _ _ h => Shows.tracks h.2 tracks.describes tracks.sound) fun _ _ => id

theorem askDocument (tracks : a.Tracks l) (live : d ∈ l.documents) (o : Order) :
    (Archive.askDocument o (o.value d)).Answers a fun d' a' => d' = d ∧ a'.Tracks l :=
  tracks.ask.bind fun _ _ tracks => tracks.ofItem live o

theorem items (tracks : a.Tracks l) {s : Scan} (reached : s.Reached o range direction last)
    (covers : o.Covers range) :
    ∃ ds : List Document, s.pending a.entries.contents = ds.map o.item ∧
      ds.Pairwise (o.Precedes direction) ∧
      ∀ d, d ∈ ds ↔ d ∈ l.documents ∧ range.contains (o.key d) ∧
        ∀ e ∈ last, o.Precedes direction e d := by
  have records (d : Document) (live : d ∈ l.documents) : l.Holds (o.key d) (o.value d) := by
    cases o with
    | path => exact .path live
    | timestamp => exact .time live
    | identity => exact .document live
  have kind (k v : Bytes) (left : s.remaining.contains k) (held : l.Holds k v) :
      ∃ d ∈ l.documents, k = o.key d ∧ v = o.value d := by
    obtain ⟨d, live, same⟩ := covers l k v (reached.on.contains left) held
    exact ⟨d, live, Prod.mk.inj same⟩
  obtain ⟨ds, items, ascending, member⟩ :=
    tracks.listed s.remaining records kind fun _ _ => Order.key_inj
  refine ⟨direction.arrange ds, ?_, Order.pairwise_arrange ascending direction, ?_⟩
  · rw [reached.pending_eq, items, Direction.arrange_map]
    rfl
  · intro d
    rw [Direction.mem_arrange, member, reached.remaining_contains]

theorem pending (tracks : a.Tracks l) (s : Scan) :
    (Archive.pending s).Answers a fun items a' =>
      items = s.pending a.entries.contents ∧ a'.Tracks l :=
  ⟨rfl, tracks⟩

theorem pull (tracks : a.Tracks l) (live : ∀ d ∈ ds, d ∈ l.documents) (t : Tally) :
    (Archive.pull q t (ds.map q.order.item)).Answers a fun o a' => a'.Tracks l ∧ q.Yields ds o := by
  induction ds generalizing a with
  | nil =>
    refine Ends.pure ⟨tracks, ?_⟩
    intro _ d none
    cases none
  | cons d ds ih =>
    obtain ⟨here, rest⟩ := List.forall_mem_cons.mp live
    apply (tracks.askDocument here q.order).bind
    intro d' b found
    obtain ⟨rfl, tracks⟩ := found
    rcases judge_cases q t d' with
      ⟨verdict, unwanted⟩ | ⟨verdict, bounded⟩ | ⟨⟨t', verdict⟩, wanted⟩
    · rw [verdict]
      refine (ih tracks rest).mono ?_ fun _ _ => id
      intro o c ⟨tracks, yields⟩
      refine ⟨tracks, ?_⟩
      cases o with
      | none =>
        intro unbounded
        exact List.forall_mem_cons.mpr ⟨unwanted, yields unbounded⟩
      | some x =>
        obtain ⟨key, wanted, skipped, later, rfl, others⟩ := yields
        refine ⟨key, wanted, d' :: skipped, later, rfl, ?_⟩
        exact List.forall_mem_cons.mpr ⟨unwanted, others⟩
    · rw [verdict]
      exact Ends.pure ⟨tracks, fun unbounded => absurd unbounded bounded⟩
    · rw [verdict]
      refine Ends.pure ⟨tracks, rfl, wanted, [], ds, rfl, ?_⟩
      intro e none
      cases none

theorem pullTied (tracks : a.Tracks l) (live : ∀ d ∈ ds, d ∈ l.documents) {tied : List Document}
    (level : ∀ d ∈ tied, ∀ e ∈ tied, d.timestamp = e.timestamp) :
    (Archive.pullTied tied (ds.map Order.path.item)).Answers a fun x a' => a'.Tracks l ∧
      ∃ group rest, ds = group ++ rest ∧ x.1 = newestFirst (tied ++ group) ∧
        x.2 = (rest.head?.map fun d => (Order.path.key d, d)) ∧
        Document.Tied (tied ++ group) rest := by
  induction ds generalizing a tied with
  | nil =>
    rw [List.map_nil, Archive.pullTied]
    refine Ends.pure ⟨tracks, [], [], rfl, by rw [List.append_nil], rfl, ?_⟩
    rw [List.append_nil]
    exact ⟨level, fun d _ e none => (by cases none), fun _ => rfl⟩
  | cons d ds ih =>
    obtain ⟨here, later⟩ := List.forall_mem_cons.mp live
    apply (tracks.askDocument here .path).bind
    intro d' b found
    obtain ⟨rfl, tracks⟩ := found
    split
    · next same =>
      have same : ∀ e ∈ tied, e.timestamp = d'.timestamp := by simpa using same
      have level' : ∀ e ∈ tied ++ [d'], ∀ f ∈ tied ++ [d'], e.timestamp = f.timestamp := by
        have all : ∀ e ∈ tied ++ [d'], e.timestamp = d'.timestamp := by
          simpa [or_imp, forall_and] using same
        intro e member f member'
        exact (all e member).trans (all f member').symm
      refine (ih tracks later level').mono ?_ fun _ _ => id
      intro x c ⟨tracks, group, rest, split, ranked, next, apart⟩
      rw [List.append_assoc] at ranked apart
      exact ⟨tracks, d' :: group, rest, congrArg (d' :: ·) split, ranked, next, apart⟩
    · next differs =>
      refine Ends.pure ⟨tracks, [], d' :: ds, rfl, by rw [List.append_nil], rfl, ?_⟩
      rw [List.append_nil]
      refine ⟨level, ?_, ?_⟩
      · intro e member f head same
        cases head
        refine differs (List.all_eq_true.mpr fun g member' => decide_eq_true ?_)
        exact (level g member' e member).trans same
      · intro empty
        subst empty
        exact absurd rfl differs

end Archive.Tracks

/-! ### Streams -/

/-- A document that a query has still to come to. -/
def Query.Ahead (q : Query) (last : Option Document) (d : Document) : Prop :=
  ∀ e ∈ last, q.order.Precedes q.direction e d

/-- A stream of a query that yielded a document last, or none yet. -/
structure QueryStream.Reached (s : QueryStream) (q : Query) (last : Option Document) : Prop where
  query : s.query = q
  unended : s.ended = false
  scan : ∀ scan ∈ s.scan, scan.Reached q.order q.range q.direction last
  fresh : s.scan = none → last = none

theorem QueryStream.Reached.start (q : Query) : (QueryStream.start q).Reached q none where
  query := rfl
  unended := rfl
  scan _ none := by cases none
  fresh _ := rfl

/-- What a pull comes to: the next document that matches the query, if it may yield one more. -/
def Query.Next (q : Query) (documents : Finset Document) (last : Option Document) :
    Option (Document × QueryStream) → Prop
  | none => q.limit = none → q.maxSize = none →
      ∀ d ∈ documents, q.Matches d → ¬q.Ahead last d
  | some (d, s) => (d ∈ documents ∧ q.Matches d ∧ q.Ahead last d) ∧ s.Reached q (some d) ∧
      ∀ e ∈ documents, q.Matches e → q.Ahead last e → e = d ∨ q.Ahead (some d) e

theorem Query.Finds.next {q : Query} {ds : List Document} {d e : Document} (finds : q.Finds ds d)
    (sorted : ds.Pairwise (q.order.Precedes q.direction)) (member : e ∈ ds)
    (wanted : q.Matches e) : e = d ∨ q.Ahead (some d) e := by
  obtain ⟨_, skipped, rest, rfl, others⟩ := finds
  rcases List.mem_append.mp member with before | same | ⟨_, later⟩
  · exact absurd wanted (others e before)
  · exact .inl rfl
  · refine .inr fun f same => ?_
    cases same
    exact (List.pairwise_cons.mp (List.pairwise_append.mp sorted).2.1).1 e later

namespace Archive.Tracks

variable [Crypto] {a : Archive} {l : Ledger} {q : Query} {last : Option Document}

theorem beginStream (tracks : a.Tracks l) {scan : Option Scan} {o : Order} {range : KeyRange}
    {direction : Direction} (reached : ∀ s ∈ scan, s.Reached o range direction last)
    (fresh : scan = none → last = none) :
    (Archive.beginStream scan range direction).Answers a fun s a' =>
      s.Reached o range direction last ∧ a'.Tracks l := by
  cases scan with
  | none =>
    rw [fresh rfl]
    exact tracks.begin.bind fun _ _ tracks => Ends.pure ⟨.start o range direction, tracks⟩
  | some s => exact Ends.pure ⟨reached s rfl, tracks⟩

theorem stepQuery (tracks : a.Tracks l) {s : QueryStream} (reached : s.Reached q last) :
    s.step.Answers a fun o a' => q.Next l.documents last o ∧ a'.Tracks l := by
  obtain ⟨rfl, unended, at_, fresh⟩ := reached
  unfold QueryStream.step
  split
  · next stopped =>
    have full : s.query.isFull s.tally := by simpa [unended] using stopped
    refine Ends.pure ⟨fun unlimited => ?_, tracks⟩
    simp [Query.isFull, unlimited] at full
  · apply (tracks.beginStream at_ fresh).bind
    intro scan b ⟨reached, tracks⟩
    obtain ⟨ds, items, sorted, member⟩ := tracks.items reached s.query.covers_range
    have live : ∀ d ∈ ds, d ∈ l.documents := fun d here => ((member d).mp here).1
    apply (tracks.pending scan).bind
    intro visited c ⟨same, tracks⟩
    rw [same, items]
    apply (tracks.pull live s.tally).bind
    intro o e ⟨tracks, yields⟩
    have pending {d : Document} (live : d ∈ l.documents) (wanted : s.query.Matches d)
        (ahead : s.query.Ahead last d) : d ∈ ds :=
      (member d).mpr ⟨live, Query.range_contains_key wanted, ahead⟩
    cases o with
    | none =>
      refine Ends.pure ⟨fun _ unbounded d live wanted ahead => ?_, tracks⟩
      exact yields unbounded d (pending live wanted ahead) wanted
    | some x =>
      obtain ⟨key, d, tally⟩ := x
      obtain ⟨rfl, finds⟩ := yields
      have here : d ∈ ds := by
        obtain ⟨skipped, rest, split, _⟩ := finds.passed
        rw [split]
        exact List.mem_append_right _ List.mem_cons_self
      obtain ⟨live, inside, ahead⟩ := (member d).mp here
      refine Ends.pure ⟨⟨⟨live, finds.wanted, ahead⟩, ?_, ?_⟩, tracks⟩
      · refine ⟨rfl, unended, fun scan' same => ?_, fun none => by cases none⟩
        cases same
        exact reached.move inside
      · intro e live wanted ahead
        exact finds.next sorted (pending live wanted ahead) wanted

end Archive.Tracks

theorem Stream.next_answers {s : Stream} {a : Archive}
    {good : Option (Document × Stream) → Archive → Prop} (h : s.step.Answers a good) :
    Stream.next.Answers (s, a) fun o p =>
      ∃ step, good step p.2 ∧ o = step.map Prod.fst ∧ p.1 = (step.map Prod.snd).getD .ended := by
  apply Ends.ofStep
  unfold Answers Ends at h
  dsimp only
  rcases ran : s.step.runOn a with ⟨e | o, b⟩
  · rw [ran] at h
    exact h.elim
  · rw [ran] at h
    cases o with
    | none => exact ⟨none, h, rfl, rfl⟩
    | some x => exact ⟨some x, h, rfl, rfl⟩

namespace Store

/-- What pulling a stream of the store yields, the stream afterwards, and the site. -/
def pull (s : Store) (stream : Stream) (t : Site) :
    Except StoreError (Option Document) × Stream × Site :=
  match (s.onArchive (Stream.next.carrying stream : ArchiveWork _)).runOn t with
  | (.ok (answer, stream), u) => (answer, stream, u)
  | (.error e, u) => (.error e, stream, u)

theorem pull_of_step [Crypto] {s : Store} {t : Site} {l : Ledger} (apart : s.Apart)
    {stream : Stream} {good : Option (Document × Stream) → Prop}
    (h : stream.step.Answers (s.archive t) fun o a => good o ∧ a.Tracks l) :
    ∃ o u, s.pull stream t = (.ok (o.map Prod.fst), (o.map Prod.snd).getD .ended, u) ∧ good o ∧
      s.Tracks u l := by
  have next := Stream.next_answers h
  have carried : (Stream.next.carrying stream : ArchiveWork _).Answers (s.archive t) fun x a =>
      ∃ o, (good o ∧ a.Tracks l) ∧
        x = (.ok (o.map Prod.fst), (o.map Prod.snd).getD .ended) := by
    refine Ends.carrying (next.mono ?_ fun _ _ => False.elim)
    intro answer p ⟨o, held, same, after⟩
    exact ⟨o, held, by rw [same, after]⟩
  unfold Store.pull
  have ends := ends_onArchive apart carried
  unfold Answers Ends at ends
  rcases ran : (s.onArchive (Stream.next.carrying stream : ArchiveWork _)).runOn t with ⟨e | x, u⟩
  · rw [ran] at ends
    exact ends.elim
  · rw [ran] at ends
    obtain ⟨o, ⟨held, tracks⟩, rfl⟩ := ends
    exact ⟨o, u, rfl, held, tracks⟩

end Store

end DocumentShare
