import DocumentShare.Proofs.Storage.Scanning
import DocumentShare.Store.Stream

/-!
# Pulling streams

A stream that is pulled again and again stays in the range that it was opened on, whatever the archive
holds from pull to pull (`Stream.Opened.aligned`). `Archive.Pulls` says what may be relied on for the
items of a range, and `Archive.Pulling` for all that streams visit; pulls uphold it
(`Archive.Pulling.next`).
-/

namespace DocumentShare

open Work

namespace Stream

/-- The scan of the stream, if it has begun, is on what the stream was opened on. -/
def Aligned : Stream → Prop
  | query s => ∀ scan ∈ s.scan, scan.On s.query.range
  | path s => ∀ scan ∈ s.scan, scan.On (Key.pathIndexAt s.path)
  | ended => True

/-- A stream as it comes from a query or a path by pulls, each from an archive of its own. -/
inductive Opened : Stream → Prop
  | query (q : Query) : Opened (.query (.start q))
  | path (p : Path) : Opened (.path (.start p))
  | pulled {s : Stream} (opened : Opened s) (a : Archive) : Opened (next.runOn (s, a)).2.1

end Stream

namespace Archive

variable {inv : Archive → Prop} {allowed : StoreError → Prop} {range : KeyRange} {order : Order}

/-- What streams over a range rely on: to begin a scan and to read the items. -/
structure Pulls (inv : Archive → Prop) (allowed : StoreError → Prop) (range : KeyRange)
    (order : Order) : Prop where
  begins : (onEntries Backend.beginScan).Upholds inv allowed fun _ => True
  items : ∀ a key value, inv a → a.entries.contents.get? key = some value → range.contains key →
    (askDocument order value).Upholds inv allowed fun _ => True

namespace Pulls

theorem beginStream (pulls : Pulls inv allowed range order) {scan : Option Scan}
    (on : ∀ s ∈ scan, s.On range) (direction : Direction) :
    (Archive.beginStream scan range direction).Upholds inv allowed fun s => s.On range := by
  cases scan with
  | none => exact pulls.begins.next fun _ => .pure (Scan.on_start range direction)
  | some s => exact .pure (on s rfl)

theorem pending (pulls : Pulls inv allowed range order) {s : Scan} (on : s.On range) :
    (Archive.pending s).Upholds inv allowed fun items => ∀ x ∈ items, range.contains x.1 ∧
      (askDocument order x.2).Upholds inv allowed fun _ => True := by
  intro a held
  have reads : ∀ x ∈ s.pending a.entries.contents, range.contains x.1 ∧
      (askDocument order x.2).Upholds inv allowed fun _ => True := by
    intro x member
    obtain ⟨stored, inside⟩ := on.mem_pending member
    exact ⟨inside, pulls.items a x.1 x.2 held stored inside⟩
  exact ⟨reads, held⟩

theorem pull {q : Query} {items : List (Bytes × Bytes)}
    (reads : ∀ x ∈ items, range.contains x.1 ∧
      (askDocument q.order x.2).Upholds inv allowed fun _ => True) (t : Tally) :
    (Archive.pull q t items).Upholds inv allowed fun o => ∀ x ∈ o, range.contains x.1 := by
  induction items with
  | nil => exact .pure fun x none => by cases none
  | cons x rest ih =>
    obtain ⟨⟨inside, here⟩, later⟩ := List.forall_mem_cons.mp reads
    apply here.next
    intro d
    split
    · exact ih later
    · exact .pure fun x none => by cases none
    · apply Upholds.pure
      intro y same
      cases same
      exact inside

theorem pullTied {items : List (Bytes × Bytes)}
    (reads : ∀ x ∈ items, range.contains x.1 ∧
      (askDocument .path x.2).Upholds inv allowed fun _ => True) (tied : List Document) :
    (Archive.pullTied tied items).Upholds inv allowed fun o => ∀ x ∈ o.2, range.contains x.1 := by
  induction items generalizing tied with
  | nil => exact .pure fun x none => by cases none
  | cons x rest ih =>
    obtain ⟨⟨inside, here⟩, later⟩ := List.forall_mem_cons.mp reads
    apply here.next
    intro d
    split
    · exact ih later _
    · apply Upholds.pure
      intro y same
      cases same
      exact inside

end Pulls

/-- What streams rely on, of queries and at paths. -/
structure Pulling (inv : Archive → Prop) (allowed : StoreError → Prop) : Prop where
  query : ∀ q : Query, Pulls inv allowed q.range q.order
  path : ∀ p : Path, Pulls inv allowed (Key.pathIndexAt p) .path

namespace Pulling

variable (pulling : Pulling inv allowed)

theorem any : Pulling (fun _ => True) fun _ => True := by
  have anything {α : Type} (w : ArchiveWork α) :
      w.Upholds (fun _ => True) (fun _ => True) fun _ => True := by
    intro a _
    exact (Ends.any w a).mono (by simp) (by simp)
  have pulls (range : KeyRange) (order : Order) :
      Pulls (fun _ => True) (fun _ => True) range order :=
    ⟨anything _, fun _ _ _ _ _ _ => anything _⟩
  exact ⟨fun q => pulls q.range q.order, fun p => pulls (Key.pathIndexAt p) .path⟩

include pulling

theorem stepQuery {s : QueryStream} (aligned : (Stream.query s).Aligned) :
    s.step.Upholds inv allowed fun o => ∀ x ∈ o, (Stream.query x.2).Aligned := by
  have pulls := pulling.query s.query
  unfold QueryStream.step
  split
  · exact .pure fun x none => by cases none
  · apply (pulls.beginStream aligned _).bind
    intro scan on
    apply (pulls.pending on).bind
    intro items reads
    apply (Pulls.pull reads s.tally).bind
    intro o inside
    cases o with
    | none => exact .pure fun x none => by cases none
    | some x =>
      apply Upholds.pure
      intro y same
      cases same
      intro scan' moved
      cases moved
      exact on.move (inside x rfl)

theorem stepPath {s : PathStream} (aligned : (Stream.path s).Aligned) :
    s.step.Upholds inv allowed fun o => ∀ x ∈ o, (Stream.path x.2).Aligned := by
  have pulls := pulling.path s.path
  have yielded {s : PathStream} (aligned : (Stream.path s).Aligned) :
      ∀ x ∈ s.yield, (Stream.path x.2).Aligned := by
    intro x same
    unfold PathStream.yield at same
    split at same
    · cases same
    · cases same
      exact aligned
  unfold PathStream.step
  split
  · exact .pure (yielded aligned)
  · apply (pulls.beginStream aligned _).bind
    intro scan on
    apply (pulls.pending on).bind
    intro items reads
    apply (Pulls.pullTied reads s.tied).bind
    intro (ranked, o) inside
    cases o with
    | none => exact .pure (yielded aligned)
    | some x =>
      apply Upholds.pure
      apply yielded
      intro scan' moved
      cases moved
      exact on.move (inside x rfl)

theorem step {s : Stream} (aligned : s.Aligned) :
    s.step.Upholds inv allowed fun o => ∀ x ∈ o, x.2.Aligned := by
  cases s with
  | query s =>
    apply (pulling.stepQuery aligned).bind
    intro o here
    apply Upholds.pure
    intro x same
    obtain ⟨y, found, rfl⟩ := Option.map_eq_some_iff.mp same
    exact here y found
  | path s =>
    apply (pulling.stepPath aligned).bind
    intro o here
    apply Upholds.pure
    intro x same
    obtain ⟨y, found, rfl⟩ := Option.map_eq_some_iff.mp same
    exact here y found
  | ended => exact .pure fun x none => by cases none

theorem next : Stream.next.Upholds (fun p => p.1.Aligned ∧ inv p.2) allowed fun _ => True := by
  rintro ⟨s, a⟩ ⟨aligned, held⟩
  apply Ends.ofStep
  have done := pulling.step aligned a held
  unfold Ends at done
  dsimp only
  rcases ran : s.step.runOn a with ⟨e | o, b⟩
  · rw [ran] at done
    exact ⟨done.1, trivial, done.2⟩
  · rw [ran] at done
    cases o with
    | none => exact ⟨trivial, trivial, done.2⟩
    | some x => exact ⟨trivial, done.1 x rfl, done.2⟩

end Pulling

end Archive

theorem Stream.Opened.aligned {s : Stream} (opened : s.Opened) : s.Aligned := by
  induction opened with
  | query q => exact fun scan none => by cases none
  | path p => exact fun scan none => by cases none
  | pulled opened a ih => exact (Archive.Pulling.any.next.keeps.after ⟨ih, trivial⟩).1

end DocumentShare
