import DocumentShare.Proofs.Store.Effects
import DocumentShare.Proofs.Store.Timestamps

/-!
# Listing the documents at a path

A stream at a path ranks one timestamp at a time. `PathStream.Leaves` is what a stream has still to yield,
and a pull takes the first of it (`Archive.Tracks.stepLeaves`); so a stream that is pulled until it ends
yields what is listed (`drained_of_run`).
-/

namespace DocumentShare

open Work

/-! ### What a stream leaves -/

namespace PathStream

variable {documents : Finset Document} {path : Path} {s : PathStream} {left : List Document}

/-- What a stream at a path has still to yield. -/
inductive Leaves (documents : Finset Document) (path : Path) (s : PathStream)
    (left : List Document) : Prop
  | ended (ended : s.ended = true) (ranked : left = s.ranked)
  | scanning {last : Option Document} {ahead : List Document} (here : s.path = path)
      (unended : s.ended = false)
      (reached : ∀ scan ∈ s.scan, scan.Reached .path (Key.pathIndexAt path) .descending last)
      (fresh : s.scan = none → last = none) (tied : s.tied = last.toList)
      (behind : Archive.LeftAt documents path .descending last ahead)
      (ranked : left = s.ranked ++ Archive.rank (last.toList ++ ahead))

/-- The first of what is left is yielded, and a stream that leaves the others goes on. -/
def Yields (documents : Finset Document) (path : Path) (left : List Document)
    (o : Option (Document × PathStream)) : Prop :=
  o.map Prod.fst = left.head? ∧ ∀ x ∈ o, x.2.Leaves documents path left.tail

theorem Leaves.start {ds : List Document}
    (visited : Archive.VisitedAt documents path .descending ds) :
    Leaves documents path (start path) (Archive.rank ds) :=
  .scanning rfl rfl (fun scan none => by cases none) (fun _ => rfl) rfl (.start visited) rfl

/-- The scan goes on to the document that follows those of a timestamp. -/
theorem Leaves.follow {scan : Scan} {last : Option Document} {group rest : List Document}
    {d : Document} (unended : s.ended = false)
    (reached : scan.Reached .path (Key.pathIndexAt s.path) .descending last)
    (behind : Archive.LeftAt documents s.path .descending last (group ++ d :: rest))
    (ranked : List Document) :
    Leaves documents s.path
      { s with ranked, tied := [d], scan := some { scan with cursor := some (Order.path.key d) } }
      (ranked ++ Archive.rank (d :: rest)) := by
  have inside : (Key.pathIndexAt s.path).contains (Order.path.key d) := by
    have member : d ∈ group ++ d :: rest := List.mem_append_right group List.mem_cons_self
    exact Key.pathIndexAt_contains.mpr ((behind.mem_iff d).mp member).1.2
  refine .scanning rfl unended ?_ (fun none => by cases none) rfl behind.advance rfl
  intro scan' same
  cases same
  exact reached.move inside

theorem Leaves.yield (leaves : s.Leaves documents path left) (ready : s.ended ∨ s.ranked ≠ []) :
    Yields documents path left s.yield := by
  unfold PathStream.yield
  cases leaves with
  | ended ended same =>
    subst same
    cases s.ranked with
    | nil => exact ⟨rfl, fun x none => by cases none⟩
    | cons d ranked =>
      refine ⟨rfl, fun x same => ?_⟩
      cases same
      exact .ended ended rfl
  | scanning here unended reached fresh tied behind same =>
    subst same
    cases ranked : s.ranked with
    | nil => simp [unended, ranked] at ready
    | cons d ranked =>
      refine ⟨rfl, fun x same => ?_⟩
      cases same
      exact .scanning here unended reached fresh tied behind rfl

end PathStream

/-! ### What is read -/

namespace Archive.Tracks

variable [Crypto] {a : Archive} {l : Ledger} {s : PathStream} {path : Path} {direction : Direction}
  {last : Option Document} {ds left : List Document}

theorem itemsLeft (tracks : a.Tracks l) {scan : Scan}
    (reached : scan.Reached .path (Key.pathIndexAt path) direction last) :
    ∃ ds : List Document, scan.pending a.entries.contents = ds.map Order.path.item ∧
      LeftAt l.documents path direction last ds := by
  obtain ⟨ds, items, sorted, member⟩ := tracks.items reached (Key.covers_pathIndexAt path)
  refine ⟨ds, items, sorted, fun d => ?_⟩
  rw [member, and_assoc]
  exact and_congr_right fun _ => and_congr_left fun _ => Key.pathIndexAt_contains

theorem mapM_askDocument (tracks : a.Tracks l) (live : ∀ d ∈ ds, d ∈ l.documents) :
    ((ds.map Order.path.item).mapM fun x => Archive.askDocument .path x.2).Answers a
      fun answer a' => answer = ds ∧ a'.Tracks l := by
  induction ds generalizing a with
  | nil => exact Ends.pure ⟨rfl, tracks⟩
  | cons d ds ih =>
    obtain ⟨here, later⟩ := List.forall_mem_cons.mp live
    rw [List.map_cons, List.mapM_cons]
    apply (tracks.askDocument here .path).bind
    intro d' b ⟨same, tracks⟩
    apply (ih tracks later).bind
    intro rest c ⟨same', tracks⟩
    exact Ends.pure ⟨by rw [same, same'], tracks⟩

theorem indexedAt (tracks : a.Tracks l) (path : Path) (direction : Direction) :
    (Archive.indexedAt path direction).Answers a fun ds a' =>
      VisitedAt l.documents path direction ds ∧ a'.Tracks l := by
  have reached := Scan.Reached.start .path (Key.pathIndexAt path) direction
  obtain ⟨ds, items, left⟩ := tracks.itemsLeft reached
  have visited := left.visited
  have live : ∀ d ∈ ds, d ∈ l.documents := fun d here => ((visited.mem_iff d).mp here).1
  rw [reached.pending_eq] at items
  apply (tracks.shows.scan (Key.pathIndexAt path) direction).bind
  intro found b ⟨same, shows⟩
  rw [same]
  have tracks := shows.tracks tracks.describes tracks.sound
  have asked := tracks.mapM_askDocument live
  rw [← items] at asked
  exact asked.mono (fun _ _ ⟨same, tracks⟩ => ⟨same ▸ visited, tracks⟩) fun _ _ => id

/-- Where nothing is ranked yet, the documents of the next timestamp are ranked, and the scan goes on
to the document that follows them. -/
theorem stepLeaves (tracks : a.Tracks l) (leaves : s.Leaves l.documents path left) :
    s.step.Answers a fun o a' => PathStream.Yields l.documents path left o ∧ a'.Tracks l := by
  unfold PathStream.step
  split
  · next ready => exact Ends.pure ⟨leaves.yield (by simpa using ready), tracks⟩
  · next waiting =>
    have empty : s.ranked = [] := by simp_all
    cases leaves with
    | ended ended => simp [ended] at waiting
    | @scanning last ahead here unended reached fresh tied behind left =>
      subst here left
      apply (tracks.beginStream reached fresh).bind
      intro scan b ⟨reached, tracks⟩
      -- The contents of the moment come to what was ahead when the stream stopped.
      obtain ⟨ds, items, behind'⟩ := tracks.itemsLeft reached
      have same : ds = ahead := behind'.unique behind
      subst same
      have live : ∀ d ∈ ds, d ∈ l.documents := fun d here => ((behind.mem_iff d).mp here).1.1
      have level : ∀ d ∈ last.toList, ∀ e ∈ last.toList, d.timestamp = e.timestamp := by
        cases last <;> simp
      apply (tracks.pending scan).bind
      intro pending c ⟨same, tracks⟩
      rw [same, items, tied, empty, List.nil_append]
      apply (tracks.pullTied live level).bind
      intro (ranked, o) e ⟨tracks, group, rest, split, ranks, next, tied⟩
      dsimp only at ranks next
      rw [split, ← List.append_assoc, rank_append tied, ← ranks]
      subst next
      cases rest with
      | nil =>
        have leaves : PathStream.Leaves l.documents s.path
            { s with ranked, tied := [], ended := true } ranked := .ended rfl rfl
        rw [rank, List.splitBy_nil, List.flatMap_nil, List.append_nil]
        exact Ends.pure ⟨leaves.yield (.inl rfl), tracks⟩
      | cons d rest =>
        have some : ranked ≠ [] := by
          rw [ranks]
          exact newestFirst_ne_nil fun empty => by cases tied.whole empty
        rw [split] at behind
        have leaves := PathStream.Leaves.follow unended reached behind ranked
        exact Ends.pure ⟨leaves.yield (.inr some), tracks⟩

end Archive.Tracks

/-! ### What is listed -/

namespace Store

/-- What a store lists at a path. -/
def rankedAt (s : Store) (t : Site) (path : Path) : Except StoreError (List Document) :=
  ((s.onArchive (Archive.atPath path)).runOn t).1

variable [Crypto] {s : Store} {t u : Site} {l : Ledger} {path : Path} {left : List Document}

/-- Pulled until it ends, a stream yields a list of documents. -/
inductive Drains (s : Store) : Stream → Site → List Document → Site → Prop
  | ended {stream after : Stream} {t u : Site} (pulled : s.pull stream t = (.ok none, after, u)) :
      Drains s stream t [] u
  | yielded {stream after : Stream} {t u v : Site} {d : Document} {ds : List Document}
      (pulled : s.pull stream t = (.ok (some d), after, u)) (others : Drains s after u ds v) :
      Drains s stream t (d :: ds) v

namespace Tracks

theorem pullLeaves (apart : s.Apart) (tracks : s.Tracks t l) {stream : PathStream}
    (leaves : stream.Leaves l.documents path left) :
    ∃ o u, s.pull (.path stream) t =
        (.ok (o.map Prod.fst), (o.map fun x => .path x.2).getD .ended, u) ∧
      PathStream.Yields l.documents path left o ∧ s.Tracks u l := by
  have stepped : (Stream.path stream).step.Answers (s.archive t) fun o a =>
      (∃ yielded, PathStream.Yields l.documents path left yielded ∧
        o = yielded.map fun x => (x.1, .path x.2)) ∧ a.Tracks l := by
    apply (Archive.Tracks.stepLeaves tracks leaves).bind
    intro o b ⟨yields, tracks⟩
    exact Ends.pure ⟨⟨o, yields, rfl⟩, tracks⟩
  obtain ⟨_, u, pulled, ⟨o, yields, rfl⟩, tracks⟩ := Store.pull_of_step apart stepped
  refine ⟨o, u, ?_, yields, tracks⟩
  rw [pulled, Option.map_map, Option.map_map]
  rfl

/-- Pulled until it ends, a stream yields what is left, in order. -/
theorem drains (apart : s.Apart) (tracks : s.Tracks t l) {stream : PathStream}
    (leaves : stream.Leaves l.documents path left) : ∃ u, s.Drains (.path stream) t left u := by
  -- On what is left, of which each pull takes one document; the store stays as it is tracked.
  induction left generalizing stream t with
  | nil =>
    obtain ⟨o, u, pulled, ⟨none, _⟩, _⟩ := tracks.pullLeaves apart leaves
    rw [none] at pulled
    exact ⟨u, .ended pulled⟩
  | cons d left ih =>
    obtain ⟨o, u, pulled, ⟨first, others⟩, tracks⟩ := tracks.pullLeaves apart leaves
    obtain ⟨⟨d, after⟩, rfl, rfl⟩ := Option.map_eq_some_iff.mp first
    obtain ⟨v, drains⟩ := ih tracks (others _ rfl)
    exact ⟨v, .yielded pulled drains⟩

theorem rankedAt (apart : s.Apart) (tracks : s.Tracks t l) (path : Path) :
    ∃ ds, Archive.VisitedAt l.documents path .descending ds ∧
      s.rankedAt t path = .ok (Archive.rank ds) := by
  have listed : (Archive.atPath path).Answers (s.archive t) fun ranked a =>
      (∃ ds, Archive.VisitedAt l.documents path .descending ds ∧ ranked = Archive.rank ds) ∧
        a.Tracks l := by
    apply (Archive.Tracks.indexedAt tracks path .descending).bind
    intro ds b ⟨visited, tracks⟩
    exact Ends.pure ⟨⟨ds, visited, rfl⟩, tracks⟩
  obtain ⟨_, answer, ⟨ds, visited, rfl⟩, _⟩ := (Tracks.reading apart listed).ran
  exact ⟨ds, visited, answer⟩

end Tracks

end Store

/-- A listing at a path has each document there once and none after an older one, and a stream that
is pulled until it ends yields the same. -/
theorem drained_of_run [Crypto] {s : Store} {t u : Site} {log : List Exchange} (apart : s.Apart)
    (fresh : s.Fresh t) (run : s.Run s.Spares t log u) (few : log.length < 2 ^ 64) (path : Path) :
    ∃ ranked : List Document, s.rankedAt u path = .ok ranked ∧
      (∃ v, s.Drains (.path (.start path)) u ranked v) ∧
      (∀ d, (d ∈ ranked ↔ d ∈ s.documents u ∧ d.path = path) ∧
        (d ∈ ranked ↔ s.documentAt u d.identity path = .ok (some d))) ∧
      ranked.Nodup ∧ ranked.Pairwise fun d e => e.entry.isNewerThan d.entry = false := by
  obtain ⟨⟨l, tracks, _⟩, _⟩ := Store.upkeep_of_run apart fresh run few
  rw [tracks.documents]
  obtain ⟨ds, visited, answer⟩ := tracks.rankedAt apart path
  have perm := Archive.rank_perm ds
  have distinct : ds.Nodup := visited.sorted.imp fun precedes same => by
    subst same
    exact precedes.irrefl
  have member (d : Document) : d ∈ Archive.rank ds ↔ d ∈ l.documents ∧ d.path = path :=
    perm.mem_iff.trans (visited.mem_iff d)
  refine ⟨Archive.rank ds, answer, tracks.drains apart (.start visited), fun d => ?_, ?_, ?_⟩
  · rw [member, tracks.documentAt_iff apart]
    simp
  · exact perm.nodup_iff.mpr distinct
  · exact Archive.rank_pairwise visited.timestamps

section Sample

open Crypto.Transparent

attribute [local instance] Crypto.transparent

/-- Two identities write the same to one path at the same time. -/
def tiedWrites : List Call :=
  [.addIdentity (keypair .identity 1), .mint (share 1) (identity 1) .write true,
    .set (identity 1) (path 7) [1] 8 false, .addIdentity (keypair .identity 2),
    .mint (share 1) (identity 2) .write true, .set (identity 2) (path 7) [1] 8 false]

theorem tiedWrites_documents :
    let documents := sample.documents (sample.performAll tiedWrites [] blank).2
    ∃ d ∈ documents, ∃ e ∈ documents, (d.identity = identity 1 ∧ e.identity = identity 2) ∧
      (d.path = path 7 ∧ e.path = path 7) ∧ ∀ f ∈ documents, f = d ∨ f = e := by
  decide +kernel

/-- Documents of two identities that are equally recent are both listed. -/
theorem drained_of_run_tiedWrites :
    let after := sample.performAll tiedWrites [] blank
    (sample.Apart ∧ sample.Fresh blank ∧ sample.Run sample.Spares blank after.1 after.2 ∧
      after.1.length < 2 ^ 64) ∧
    ∃ d e ranked v, (d.identity = identity 1 ∧ e.identity = identity 2) ∧
      sample.rankedAt after.2 (path 7) = .ok ranked ∧
      sample.Drains (.path (.start (path 7))) after.2 ranked v ∧ ranked.Perm [d, e] := by
  intro after
  have fresh : sample.Fresh blank := ⟨Backend.works_empty, Backend.works_empty, rfl, rfl, rfl⟩
  have run : sample.Run sample.Spares blank after.1 after.2 := Store.Run.start.performAll tiedWrites
  have few : after.1.length < 2 ^ 64 := by decide +kernel
  obtain ⟨ranked, answer, ⟨v, drains⟩, member, distinct, _⟩ :=
    drained_of_run sample_apart fresh run few (path 7)
  obtain ⟨d, live, e, live', ⟨mine, yours⟩, ⟨here, here'⟩, only⟩ := tiedWrites_documents
  have differ : d ≠ e := by
    intro same
    rw [same, yours] at mine
    exact absurd mine (by decide +kernel)
  have perm : ranked.Perm [d, e] := by
    refine (List.perm_ext_iff_of_nodup distinct (by simpa using differ)).mpr fun f => ?_
    rw [(member f).1, List.mem_cons, List.mem_singleton]
    constructor
    · exact fun there => only f there.1
    · rintro (rfl | rfl)
      · exact ⟨live, here⟩
      · exact ⟨live', here'⟩
  exact ⟨⟨sample_apart, fresh, run, few⟩, d, e, ranked, v, ⟨mine, yours⟩, answer, drains, perm⟩

end Sample

end DocumentShare
