import DocumentShare.Proofs.Store.Effects
import DocumentShare.Proofs.Store.Pulling

/-!
# Browsing while others write

A stream of a query sees what is written between two pulls. `Store.Browse` is a run of calls on the
store with pulls of one stream in between, and `Store.Browsing` is what every step preserves: what was
yielded is in order, and each document that was there at every pull so far was yielded or is still
ahead. A pull moves the stream past one document that matches, so nothing is missed
(`browsed_of_run`).
-/

namespace DocumentShare

open Work

/-- A pull of a stream: the site that it saw, and what it came to. -/
structure Sight where
  site : Site
  answer : Except StoreError (Option Document)

namespace Sight

def yielded? (x : Sight) : Option Document := x.answer.toOption.join

/-- What was yielded, the last first. -/
def yielded (sights : List Sight) : List Document := sights.filterMap yielded?

end Sight

namespace Store

variable {s : Store} {q : Query} {sights : List Sight} {stream : Stream} {d e : Document} {x : Sight}

/-- The document was there at every pull. -/
def Stayed (s : Store) (sights : List Sight) (d : Document) : Prop :=
  ∀ x ∈ sights, d ∈ s.documents x.site

/-- A pull answered, and what it yielded matches and was what the store had in its place. -/
structure Sees (s : Store) (q : Query) (x : Sight) : Prop where
  answers : ∃ o, x.answer = .ok o
  wanted : ∀ d ∈ x.yielded?, q.Matches d
  live : ∀ d ∈ x.yielded?, d ∈ s.documents x.site
  placed : ∀ d ∈ x.yielded?, s.documentAt x.site d.identity d.path = .ok (some d)

/-- What a stream still has to come to. -/
inductive Ahead (s : Store) (q : Query) (sights : List Sight) : Stream → Prop
  | reached {stream : QueryStream} (reached : stream.Reached q (Sight.yielded sights).head?)
      (open_ : ∀ x ∈ sights, x.answer ≠ .ok none)
      (left : ∀ d, q.Matches d → s.Stayed sights d →
        d ∈ Sight.yielded sights ∨ q.Ahead (Sight.yielded sights).head? d) :
      Ahead s q sights (.query stream)
  | ended (all : q.limit = none → q.maxSize = none → ∀ d, q.Matches d → s.Stayed sights d →
        d ∈ Sight.yielded sights) :
      Ahead s q sights .ended

/-- What holds of the pulls of a stream and of the stream afterwards. -/
structure Browsing (s : Store) (q : Query) (sights : List Sight) (stream : Stream) : Prop where
  sees : ∀ x ∈ sights, s.Sees q x
  sorted : (Sight.yielded sights).Pairwise fun d e => q.order.Precedes q.direction e d
  ahead : s.Ahead q sights stream

theorem Browsing.start (s : Store) (q : Query) : s.Browsing q [] (.query (.start q)) where
  sees x none := by cases none
  sorted := List.Pairwise.nil
  ahead := by
    refine .reached (.start q) (fun x none => by cases none) fun d _ _ => .inr ?_
    intro e none
    cases none

theorem Stayed.tail (stayed : s.Stayed (x :: sights) d) : s.Stayed sights d :=
  fun y member => stayed y (List.mem_cons_of_mem x member)

theorem Stayed.head (stayed : s.Stayed (x :: sights) d) : d ∈ s.documents x.site :=
  stayed x List.mem_cons_self

/-- What comes after the last document that was yielded comes after all of them. -/
theorem Browsing.precedes (browsing : s.Browsing q sights stream)
    (ahead : q.Ahead (Sight.yielded sights).head? d) (member : e ∈ Sight.yielded sights) :
    q.order.Precedes q.direction e d := by
  have sorted := browsing.sorted
  cases yielded : Sight.yielded sights with
  | nil =>
    rw [yielded] at member
    cases member
  | cons f earlier =>
    rw [yielded] at member sorted ahead
    have last : q.order.Precedes q.direction f d := ahead f rfl
    rcases List.mem_cons.mp member with same | before
    · exact same ▸ last
    · exact ((List.pairwise_cons.mp sorted).1 e before).trans last

variable [Crypto] {t u : Site} {log : List Exchange}

/-- Calls on a store, what happens aside, and pulls of a stream of a query that was opened on the
way, calls and pulls the last first. -/
inductive Browse (s : Store) (q : Query) (t : Site) :
    List Exchange → List Sight → Stream → Site → Prop
  | opened {log : List Exchange} {u : Site} (run : s.Run s.Spares t log u) :
      Browse s q t log [] (.query (.start q)) u
  | call {log : List Exchange} {sights : List Sight} {stream : Stream} {u : Site}
      (browse : Browse s q t log sights stream u) (c : Call) :
      Browse s q t (⟨c, ((s.perform c).runOn u).1⟩ :: log) sights stream ((s.perform c).runOn u).2
  | aside {log : List Exchange} {sights : List Sight} {stream : Stream} {u v : Site}
      (browse : Browse s q t log sights stream u) (besides : s.Spares u v) :
      Browse s q t log sights stream v
  | pull {log : List Exchange} {sights : List Sight} {stream : Stream} {u : Site}
      (browse : Browse s q t log sights stream u) :
      Browse s q t log (⟨u, (s.pull stream u).1⟩ :: sights) (s.pull stream u).2.1
        (s.pull stream u).2.2

theorem Tracks.sees {l : Ledger} (apart : s.Apart) (tracks : s.Tracks u l) {o : Option Document}
    (wanted : ∀ d ∈ o, d ∈ l.documents ∧ q.Matches d) : s.Sees q ⟨u, .ok o⟩ where
  answers := ⟨o, rfl⟩
  wanted d yielded := (wanted d yielded).2
  live d yielded := by
    rw [tracks.documents]
    exact (wanted d yielded).1
  placed d yielded := (tracks.documentAt_iff apart).mpr ⟨(wanted d yielded).1, rfl, rfl⟩

theorem Browsing.yield {l : Ledger} (browsing : s.Browsing q sights stream) (apart : s.Apart)
    (tracks : s.Tracks u l) {after : QueryStream}
    (open_ : ∀ x ∈ sights, x.answer ≠ .ok none)
    (left : ∀ d, q.Matches d → s.Stayed sights d →
      d ∈ Sight.yielded sights ∨ q.Ahead (Sight.yielded sights).head? d)
    (next : q.Next l.documents (Sight.yielded sights).head? (some (d, after))) :
    s.Browsing q (⟨u, .ok (some d)⟩ :: sights) (.query after) := by
  obtain ⟨⟨live, wanted, ahead⟩, reached, rest⟩ := next
  have yielded : Sight.yielded (⟨u, .ok (some d)⟩ :: sights) = d :: Sight.yielded sights := rfl
  refine ⟨List.forall_mem_cons.mpr ⟨?_, browsing.sees⟩, ?_, ?_⟩
  · refine tracks.sees apart fun e same => ?_
    cases same
    exact ⟨live, wanted⟩
  · rw [yielded, List.pairwise_cons]
    exact ⟨fun e member => browsing.precedes ahead member, browsing.sorted⟩
  · refine .reached reached (List.forall_mem_cons.mpr ⟨by simp, open_⟩) fun e wanted stayed => ?_
    have there : e ∈ l.documents := tracks.documents ▸ stayed.head
    rw [yielded, List.mem_cons]
    rcases left e wanted stayed.tail with before | coming
    · exact .inl (.inr before)
    · rcases rest e there wanted coming with same | later
      · exact .inl (.inl same)
      · exact .inr later

/-- A pull that yields nothing ends the stream, and nothing that it could have yielded is left. -/
theorem Browsing.finish {l : Ledger} (browsing : s.Browsing q sights stream) (apart : s.Apart)
    (tracks : s.Tracks u l)
    (all : q.limit = none → q.maxSize = none → ∀ d ∈ l.documents, q.Matches d →
      s.Stayed sights d → d ∈ Sight.yielded sights) :
    s.Browsing q (⟨u, .ok none⟩ :: sights) .ended := by
  refine ⟨List.forall_mem_cons.mpr ⟨?_, browsing.sees⟩, browsing.sorted, .ended ?_⟩
  · refine tracks.sees apart fun e none => ?_
    cases none
  · intro limit maxSize d wanted stayed
    have there : d ∈ l.documents := tracks.documents ▸ stayed.head
    exact all limit maxSize d there wanted stayed.tail

/-- A pull preserves what holds of those before, and reads only. -/
theorem Browsing.pull {l : Ledger} (browsing : s.Browsing q sights stream) (apart : s.Apart)
    (tracks : s.Tracks u l) :
    s.Browsing q (⟨u, (s.pull stream u).1⟩ :: sights) (s.pull stream u).2.1 ∧
      s.Tracks (s.pull stream u).2.2 l := by
  cases browsing.ahead with
  | @reached after reached open_ left =>
    have stepped : (Stream.query after).step.Answers (s.archive u) fun o a =>
        (∃ next, q.Next l.documents (Sight.yielded sights).head? next ∧
          o = next.map fun x => (x.1, .query x.2)) ∧ a.Tracks l := by
      apply (Archive.Tracks.stepQuery tracks reached).bind
      intro o a ⟨next, tracks⟩
      exact Ends.pure ⟨⟨o, next, rfl⟩, tracks⟩
    obtain ⟨_, v, pulled, ⟨o, next, rfl⟩, tracks'⟩ := Store.pull_of_step apart stepped
    rw [pulled]
    refine ⟨?_, tracks'⟩
    cases o with
    | some x => exact browsing.yield apart tracks open_ left next
    | none =>
      refine browsing.finish apart tracks fun limit maxSize d there wanted stayed => ?_
      exact (left d wanted stayed).resolve_right (next limit maxSize d there wanted)
  | ended all =>
    have stepped : Stream.ended.step.Answers (s.archive u) fun o a => o = none ∧ a.Tracks l :=
      Ends.pure ⟨rfl, tracks⟩
    obtain ⟨_, v, pulled, rfl, tracks'⟩ := Store.pull_of_step apart stepped
    rw [pulled]
    refine ⟨?_, tracks'⟩
    exact browsing.finish apart tracks fun limit maxSize d _ => all limit maxSize d

theorem browsing_of_browse (apart : s.Apart) (fresh : s.Fresh t)
    (browse : s.Browse q t log sights stream u) (few : log.length < 256 ^ 8) :
    s.Browsing q sights stream ∧ ∃ l, s.Tracks u l ∧ l.Upkeep log := by
  induction browse with
  | opened run => exact ⟨.start s q, (Store.upkeep_of_run apart fresh run few).1⟩
  | call browse c ih =>
    rw [List.length_cons] at few
    obtain ⟨browsing, l, tracks, upkeep⟩ := ih (by omega)
    exact ⟨browsing, (tracks.upkeep_call apart upkeep few c).1⟩
  | aside browse besides ih =>
    obtain ⟨browsing, l, tracks, upkeep⟩ := ih few
    exact ⟨browsing, _, besides.tracks tracks, upkeep.retold _⟩
  | pull browse ih =>
    obtain ⟨browsing, l, tracks, upkeep⟩ := ih few
    obtain ⟨browsing', tracks'⟩ := browsing.pull apart tracks
    exact ⟨browsing', l, tracks', upkeep⟩

end Store

/-- Pulls of a stream answer documents that match and are there, strictly in order, while the store
is written. At its end each document that stayed was yielded exactly once. -/
theorem browsed_of_run [Crypto] {s : Store} {q : Query} {t u : Site} {log : List Exchange}
    {sights : List Sight} {stream : Stream} (apart : s.Apart) (fresh : s.Fresh t)
    (browse : s.Browse q t log sights stream u) (few : log.length < 2 ^ 64) :
    (∀ x ∈ sights, ∃ o, x.answer = .ok o ∧ ∀ d ∈ o, q.Matches d ∧ d ∈ s.documents x.site ∧
      s.documentAt x.site d.identity d.path = .ok (some d)) ∧
    (Sight.yielded sights).reverse.Pairwise (q.order.Precedes q.direction) ∧
    (q.limit = none → q.maxSize = none → (∃ x ∈ sights, x.answer = .ok none) →
      ∀ d, q.Matches d → (∀ x ∈ sights, d ∈ s.documents x.site) →
        (Sight.yielded sights).count d = 1) := by
  obtain ⟨browsing, _⟩ := Store.browsing_of_browse apart fresh browse few
  refine ⟨fun x member => ?_, List.pairwise_reverse.mpr browsing.sorted, ?_⟩
  · obtain ⟨⟨o, answer⟩, wanted, live, placed⟩ := browsing.sees x member
    have yielded (d : Document) (here : d ∈ o) : d ∈ x.yielded? := by
      rw [Sight.yielded?, answer]
      cases here
      rfl
    exact ⟨o, answer, fun d here => ⟨wanted d (yielded d here), live d (yielded d here),
      placed d (yielded d here)⟩⟩
  · intro limit maxSize ⟨x, member, ended⟩ d wanted stayed
    have distinct : (Sight.yielded sights).Nodup := by
      refine browsing.sorted.imp fun precedes same => ?_
      subst same
      exact precedes.irrefl
    refine List.count_eq_one_of_mem distinct ?_
    cases browsing.ahead with
    | reached _ open_ _ => exact absurd ended (open_ x member)
    | ended all => exact all limit maxSize d wanted stayed

section Sample

open Crypto.Transparent

attribute [local instance] Crypto.transparent

/-- Between two pulls documents are written below the path, behind the stream, ahead of it, and at a
time that the query bounds off. -/
theorem browsed_of_run_writes_between :
    let after := sample.performAll (threeWrites ++ [.set (identity 1) (below 8 2) [3] 10 false]) [] blank
    let q : Query := { Query.all .path .ascending with path := some (path 8), stop := some 12 }
    ∃ log sights stream u, (sample.Apart ∧ sample.Fresh blank ∧
        sample.Browse q blank log sights stream u ∧ log.length < 2 ^ 64 ∧
        q.limit = none ∧ q.maxSize = none ∧ ∃ x ∈ sights, x.answer = .ok none) ∧
      (Sight.yielded sights).map Document.path = [below 8 3, below 8 2, path 8] ∧
      ∃ d ∈ sample.documents after.2, (d.path = path 8 ∧ q.Matches d ∧
        ∀ x ∈ sights, d ∈ sample.documents x.site) ∧ (Sight.yielded sights).count d = 1 := by
  intro after q
  have fresh : sample.Fresh blank := ⟨Backend.works_empty, Backend.works_empty, rfl, rfl, rfl⟩
  have run : sample.Run sample.Spares blank after.1 after.2 := Store.Run.start.performAll _
  have first := (Store.Browse.opened (q := q) run).pull.pull
  have written := ((first.call (.set (identity 1) (below 8 1) [4] 11 false)).call
    (.set (identity 1) (below 8 3) [5] 11 false)).call (.set (identity 1) (below 8 4) [6] 12 false)
  have drained := written.pull.pull
  obtain ⟨_, _, once⟩ := browsed_of_run sample_apart fresh drained (by decide +kernel)
  refine ⟨_, _, _, _, ⟨sample_apart, fresh, drained, by decide +kernel, rfl, rfl, ?_⟩, ?_, ?_⟩
  · exact ⟨_, List.mem_cons_self, by decide +kernel⟩
  · decide +kernel
  · suffices stays : ∃ d ∈ sample.documents after.2, d.path = path 8 ∧ q.Matches d ∧
        ∀ x ∈ (_ : List Sight), d ∈ sample.documents x.site by
      obtain ⟨d, before, there, wanted, stayed⟩ := stays
      exact ⟨d, before, ⟨there, wanted, stayed⟩,
        once rfl rfl ⟨_, List.mem_cons_self, by decide +kernel⟩ d wanted stayed⟩
    decide +kernel

end Sample

end DocumentShare
