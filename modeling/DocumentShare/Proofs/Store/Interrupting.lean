import DocumentShare.Proofs.Store.Changing
import DocumentShare.Proofs.Store.Effects

/-!
# Listings after a write that storage broke off

A write changes the entry of a document and then its place in each index, and nothing is taken back
when storage fails in between. So an order lists what places answer unless the change that failed is of
an index and this order or one before it had still to follow the entry (`listed_of_interrupted`). An
index that is behind is not put right by later writes, so a query finds a key that stands for no
document, or misses a document.
-/

namespace DocumentShare

open Work

theorem Change.holdsUp_identity (ch : Change) : ch.holdsUp .identity = false := by
  unfold holdsUp
  split
  · rfl
  · rfl
  · rfl

namespace Archive

variable {a b : Archive} {documents : Finset Document} {o : Order}

/-- The entries and the records of an order are of the same documents. -/
def Aligned (a : Archive) (o : Order) : Prop :=
  ∃ documents, a.entries.contents.Lists documents ∧ a.entries.contents.Files o documents

theorem Aligned.congr (aligned : a.Aligned o) (same : b.entries.contents = a.entries.contents) :
    b.Aligned o := by
  unfold Aligned
  rw [same]
  exact aligned

theorem aligned_empty (vacant : a.entries.contents = .empty) (o : Order) : a.Aligned o := by
  have files (o : Order) : Contents.Files .empty o ∅ := by
    intro rest value
    rw [Contents.get?_empty]
    refine iff_of_false ?_ ?_
    · rintro ⟨⟩
    · rintro ⟨d, impossible, _⟩
      cases impossible
  refine ⟨∅, ?_, ?_⟩
  · rw [vacant]
    exact Contents.lists_iff.mpr ⟨files .identity, fun d impossible => by cases impossible⟩
  · rw [vacant]
    exact files o

theorem gather_length (o : Order) (direction : Direction) (tally : Tally)
    (items : List (Bytes × Bytes)) (a : Archive) :
    (gather (.all o direction) tally items).Ends a (fun ds _ => ds.length = items.length)
      fun _ _ => True := by
  induction items generalizing tally a with
  | nil => exact Ends.pure rfl
  | cons item items ih =>
    rw [gather]
    split
    · next full => cases full
    · apply (Ends.any _ _).bind
      intro d b _
      have taken : judge (.all o direction) tally d = .take (tally.add d.entry) := rfl
      rw [taken]
      apply (ih _ b).bind
      intro ds c count
      exact Ends.pure (congrArg Nat.succ count)

theorem query_length (o : Order) (direction : Direction) (a : Archive) :
    (query (.all o direction)).Ends a
      (fun ds _ => ds.length = (a.entries.contents.within (Query.all o direction).range).length)
      fun _ _ => True := by
  have items : (itemsOf (.all o direction)).Reads a.entries.contents
      (· = direction.arrange (a.entries.contents.within (Query.all o direction).range)) :=
    ArchiveWork.Reads.scan _ _
  apply ((items a rfl).mono (fun _ _ => id) fun _ _ _ => trivial).bind
  intro found b ⟨same, _⟩
  apply (gather_length o direction .zero found b).mono
  · intro ds _ count
    rw [count, same]
    cases direction with
    | ascending => rfl
    | descending => exact List.length_reverse
  · intro _ _
    exact id

section

variable [Crypto] {may : Document → Prop} {brings : Bytes → Prop} {left : List Change}

theorem Reaches.course (reaches : a.Reaches may brings left b) (lists : a.entries.contents.Lists documents) :
    ∃ moves done documents', Course documents moves documents' ∧
      done ++ left = moves.flatMap Move.changes ∧
      (a.entries.contents.after done).Agrees b.entries.contents := by
  obtain ⟨moves, done, rfl | ⟨d, _, readable, rfl⟩, cut, agrees⟩ := reaches.entries
  · exact ⟨[], done, documents, .nil, cut, agrees⟩
  · obtain ⟨documents', course⟩ := course_moves lists readable
    exact ⟨a.moves d, done, documents', course, cut, agrees⟩

theorem Aligned.reaches (aligned : a.Aligned o) (reaches : a.Reaches may brings [] b) : b.Aligned o := by
  obtain ⟨documents, lists, files⟩ := aligned
  obtain ⟨moves, done, documents', course, cut, agrees⟩ := reaches.course lists
  rw [List.append_nil] at cut
  subst cut
  obtain ⟨lists', files'⟩ := lists.arrived files course
  exact ⟨documents', agrees.lists lists', agrees.files files'⟩

/-- What the entries and an order are of when some changes are left. -/
theorem Aligned.stopped (aligned : a.Aligned o) (reaches : a.Reaches may brings left b) :
    ∃ entries indexed : Finset Document,
      b.entries.contents.Lists entries ∧ b.entries.contents.Files o indexed ∧
      (∀ d ∈ indexed, ∀ e ∈ indexed, d.key = e.key → d = e) ∧
      ((∀ ch ∈ left.head?, ch.holdsUp o = false) → indexed = entries) ∧
      ((∃ ch ∈ left.head?, ch.holdsUp o) → indexed.card ≠ entries.card) := by
  obtain ⟨documents, lists, files⟩ := aligned
  obtain ⟨moves, done, documents', course, cut, agrees⟩ := reaches.course lists
  obtain ⟨entries, indexed, lists', files', rest⟩ := lists.stopped files course cut
  exact ⟨entries, indexed, agrees.lists lists', agrees.files files', rest⟩

end

end Archive

namespace Store

variable {s : Store} {t : Site} {o : Order} {documents : Finset Document}

/-- Once storage works, an order lists once each document that is answered in its place, and no
others. -/
def ListsWell (s : Store) (t : Site) (o : Order) : Prop :=
  ∀ u, s.Untouched t u → (s.archive u).Works → ∀ direction, ∃ ds,
    s.queried u (.all o direction) = .ok ds ∧ ds.Nodup ∧
    ∀ identity path, ∃ found, s.documentAt u identity path = .ok found ∧
      ∀ d, found = some d ↔ d ∈ ds ∧ d.identity = identity ∧ d.path = path

theorem answers_reads {α : Type} (apart : s.Apart) (works : (s.archive t).Works) {w : ArchiveWork α}
    {good : α → Prop} (reads : w.Reads (s.archive t).entries.contents good) :
    ∃ x, ((s.onArchive w).runOn t).1 = .ok x ∧ good x := by
  have answered : w.Answers (s.archive t) fun x _ => good x :=
    (reads _ rfl).mono (fun _ _ h => h.1) fun _ _ h => h.2.1 works.entries
  obtain ⟨x, answer, holds⟩ := Answers.ran (ends_onArchive apart answered)
  exact ⟨x, answer, holds⟩

theorem listsWell_of_aligned (apart : s.Apart) (aligned : (s.archive t).Aligned o) :
    s.ListsWell t o := by
  intro u untouched works direction
  obtain ⟨documents, lists, files⟩ := aligned.congr untouched.entries
  have reads := lists.query (q := .all o direction) files (Finset.nodup_toList documents)
    fun d => Finset.mem_toList
  obtain ⟨ds, answer, listed⟩ := answers_reads apart works reads
  rw [Query.listing_of_unbounded rfl rfl] at listed
  have perm : ds.Perm documents.toList := by
    have all : (documents.toList.filter fun d => (Query.all o direction).Matches d)
        = documents.toList :=
      List.filter_eq_self.mpr fun d _ => decide_eq_true (Query.matches_all o direction d)
    have arranged := (Query.all o direction).arranged_perm documents.toList
    rwa [← listed, all] at arranged
  refine ⟨ds, answer, perm.nodup_iff.mpr (Finset.nodup_toList documents), fun identity path => ?_⟩
  obtain ⟨found, there, here⟩ := answers_reads apart works (lists.get identity path)
  refine ⟨found, there, fun d => ?_⟩
  rw [here, perm.mem_iff, Finset.mem_toList]

/-- What an order lists well it has as many records of as there are entries. -/
theorem card_of_listsWell {indexed : Finset Document} (apart : s.Apart) (well : s.ListsWell t o)
    (lists : (s.archive t).entries.contents.Lists documents)
    (files : (s.archive t).entries.contents.Files o indexed)
    (distinct : ∀ d ∈ indexed, ∀ e ∈ indexed, d.key = e.key → d = e) :
    indexed.card = documents.card := by
  let u := s.afflict (fun _ => none) (fun _ => none) t
  have untouched : s.Untouched t u := s.untouched_afflict _ _ t
  have works : (s.archive u).Works := s.works_mended t
  rw [← untouched.entries] at lists files
  obtain ⟨ds, answer, once, places⟩ := well u untouched works .ascending
  -- A listing has a document for every record, and by what places answer one for every entry.
  have length : ds.length = indexed.card := by
    rw [← files.length_within distinct .ascending]
    have counted := ends_onArchive apart (Archive.query_length o .ascending (s.archive u))
    obtain ⟨ds', answer', count⟩ | ⟨e, failure, _⟩ := counted.cases
    · rw [queried, answer'] at answer
      cases answer
      exact count
    · rw [queried, failure] at answer
      cases answer
  have same : ds.toFinset = documents := by
    ext d
    rw [List.mem_toFinset]
    obtain ⟨found, there, listed⟩ := places d.identity d.path
    obtain ⟨found', there', here⟩ := answers_reads apart works (lists.get d.identity d.path)
    rw [documentAt, there'] at there
    cases there
    have both := (listed d).symm.trans (here d)
    simpa using both
  rw [← length, ← same, List.toFinset_card_of_nodup once]

end Store

section

variable [Crypto]

/-- Storage did not fail during the call. -/
def Exchange.Finished (x : Exchange) : Prop := ∀ e, x.reply = .error e → e.Refuses

namespace Store

variable {s : Store} {t u : Site} {o : Order} {documents : Finset Document}

theorem reaches_of_call (apart : s.Apart) (lists : (s.archive t).entries.contents.Lists documents)
    (c : Call) :
    ∃ left, (s.archive t).Reaches (c.Writes s) c.Carries left (s.archive ((s.perform c).runOn t).2) ∧
      (Exchange.Finished ⟨c, ((s.perform c).runOn t).1⟩ → left = []) := by
  obtain ⟨_, _, reaches⟩ | ⟨e, failure, left, reaches, refused⟩ :=
    Ends.cases (changes_perform apart lists c)
  · exact ⟨[], reaches, fun _ => rfl⟩
  · exact ⟨left, reaches, fun finished => refused (finished e failure)⟩

theorem aligned_of_run {log : List Exchange} (apart : s.Apart) (aligned : (s.archive t).Aligned o)
    (run : s.Run s.Untouched t log u) (finished : ∀ x ∈ log, x.Finished) :
    (s.archive u).Aligned o := by
  induction run with
  | start => exact aligned
  | aside _ untouched ih => exact (ih finished).congr untouched.entries
  | call run c ih =>
    obtain ⟨last, finished⟩ := List.forall_mem_cons.mp finished
    obtain ⟨_, lists, _⟩ := ih finished
    obtain ⟨left, reaches, whole⟩ := reaches_of_call apart lists c
    obtain rfl := whole last
    exact (ih finished).reaches reaches

end Store

/-- A call that storage fails makes a front of its changes. An order still lists well iff the first
that is left is not of an index with this order behind its entry. -/
theorem listed_of_interrupted {s : Store} {t u : Site} {log : List Exchange} (apart : s.Apart)
    (vacant : s.Vacant t) (run : s.Run s.Untouched t log u) (finished : ∀ x ∈ log, x.Finished)
    (c : Call) :
    let x : Exchange := ⟨c, ((s.perform c).runOn u).1⟩
    let v := ((s.perform c).runOn u).2
    (∀ o, s.ListsWell u o) ∧ s.ListsWell v .identity ∧
    ∃ left, (s.archive u).Reaches (c.Writes s) c.Carries left (s.archive v) ∧ (x.Finished → left = []) ∧
      ∀ o, (s.ListsWell v o ↔ ∀ ch ∈ left.head?, ch.holdsUp o = false) ∧
        (s.ListsWell v o → ∀ log' w, s.Run s.Untouched v log' w → (∀ x ∈ log', x.Finished) →
          s.ListsWell w o) := by
  intro x v
  have aligned (o : Order) : (s.archive u).Aligned o :=
    Store.aligned_of_run apart (Archive.aligned_empty vacant.entries o) run finished
  obtain ⟨documents, lists, _⟩ := aligned .identity
  obtain ⟨left, reaches, whole⟩ := Store.reaches_of_call apart lists c
  have free (o : Order) (next : ∀ ch ∈ left.head?, ch.holdsUp o = false) :
      (s.archive v).Aligned o := by
    obtain ⟨entries, indexed, lists, files, _, same, _⟩ := (aligned o).stopped reaches
    obtain rfl := same next
    exact ⟨indexed, lists, files⟩
  have held (o : Order) (well : s.ListsWell v o) : ∀ ch ∈ left.head?, ch.holdsUp o = false := by
    intro ch next
    obtain ⟨entries, indexed, lists, files, distinct, _, unlike⟩ := (aligned o).stopped reaches
    -- Held up, the order has one record more or less than there are entries.
    by_contra behind
    rw [Bool.not_eq_false] at behind
    exact unlike ⟨ch, next, behind⟩ (Store.card_of_listsWell apart well lists files distinct)
  refine ⟨fun o => Store.listsWell_of_aligned apart (aligned o), ?_, left, reaches, whole,
    fun o => ⟨⟨held o, fun next => Store.listsWell_of_aligned apart (free o next)⟩, ?_⟩⟩
  · exact Store.listsWell_of_aligned apart (free .identity fun ch _ => ch.holdsUp_identity)
  · intro well log' w later finished'
    have goes := Store.aligned_of_run apart (free o (held o well)) later finished'
    exact Store.listsWell_of_aligned apart goes

end

section Sample

open Crypto.Transparent

attribute [local instance] Crypto.transparent

theorem finished_threeWrites : ∀ x ∈ (sample.performAll threeWrites [] blank).1, x.Finished := by
  have answered : (sample.performAll threeWrites [] blank).1.all fun x => x.reply.toBool := by
    decide +kernel
  intro x member e failed
  have answer := List.all_eq_true.mp answered x member
  rw [failed] at answer
  cases answer

/-- After the three writes the second operation of a fourth that deletes fails, at the index of paths. -/
theorem listed_of_interrupted_failed_deletion :
    let after := sample.performAll threeWrites [] blank
    let struck := sample.afflict
      (fun op => if op = .delete then some ⟨.backend "full", 1⟩ else none) (fun _ => none) after.2
    let c : Call := .set (identity 1) (path 8) [2] 10 false
    let r := ((sample.perform c).runOn struck).1
    let v := ((sample.perform c).runOn struck).2
    (sample.Apart ∧ sample.Vacant blank ∧ sample.Run sample.Untouched blank after.1 struck ∧
      ∀ x ∈ after.1, x.Finished) ∧
    r = .error (.ofStorage (.backend "full")) ∧
    (∀ o, sample.ListsWell struck o) ∧ sample.ListsWell v .identity ∧
    ∃ left, (sample.archive struck).Reaches (c.Writes sample) c.Carries left (sample.archive v) ∧
      ∀ o, sample.ListsWell v o ↔ ∀ ch ∈ left.head?, ch.holdsUp o = false := by
  intro after struck c r v
  have vacant : sample.Vacant blank := ⟨rfl, rfl⟩
  have run : sample.Run sample.Untouched blank after.1 struck := by
    have begun : sample.Run sample.Untouched blank after.1 after.2 :=
      Store.Run.start.performAll threeWrites
    exact begun.aside (sample.untouched_afflict _ _ after.2)
  obtain ⟨before, ids, left, reaches, _, orders⟩ :=
    listed_of_interrupted sample_apart vacant run finished_threeWrites c
  exact ⟨⟨sample_apart, vacant, run, finished_threeWrites⟩, by decide +kernel, before, ids, left,
    reaches, fun o => (orders o).1⟩

/-- After that write there is no document in its place, but both indexes have the key of one, and
queries fail in their orders. -/
theorem listings_torn :
    let after := sample.performAll threeWrites [] blank
    let struck := sample.afflict
      (fun op => if op = .delete then some ⟨.backend "full", 1⟩ else none) (fun _ => none) after.2
    let c : Call := .set (identity 1) (path 8) [2] 10 false
    let r := ((sample.perform c).runOn struck).1
    let v := ((sample.perform c).runOn struck).2
    let mended := sample.afflict (fun _ => none) (fun _ => none) v
    (sample.Vacant blank ∧ sample.Run sample.Untouched blank after.1 struck ∧
      (∀ x ∈ after.1, x.Finished) ∧ r = .error (.ofStorage (.backend "full")) ∧
      sample.Untouched v mended ∧ (sample.archive mended).Works) ∧
    sample.documentAt mended (identity 1) (path 8) = .ok none ∧
    sample.queried mended (.all .path .ascending) = .error (.invariant .missingEntry) ∧
    sample.queried mended (.all .timestamp .ascending) = .error (.invariant .missingEntry) ∧
    ¬sample.ListsWell v .path ∧ ¬sample.ListsWell v .timestamp := by
  intro after struck c r v mended
  have run : sample.Run sample.Untouched blank after.1 struck := by
    have begun : sample.Run sample.Untouched blank after.1 after.2 :=
      Store.Run.start.performAll threeWrites
    exact begun.aside (sample.untouched_afflict _ _ after.2)
  have untouched : sample.Untouched v mended := sample.untouched_afflict _ _ v
  have works : (sample.archive mended).Works := sample.works_mended v
  have paths : sample.queried mended (.all .path .ascending) = .error (.invariant .missingEntry) := by
    decide +kernel
  have times : sample.queried mended (.all .timestamp .ascending)
      = .error (.invariant .missingEntry) := by
    decide +kernel
  refine ⟨⟨⟨rfl, rfl⟩, run, finished_threeWrites, by decide +kernel, untouched, works⟩,
    by decide +kernel, paths, times, fun well => ?_, fun well => ?_⟩
  · obtain ⟨ds, answer, _⟩ := well mended untouched works .ascending
    rw [paths] at answer
    cases answer
  · obtain ⟨ds, answer, _⟩ := well mended untouched works .ascending
    rw [times] at answer
    cases answer

end Sample

end DocumentShare
