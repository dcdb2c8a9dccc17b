import DocumentShare.Proofs.Store.Draining

/-!
# The most recent document at a path

A document leads a list if it is the first of the most recent ones there. Both ways to ask for the
most recent document at a path come to the leader of what their scan visits: `Archive.latest` keeps
what is strictly newer, and ranking by recency is stable. But they scan in opposite directions, so
where documents of several identities are the most recent they differ (`ranked_of_run`).
-/

namespace DocumentShare

open Work

/-! ### Leading a list -/

namespace Document

variable {d e : Document} {ds group rest : List Document}

/-- The document is the first of the most recent ones in a list. -/
def Leads (d : Document) (ds : List Document) : Prop :=
  ∃ before after, ds = before ++ d :: after ∧ (∀ e ∈ before, d.entry.isNewerThan e.entry) ∧
    ∀ e ∈ after, e.entry.isNewerThan d.entry = false

theorem Leads.mem (leads : d.Leads ds) : d ∈ ds := by
  obtain ⟨before, after, rfl, _⟩ := leads
  exact List.mem_append_right before List.mem_cons_self

theorem Leads.newest (leads : d.Leads ds) (member : e ∈ ds) :
    e.entry.isNewerThan d.entry = false := by
  obtain ⟨before, after, rfl, older, notNewer⟩ := leads
  rcases List.mem_append.mp member with earlier | same | ⟨_, later⟩
  · exact Entry.isNewerThan_asymm (older e earlier)
  · exact Entry.not_isNewerThan_self
  · exact notNewer e later

/-- What is as recent as the leader comes after it. -/
theorem Leads.first {R : Document → Document → Prop} (leads : d.Leads ds) (sorted : ds.Pairwise R)
    (member : e ∈ ds) (level : d.entry.isNewerThan e.entry = false) (other : e ≠ d) : R d e := by
  obtain ⟨before, after, rfl, older, _⟩ := leads
  rcases List.mem_append.mp member with earlier | same | ⟨_, later⟩
  · rw [older e earlier] at level
    cases level
  · exact absurd rfl other
  · exact (List.pairwise_cons.mp (List.pairwise_append.mp sorted).2.1).1 e later

theorem exists_leads (some : ds ≠ []) : ∃ d : Document, d.Leads ds := by
  induction ds with
  | nil => exact absurd rfl some
  | cons e ds ih =>
    by_cases more : ds = []
    · subst more
      exact ⟨e, [], [], rfl, by simp, by simp⟩
    · obtain ⟨d, leads⟩ := ih more
      cases newer : d.entry.isNewerThan e.entry with
      | true =>
        obtain ⟨before, after, rfl, older, notNewer⟩ := leads
        exact ⟨d, e :: before, after, rfl, List.forall_mem_cons.mpr ⟨newer, older⟩, notNewer⟩
      | false =>
        refine ⟨e, [], ds, rfl, by simp, fun f member => ?_⟩
        exact Entry.not_isNewerThan_trans (leads.newest member) newer

/-- Documents of later timestamps come first, so the leader of those of the first timestamp leads. -/
theorem Leads.of_tied (leads : d.Leads group) (tied : Tied group rest)
    (sorted : (group ++ rest).Pairwise fun d e => e.timestamp ≤ d.timestamp) :
    d.Leads (group ++ rest) := by
  have earlier := tied.earlier sorted leads.mem
  obtain ⟨before, after, rfl, older, notNewer⟩ := leads
  refine ⟨before, after ++ rest, by simp, older, fun e member => ?_⟩
  rcases List.mem_append.mp member with here | later
  · exact notNewer e here
  · exact Entry.not_isNewerThan_of_earlier (earlier e later)

end Document

/-! ### What is computed -/

namespace Archive

variable {d : Document} {ds group rest : List Document}

/-- The step of `newest?`. -/
def newer? (newest? : Option Document) (d : Document) : Option Document :=
  if newest?.all (fun newest => d.entry.isNewerThan newest.entry) then some d else newest?

theorem newest?_eq_foldl (ds : List Document) : newest? ds = ds.foldl newer? none := rfl

theorem mem_of_foldl_newer? {o : Option Document} (found : ds.foldl newer? o = some d) :
    d ∈ ds ∨ o = some d := by
  induction ds generalizing o with
  | nil => exact .inr found
  | cons e ds ih =>
    rcases ih found with member | here
    · exact .inl (List.mem_cons_of_mem _ member)
    · unfold newer? at here
      split at here
      · cases here
        exact .inl List.mem_cons_self
      · exact .inr here

theorem foldl_newer?_of_newest (notNewer : ∀ e ∈ ds, e.entry.isNewerThan d.entry = false) :
    ds.foldl newer? (some d) = some d := by
  induction ds with
  | nil => rfl
  | cons e ds ih =>
    obtain ⟨here, later⟩ := List.forall_mem_cons.mp notNewer
    rw [List.foldl_cons, newer?, if_neg (by simp [here])]
    exact ih later

theorem newest?_of_leads (leads : d.Leads ds) : newest? ds = some d := by
  obtain ⟨before, after, rfl, older, notNewer⟩ := leads
  rw [newest?_eq_foldl, List.foldl_append, List.foldl_cons]
  have replaced : newer? (before.foldl newer? none) d = some d := by
    refine if_pos ?_
    cases found : before.foldl newer? none with
    | none => rfl
    | some e =>
      have member := (mem_of_foldl_newer? found).resolve_right (by simp)
      exact older e member
  rw [replaced]
  exact foldl_newer?_of_newest notNewer

theorem newest?_eq_some_iff : newest? ds = some d ↔ d.Leads ds := by
  refine ⟨fun found => ?_, newest?_of_leads⟩
  have some : ds ≠ [] := by
    intro empty
    subst empty
    cases found
  obtain ⟨e, leads⟩ := Document.exists_leads some
  rw [newest?_of_leads leads] at found
  cases found
  exact leads

theorem newest?_eq_none_iff : newest? ds = none ↔ ds = [] := by
  constructor
  · intro none
    by_contra some
    obtain ⟨d, leads⟩ := Document.exists_leads some
    rw [newest?_of_leads leads] at none
    cases none
  · intro empty
    subst empty
    rfl

/-- The sort is stable, so of the most recent documents the first stays first. -/
theorem head?_newestFirst (leads : d.Leads ds) : (newestFirst ds).head? = some d := by
  induction ds with
  | nil => cases leads.mem
  | cons e ds ih =>
    obtain ⟨front, back, sorted, sorted', ahead⟩ :=
      List.mergeSort_cons not_newer_trans not_newer_total e ds
    have perm := List.mergeSort_perm ds fun a b => !b.entry.isNewerThan a.entry
    rw [newestFirst_eq] at ih ⊢
    have ordered := List.pairwise_mergeSort not_newer_trans not_newer_total (e :: ds)
    obtain ⟨before, after, same, older, notNewer⟩ := leads
    rw [sorted] at ordered ⊢
    cases before with
    | nil =>
      obtain ⟨rfl, rfl⟩ := List.cons.inj same
      cases front with
      | nil => rfl
      | cons f front =>
        -- What is sorted before the first of all is newer.
        have newer : f.entry.isNewerThan e.entry := by simpa using ahead f List.mem_cons_self
        have member : f ∈ ds := perm.subset (sorted' ▸ List.mem_cons_self)
        rw [notNewer f member] at newer
        cases newer
    | cons e' before =>
      obtain ⟨rfl, rest⟩ := List.cons.inj same
      obtain ⟨newer, older⟩ := List.forall_mem_cons.mp older
      have here := ih ⟨before, after, rest, older, notNewer⟩
      rw [sorted'] at here
      cases front with
      | nil =>
        have member : d ∈ back := List.mem_of_mem_head? here
        have level := (List.pairwise_cons.mp ordered).1 d member
        rw [newer] at level
        cases level
      | cons f front => exact here

/-- Ranking within timestamps puts the leader of all first. -/
theorem head?_rank (leads : d.Leads ds)
    (sorted : ds.Pairwise fun d e => e.timestamp ≤ d.timestamp) : (rank ds).head? = some d := by
  obtain ⟨group, rest, rfl, some, tied⟩ := Document.exists_tied (List.ne_nil_of_mem leads.mem)
  obtain ⟨e, leads'⟩ := Document.exists_leads some
  have same : Option.some d = Option.some e := by
    rw [← newest?_of_leads leads, newest?_of_leads (leads'.of_tied tied sorted)]
  cases same
  rw [rank_append tied, List.head?_append, head?_newestFirst leads']
  rfl

end Archive

/-! ### The most recent documents at a path -/

/-- The document is one of the most recent at a path. -/
structure Document.Foremost (documents : Finset Document) (path : Path) (d : Document) : Prop where
  live : d ∈ documents
  here : d.path = path
  newest : ∀ e ∈ documents, e.path = path → e.entry.isNewerThan d.entry = false

/-- What is picked of the most recent documents at a path by how identities compare. -/
def Document.Picked (documents : Finset Document) (path : Path) (sign : Ordering)
    (o : Option Document) : Prop :=
  ∀ d, o = some d ↔ Foremost documents path d ∧
    ∀ e, Foremost documents path e → e ≠ d → compare d.identity e.identity = sign

instance (documents : Finset Document) (path : Path) (d : Document) :
    Decidable (d.Foremost documents path) :=
  decidable_of_iff (d ∈ documents ∧ d.path = path ∧
      ∀ e ∈ documents, e.path = path → e.entry.isNewerThan d.entry = false)
    ⟨fun ⟨live, here, newest⟩ => ⟨live, here, newest⟩, fun h => ⟨h.live, h.here, h.newest⟩⟩

/-- Of the most recent documents at a path only the identities compare. -/
theorem Document.Foremost.rank_eq {documents : Finset Document} {path : Path} {d e : Document}
    (foremost : Foremost documents path d) (foremost' : Foremost documents path e) :
    Order.path.rank d e = compare d.identity e.identity := by
  have together : d.timestamp = e.timestamp := Entry.timestamp_eq_of_level
    (foremost'.newest d foremost.live foremost.here)
    (foremost.newest e foremost'.live foremost'.here)
  rw [Order.rank, foremost.here, foremost'.here, together, Std.compare_self, Std.compare_self]
  rfl

namespace Archive.VisitedAt

variable {documents : Finset Document} {path : Path} {direction : Direction} {d : Document}
  {ds : List Document}

theorem foremost (visited : VisitedAt documents path direction ds) (leads : d.Leads ds) :
    d.Foremost documents path := by
  obtain ⟨live, here⟩ := (visited.mem_iff d).mp leads.mem
  refine ⟨live, here, fun e live' here' => ?_⟩
  exact leads.newest ((visited.mem_iff e).mpr ⟨live', here'⟩)

theorem first (visited : VisitedAt documents path direction ds) (leads : d.Leads ds) {e : Document}
    (foremost : e.Foremost documents path) (other : e ≠ d) : Order.path.Precedes direction d e := by
  obtain ⟨live, here⟩ := (visited.mem_iff d).mp leads.mem
  have member := (visited.mem_iff e).mpr ⟨foremost.live, foremost.here⟩
  exact leads.first visited.sorted member (foremost.newest d live here) other

/-- The leader is that of the most recent documents which is visited first. -/
theorem leads_iff (visited : VisitedAt documents path direction ds) :
    d.Leads ds ↔ d.Foremost documents path ∧
      ∀ e, e.Foremost documents path → e ≠ d → Order.path.Precedes direction d e := by
  constructor
  · intro leads
    exact ⟨visited.foremost leads, fun e foremost other => visited.first leads foremost other⟩
  · intro ⟨foremost, before⟩
    have member := (visited.mem_iff d).mpr ⟨foremost.live, foremost.here⟩
    obtain ⟨e, leads⟩ := Document.exists_leads (List.ne_nil_of_mem member)
    by_cases same : e = d
    · exact same ▸ leads
    · have there := before e (visited.foremost leads) same
      have back := visited.first leads foremost (Ne.symm same)
      exact (there.trans back).irrefl.elim

theorem newest?_picked (visited : VisitedAt documents path direction ds) :
    Document.Picked documents path direction.sign (newest? ds) := by
  intro d
  rw [newest?_eq_some_iff, visited.leads_iff]
  refine and_congr_right fun foremost => forall_congr' fun e => ?_
  refine forall_congr' fun foremost' => forall_congr' fun _ => ?_
  rw [Order.precedes_iff_rank, foremost.rank_eq foremost']

theorem newest?_eq_none_iff (visited : VisitedAt documents path direction ds) :
    newest? ds = none ↔ ∀ d ∈ documents, d.path ≠ path := by
  rw [Archive.newest?_eq_none_iff, List.eq_nil_iff_forall_not_mem]
  refine forall_congr' fun d => ?_
  rw [visited.mem_iff]
  exact not_and

/-- Both directions come to the same document where there is only one of the most recent. -/
theorem newest?_eq_iff {up down : List Document} (ascending : VisitedAt documents path .ascending up)
    (descending : VisitedAt documents path .descending down) : newest? up = newest? down ↔
      ∀ d e : Document, d.Foremost documents path → e.Foremost documents path → d = e := by
  constructor
  · intro agree
    have unique (d : Document) (foremost : d.Foremost documents path) : newest? up = some d := by
      cases found : newest? up with
      | none => exact absurd foremost.here (ascending.newest?_eq_none_iff.mp found d foremost.live)
      | some e =>
        by_contra other
        have differs : d ≠ e := fun same => other (congrArg some same.symm)
        have below := ((ascending.newest?_picked _).mp found).2 d foremost differs
        rw [agree] at found
        have above := ((descending.newest?_picked _).mp found).2 d foremost differs
        rw [below] at above
        cases above
    intro d e foremost foremost'
    exact Option.some.inj ((unique d foremost).symm.trans (unique e foremost'))
  · intro unique
    cases found : newest? up with
    | none => exact (descending.newest?_eq_none_iff.mpr (ascending.newest?_eq_none_iff.mp found)).symm
    | some d =>
      have foremost := ((ascending.newest?_picked _).mp found).1
      refine ((descending.newest?_picked d).mpr ⟨foremost, fun e foremost' other => ?_⟩).symm
      exact absurd (unique e d foremost' foremost) other

theorem head?_rank (visited : VisitedAt documents path .descending ds) :
    (rank ds).head? = newest? ds := by
  by_cases empty : ds = []
  · subst empty
    rfl
  · obtain ⟨d, leads⟩ := Document.exists_leads empty
    rw [Archive.head?_rank leads visited.timestamps, newest?_of_leads leads]

end Archive.VisitedAt

/-! ### What is read -/

namespace Archive

variable [Crypto] {a : Archive} {l : Ledger} {d : Document} {ds : List Document}

namespace Tracks

theorem latest (tracks : a.Tracks l) (path : Path) :
    (Archive.latest path).Answers a fun o a' =>
      (∃ ds, VisitedAt l.documents path .ascending ds ∧ o = newest? ds) ∧ a'.Tracks l := by
  apply (tracks.indexedAt path .ascending).bind
  intro ds b ⟨visited, tracks⟩
  exact Ends.pure ⟨⟨ds, visited, rfl⟩, tracks⟩

end Tracks

end Archive

section

variable [Crypto]

namespace Store

/-- What a store answers as the most recent document at a path. -/
def latestAt (s : Store) (t : Site) (path : Path) : Except StoreError (Option Document) :=
  ((s.onArchive (Archive.latest path)).runOn t).1

end Store

/-- What a store answers as the most recent document at a path, and what its listing begins with. -/
structure Store.Ranks (s : Store) (t : Site) (path : Path) (latest first : Option Document)
    (ranked : List Document) : Prop where
  answered : s.latestAt t path = .ok latest
  listed : s.rankedAt t path = .ok ranked
  head : ranked.head? = first
  pulled : (s.pull (.path (.start path)) t).1 = .ok first

theorem Store.Tracks.ranks {s : Store} {t : Site} {l : Ledger} (apart : s.Apart)
    (tracks : s.Tracks t l) (path : Path) : ∃ up down ranked,
      Archive.VisitedAt l.documents path .ascending up ∧
      Archive.VisitedAt l.documents path .descending down ∧
      s.Ranks t path (Archive.newest? up) (Archive.newest? down) ranked := by
  obtain ⟨latest, answer, ⟨up, ascending, rfl⟩, _⟩ :=
    (Tracks.reading apart (Archive.Tracks.latest tracks path)).ran
  obtain ⟨down, descending, listed⟩ := tracks.rankedAt apart path
  obtain ⟨o, u, pulled, ⟨yielded, _⟩, _⟩ := tracks.pullLeaves apart (.start descending)
  have first := descending.head?_rank
  refine ⟨up, down, _, ascending, descending, answer, listed, first, ?_⟩
  rw [pulled, yielded, first]

/-- Of the most recent documents at a path, `latest` answers the one of the least identity and the
listing begins with that of the greatest. -/
theorem ranked_of_run {s : Store} {t u : Site} {log : List Exchange} (apart : s.Apart)
    (fresh : s.Fresh t) (run : s.Run s.Spares t log u) (few : log.length < 2 ^ 64) (path : Path) :
    ∃ (latest first : Option Document) (ranked : List Document), s.Ranks u path latest first ranked ∧
      Document.Picked (s.documents u) path .lt latest ∧
      Document.Picked (s.documents u) path .gt first ∧
      ((latest = none ↔ ∀ d ∈ s.documents u, d.path ≠ path) ∧
        (first = none ↔ ∀ d ∈ s.documents u, d.path ≠ path)) ∧
      (latest = first ↔ ∀ d e : Document, d.Foremost (s.documents u) path →
        e.Foremost (s.documents u) path → d = e) := by
  obtain ⟨⟨l, tracks, _⟩, _⟩ := Store.upkeep_of_run apart fresh run few
  rw [tracks.documents]
  obtain ⟨up, down, ranked, ascending, descending, ranks⟩ := tracks.ranks apart path
  refine ⟨_, _, ranked, ranks, ?_, ?_, ⟨?_, ?_⟩, ?_⟩
  · exact ascending.newest?_picked
  · exact descending.newest?_picked
  · exact ascending.newest?_eq_none_iff
  · exact descending.newest?_eq_none_iff
  · exact ascending.newest?_eq_iff descending

end

section Sample

open Crypto.Transparent

attribute [local instance] Crypto.transparent

theorem tiedWrites_foremost :
    let documents := sample.documents (sample.performAll tiedWrites [] blank).2
    ∃ d ∈ documents, ∃ e ∈ documents, (d.identity = identity 1 ∧ e.identity = identity 2) ∧
      (d.Foremost documents (path 7) ∧ e.Foremost documents (path 7)) ∧
      ∀ f ∈ documents, f = d ∨ f = e := by
  decide +kernel

theorem tiedWrites_differ {latest first : Option Document}
    (least :
      Document.Picked (sample.documents (sample.performAll tiedWrites [] blank).2) (path 7) .lt latest)
    (greatest :
      Document.Picked (sample.documents (sample.performAll tiedWrites [] blank).2) (path 7) .gt first) :
    ∃ d e, (latest = some d ∧ first = some e) ∧
      (d.identity = identity 1 ∧ e.identity = identity 2) ∧ latest ≠ first := by
  obtain ⟨d, _, e, _, ⟨mine, yours⟩, ⟨foremost, foremost'⟩, only⟩ := tiedWrites_foremost
  have below : compare d.identity e.identity = .lt := by
    rw [mine, yours]
    decide +kernel
  have latest_eq : latest = some d := by
    refine (least d).mpr ⟨foremost, fun f there other => ?_⟩
    exact (only f there.live).resolve_left other ▸ below
  have first_eq : first = some e := by
    refine (greatest e).mpr ⟨foremost', fun f there other => ?_⟩
    rw [(only f there.live).resolve_right other]
    exact Std.OrientedCmp.gt_iff_lt.mpr below
  refine ⟨d, e, ⟨latest_eq, first_eq⟩, ⟨mine, yours⟩, fun same => ?_⟩
  rw [latest_eq, first_eq] at same
  cases same
  rw [mine] at yours
  exact absurd yours (by decide +kernel)

theorem ranked_of_run_tiedWrites :
    let after := sample.performAll tiedWrites [] blank
    (sample.Apart ∧ sample.Fresh blank ∧ sample.Run sample.Spares blank after.1 after.2 ∧
      after.1.length < 2 ^ 64) ∧
    ∃ d e ranked, sample.Ranks after.2 (path 7) (some d) (some e) ranked ∧
      (d.identity = identity 1 ∧ e.identity = identity 2) ∧
      ¬∀ f g, Document.Foremost (sample.documents after.2) (path 7) f →
        Document.Foremost (sample.documents after.2) (path 7) g → f = g := by
  intro after
  have fresh : sample.Fresh blank := ⟨Backend.works_empty, Backend.works_empty, rfl, rfl, rfl⟩
  have run : sample.Run sample.Spares blank after.1 after.2 := Store.Run.start.performAll tiedWrites
  have few : after.1.length < 2 ^ 64 := by decide +kernel
  obtain ⟨latest, first, ranked, ranks, least, greatest, _, agree⟩ :=
    ranked_of_run sample_apart fresh run few (path 7)
  obtain ⟨d, e, ⟨rfl, rfl⟩, identities, differ⟩ := tiedWrites_differ least greatest
  exact ⟨⟨sample_apart, fresh, run, few⟩, d, e, ranked, ranks, identities, agree.not.mp differ⟩

/-- After the two writes the most recent document at the path is answered to be that of one identity,
and the listing begins with that of the other. -/
theorem latest_not_listed_first :
    let after := sample.performAll tiedWrites [] blank
    (sample.Fresh blank ∧ sample.Run sample.Spares blank after.1 after.2) ∧
    ∃ latest first ranked, sample.Ranks after.2 (path 7) latest first ranked ∧ latest ≠ first := by
  intro after
  have fresh : sample.Fresh blank := ⟨Backend.works_empty, Backend.works_empty, rfl, rfl, rfl⟩
  have run : sample.Run sample.Spares blank after.1 after.2 := Store.Run.start.performAll tiedWrites
  obtain ⟨⟨l, tracks, _⟩, _⟩ := Store.upkeep_of_run sample_apart fresh run (by decide +kernel)
  obtain ⟨up, down, ranked, ascending, descending, ranks⟩ := tracks.ranks sample_apart (path 7)
  rw [← tracks.documents] at ascending descending
  obtain ⟨d, e, _, _, differ⟩ := tiedWrites_differ ascending.newest?_picked descending.newest?_picked
  exact ⟨⟨fresh, run⟩, _, _, ranked, ranks, differ⟩

end Sample

end DocumentShare
