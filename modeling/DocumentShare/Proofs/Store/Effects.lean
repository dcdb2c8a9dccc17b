import DocumentShare.Proofs.Authority.Recency
import DocumentShare.Proofs.Store.Coherence
import DocumentShare.Proofs.Store.Listing

/-!
# What a write changes

A call that answers a document has put it in its place, and nothing else has gone but the older
documents of its identity strictly below (`written_of_run`). The scan that finds these goes over
bytes of keys; `Ledger.Stale` already speaks of paths, so here only the order of the paths is left.
-/

namespace DocumentShare

open Work

/-- Whether a document lies strictly below another of its identity and is older. -/
def Document.isPrunedBy (e d : Document) : Bool :=
  e.identity = d.identity && d.path.isStrictPrefixOf e.path && d.entry.isNewerThan e.entry

theorem Document.isPrunedBy_iff {e d : Document} : e.isPrunedBy d ↔
    e.identity = d.identity ∧ d.path.isStrictPrefixOf e.path ∧ d.entry.isNewerThan e.entry := by
  simp [isPrunedBy, and_assoc]

namespace Ledger

variable {l l' : Ledger} {d e : Document} {brought : Bool} {previous old : Option Document}
  {stale : List Document}

theorem Stale.mem_iff_isPrunedBy (pruned : l.Stale d.entry stale) :
    e ∈ stale ↔ e ∈ l.documents ∧ e.isPrunedBy d := by
  rw [pruned.mem_iff, Document.isPrunedBy_iff, Path.isStrictPrefixOf_iff]
  constructor
  · intro ⟨live, identity, below, other, newer⟩
    exact ⟨live, identity, ⟨below, other⟩, newer⟩
  · intro ⟨live, identity, ⟨below, other⟩, newer⟩
    exact ⟨live, identity, below, other, newer⟩

theorem Stale.paths_ascending (pruned : l.Stale d.entry stale) :
    (stale.map Document.path).Pairwise fun p q => compare p q = .lt := by
  rw [List.pairwise_map]
  refine pruned.ascending.imp_of_mem ?_
  intro e f member member' less
  have together : e.identity = f.identity :=
    ((pruned.mem_iff e).mp member).2.1.trans ((pruned.mem_iff f).mp member').2.1.symm
  have ranked : Order.identity.rank e f = .lt := by
    rw [← Order.compare_key]
    exact Bytes.compare_eq_lt_iff.mpr less
  rw [Order.rank, together, Std.compare_self] at ranked
  exact ranked

namespace Wrote

theorem documents_eq (wrote : l.Wrote d brought previous stale l') :
    l'.documents = insert d (l.documents.filter fun e =>
      ¬(e.identity = d.identity ∧ e.path = d.path) ∧ ¬e.isPrunedBy d) := by
  ext e
  rw [wrote.mem_documents, Finset.mem_insert, Finset.mem_filter]
  refine or_congr_right (and_congr_right fun live => ?_)
  refine and_congr (not_congr ?_) (not_congr ?_)
  · rw [wrote.here e]
    exact and_iff_right live
  · rw [wrote.pruned.mem_iff_isPrunedBy]
    exact and_iff_right live

/-- What there is at any place afterwards, given what there was. -/
theorem after {identity : Identity} {path : Path} (wrote : l.Wrote d brought previous stale l')
    (before : l.At identity path old) :
    l'.At identity path (if identity = d.identity ∧ path = d.path then some d
      else old.filter (!·.isPrunedBy d)) := by
  intro e
  rw [wrote.documents_eq, Finset.mem_insert, Finset.mem_filter]
  split
  · next here =>
    obtain ⟨rfl, rfl⟩ := here
    constructor
    · intro same
      cases same
      exact ⟨.inl rfl, rfl, rfl⟩
    · intro ⟨live, identities, paths⟩
      rcases live with rfl | ⟨_, elsewhere, _⟩
      · rfl
      · exact absurd ⟨identities, paths⟩ elsewhere
  · next elsewhere =>
    rw [Option.filter_eq_some_iff, before e, Bool.not_eq_true', Bool.not_eq_true]
    constructor
    · intro ⟨⟨live, identities, paths⟩, spared⟩
      subst identities paths
      exact ⟨.inr ⟨live, elsewhere, spared⟩, rfl, rfl⟩
    · intro ⟨live, identities, paths⟩
      subst identities paths
      rcases live with rfl | ⟨live, _, spared⟩
      · exact absurd ⟨rfl, rfl⟩ elsewhere
      · exact ⟨⟨live, rfl, rfl⟩, spared⟩

end Wrote

end Ledger

section

variable [Crypto]

/-- Where a call writes. -/
def Call.place? : Call → Option (Identity × Path)
  | .set identity path _ _ _ => some (identity, path)
  | .setAtAddress address path _ _ _ =>
    (Identifier.parse .identity address).toOption.map fun identity => (identity, path)
  | .clear identity path => some (identity, path)
  | .ingest entry _ _ => some (entry.identity, entry.path)
  | _ => none

/-- The document that was written, and the paths that were pruned where they are answered. -/
def Exchange.success? (x : Exchange) : Option (Document × Option (List Path)) :=
  match x.reply with
  | .ok (.outcome (.success d pruned)) => some (d, some pruned)
  | .ok (.document d) => some (d, none)
  | _ => none

/-- The step of the ledger that a call stands for if it answers the document it wrote. -/
structure Ledger.Succeeds (l : Ledger) (c : Call) (d : Document) (pruned? : Option (List Path))
    (l' : Ledger) : Prop where
  place : c.place? = some (d.identity, d.path)
  wrote : ∃ brought previous stale, l.Wrote d brought previous stale l' ∧
    ∀ paths ∈ pruned?, paths = stale.map Document.path

theorem Ledger.Sets.succeeds {l l' : Ledger} {e : Entry} {prune : Bool}
    {r : Except StoreError Outcome} (sets : l.Sets e prune r l') {c : Call}
    (place : c.place? = some (e.identity, e.path)) {d : Document} {pruned? : Option (List Path)}
    (success : Exchange.success? ⟨c, r.map .outcome⟩ = some (d, pruned?)) :
    l.Succeeds c d pruned? l' := by
  cases sets with
  | @written token previous stale newest upright here pruned permitted =>
    cases success
    exact ⟨place, true, previous, stale, Ledger.wrote_tell true here pruned _,
      fun _ member => (Option.mem_some_iff.mp member).symm⟩
  | _ => cases success

theorem Ledger.Performs.succeeds {s : Store} {l l' : Ledger} {c : Call} {r : Except StoreError Reply}
    (performs : l.Performs s c r l') {d : Document} {pruned? : Option (List Path)}
    (success : Exchange.success? ⟨c, r⟩ = some (d, pruned?)) : l.Succeeds c d pruned? l' := by
  cases performs with
  | set sets => exact sets.succeeds rfl success
  | setAtAddress named sets =>
    refine sets.succeeds ?_ success
    rw [Call.place?, named]
    rfl
  | clear clears =>
    cases clears with
    | @written existing token stale here upright pruned =>
      cases success
      exact ⟨rfl, true, _, stale, Ledger.wrote_tell true here pruned _, fun _ none => by cases none⟩
    | _ => cases success
  | ingest ingests =>
    cases ingests with
    | @written previous stale accepted newest here pruned =>
      cases success
      exact ⟨rfl, _, previous, stale, Ledger.wrote_acceptance _ here pruned,
        fun _ member => (Option.mem_some_iff.mp member).symm⟩
    | _ => cases success
  | _ => cases success

namespace Store

variable {s : Store} {t u : Site} {log : List Exchange}

/-- What a store answers for an identity and a path. -/
def documentAt (s : Store) (t : Site) (identity : Identity) (path : Path) :
    Except StoreError (Option Document) :=
  ((s.onArchive (Archive.get identity path)).runOn t).1

theorem Tracks.documentAt {l : Ledger} (apart : s.Apart) (tracks : s.Tracks t l)
    (identity : Identity) (path : Path) :
    ∃ o, s.documentAt t identity path = .ok o ∧ l.At identity path o := by
  obtain ⟨o, answer, here, _⟩ :=
    (Tracks.reading apart (Archive.Tracks.get tracks identity path)).ran
  exact ⟨o, answer, here⟩

theorem Tracks.documentAt_iff {l : Ledger} (apart : s.Apart) (tracks : s.Tracks t l)
    {identity : Identity} {path : Path} {d : Document} :
    s.documentAt t identity path = .ok (some d) ↔
      d ∈ l.documents ∧ d.identity = identity ∧ d.path = path := by
  obtain ⟨o, answer, here⟩ := tracks.documentAt apart identity path
  rw [answer, Except.ok.injEq]
  exact here d

end Store

omit [Crypto] in
theorem Ledger.At.unique {l : Ledger} {identity : Identity} {path : Path} {o o' : Option Document}
    (here : l.At identity path o) (here' : l.At identity path o') : o = o' := by
  ext d
  exact (here d).trans (here' d).symm

/-- What a write changes is its place and the older documents of its identity strictly below, and
these are the paths that it answers. -/
theorem written_of_run {s : Store} {t u : Site} {log : List Exchange} (apart : s.Apart)
    (fresh : s.Fresh t) (run : s.Run s.Spares t log u) (few : log.length + 1 < 2 ^ 64) (c : Call)
    {d : Document} {pruned? : Option (List Path)}
    (success : Exchange.success? ⟨c, ((s.perform c).runOn u).1⟩ = some (d, pruned?)) :
    let v := ((s.perform c).runOn u).2
    c.place? = some (d.identity, d.path) ∧
    s.documents v = insert d ((s.documents u).filter fun e =>
      ¬(e.identity = d.identity ∧ e.path = d.path) ∧ ¬e.isPrunedBy d) ∧
    (∀ identity path, ∃ before, s.documentAt u identity path = .ok before ∧
      s.documentAt v identity path = .ok
        (if identity = d.identity ∧ path = d.path then some d
          else before.filter (!·.isPrunedBy d))) ∧
    ∀ paths ∈ pruned?, paths.Pairwise (fun p q => compare p q = .lt) ∧
      ∀ p, p ∈ paths ↔ ∃ e ∈ s.documents u, e.isPrunedBy d ∧ e.path = p := by
  intro v
  obtain ⟨⟨l, tracks, upkeep⟩, _⟩ := Store.upkeep_of_run apart fresh run (by omega)
  have room : l.documents.card + 1 < 256 ^ 8 :=
    Nat.lt_of_le_of_lt (Nat.succ_le_succ upkeep.few) few
  obtain ⟨l', performs, tracks'⟩ := tracks.perform apart upkeep.balanced room c
  obtain ⟨place, _, previous, stale, wrote, answered⟩ := performs.succeeds success
  rw [tracks.documents, tracks'.documents]
  refine ⟨place, wrote.documents_eq, fun identity path => ?_, fun paths member => ?_⟩
  · obtain ⟨before, answer, here⟩ := tracks.documentAt apart identity path
    obtain ⟨after, answer', there⟩ := tracks'.documentAt apart identity path
    refine ⟨before, answer, ?_⟩
    rw [answer', there.unique (wrote.after here)]
  · rw [answered paths member]
    refine ⟨wrote.pruned.paths_ascending, fun p => ?_⟩
    simp only [List.mem_map, wrote.pruned.mem_iff_isPrunedBy, and_assoc]

end

section Sample

open Crypto.Transparent

attribute [local instance] Crypto.transparent

/-- A write at the empty path prunes both documents of the three writes. -/
theorem written_of_run_pruning_two :
    let after := sample.performAll threeWrites [] blank
    let c : Call := .set (identity 1) .empty [3] 10 true
    let r := (sample.perform c).runOn after.2
    ∃ d, (sample.Apart ∧ sample.Fresh blank ∧ sample.Run sample.Spares blank after.1 after.2 ∧
        after.1.length + 1 < 2 ^ 64 ∧
        Exchange.success? ⟨c, r.1⟩ = some (d, some [path 7, path 8])) ∧
      c.place? = some (d.identity, d.path) ∧
      (∀ p, p ∈ [path 7, path 8] ↔ ∃ e ∈ sample.documents after.2, e.isPrunedBy d ∧ e.path = p) ∧
      (∀ i p, ∃ before, sample.documentAt after.2 i p = .ok before ∧
        sample.documentAt r.2 i p = .ok (if i = d.identity ∧ p = d.path then some d
          else before.filter (!·.isPrunedBy d))) ∧
      sample.documents r.2 = {d} := by
  intro after c r
  have fresh : sample.Fresh blank := ⟨Backend.works_empty, Backend.works_empty, rfl, rfl, rfl⟩
  have run : sample.Run sample.Spares blank after.1 after.2 := Store.Run.start.performAll threeWrites
  have few : after.1.length + 1 < 2 ^ 64 := by decide +kernel
  have answered : (Exchange.success? ⟨c, r.1⟩).bind Prod.snd = some [path 7, path 8] := by
    decide +kernel
  obtain ⟨⟨d, _⟩, success, rfl⟩ := Option.bind_eq_some_iff.mp answered
  obtain ⟨place, documents, places, pruned⟩ := written_of_run sample_apart fresh run few c success
  have alone : (sample.documents r.2).card = 1 := by decide +kernel
  refine ⟨d, ⟨sample_apart, fresh, run, few, success⟩, place, (pruned _ rfl).2, places, ?_⟩
  obtain ⟨e, only⟩ := Finset.card_eq_one.mp alone
  have written : d ∈ sample.documents r.2 := documents ▸ Finset.mem_insert_self _ _
  rw [only, Finset.mem_singleton] at written
  rw [only, written]

end Sample

end DocumentShare
