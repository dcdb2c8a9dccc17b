import DocumentShare.Proofs.Store.Convergence
import DocumentShare.Proofs.Store.Vouching

/-!
# Cleared documents

A document is cleared one microsecond after it, which makes the clear win everywhere as long as there is
a later microsecond (`clear_wins_of_run`). `Unbeaten` is the invariant behind this: a document that has
one is not beaten by another, so neither is what clears it. At the last timestamp the clear has no time
of its own left and is ranked by its digest.
-/

namespace DocumentShare

open Work

/-! ### The entry of a clear -/

namespace Entry

variable {e f : Entry}

/-- There is a timestamp after that of the entry. -/
def HasLater (e : Entry) : Prop := e.timestamp.toNat + 1 < UInt64.size

instance (e : Entry) : Decidable e.HasLater :=
  inferInstanceAs (Decidable (e.timestamp.toNat + 1 < UInt64.size))

theorem isNewerThan_of_later (later : f.timestamp < e.timestamp) : e.isNewerThan f := by
  rw [isNewerThan_iff, recency, Std.compare_eq_lt.mpr later]
  rfl

end Entry

namespace Store

variable [Crypto] {s : Store} {d : Document} {identity : Identity} {path : Path}

theorem timestamp_clearing : (s.clearing d identity path).timestamp.toNat
    = min (d.timestamp.toNat + 1) (UInt64.size - 1) := by
  have small : min (d.timestamp.toNat + 1) (UInt64.size - 1) < 2 ^ 64 := by
    have : UInt64.size = 2 ^ 64 := rfl
    omega
  exact Nat.mod_eq_of_lt small

/-- A clear is newer if it has a timestamp of its own, and else if its digest is the greater one. -/
theorem clearing_isNewerThan_iff : (s.clearing d identity path).isNewerThan d.entry ↔
    d.entry.HasLater ∨ compare d.entry.payloadDigest (Crypto.digest []) = .lt := by
  have stamped : (s.clearing d identity path).timestamp.toNat
      = min (d.entry.timestamp.toNat + 1) (UInt64.size - 1) := timestamp_clearing
  have bound := d.entry.timestamp.toNat_lt
  have size : UInt64.size = 2 ^ 64 := rfl
  by_cases later : d.entry.HasLater
  · unfold Entry.HasLater at later
    have after : d.entry.timestamp < (s.clearing d identity path).timestamp := by
      rw [UInt64.lt_iff_toNat_lt]
      omega
    simp [Entry.isNewerThan_of_later after, Entry.HasLater, later]
  · unfold Entry.HasLater at later
    have same : d.entry.timestamp = (s.clearing d identity path).timestamp := by
      apply UInt64.toNat_inj.mp
      omega
    have empty : (s.clearing d identity path).payloadDigest = Crypto.digest [] := rfl
    have shortest : compare d.entry.payloadLength (s.clearing d identity path).payloadLength ≠ .lt := by
      rw [ne_eq, Std.compare_eq_lt, UInt64.not_lt]
      exact UInt64.le_iff_toNat_le.mpr (Nat.zero_le _)
    rw [Entry.isNewerThan_iff, Entry.recency, ← same, Std.compare_self, empty, Ordering.eq_then,
      Ordering.then_eq_lt]
    simp [shortest, Entry.HasLater, later]

theorem clearing_beats (sameIdentity : d.identity = identity) (samePath : d.path = path)
    (later : d.entry.HasLater) : (s.clearing d identity path).Beats d.entry where
  identity := sameIdentity.symm
  above := .inl samePath.symm
  newer := clearing_isNewerThan_iff.mpr (.inl later)

theorem later_of_clearing (later : (s.clearing d identity path).HasLater) : d.entry.HasLater := by
  unfold Entry.HasLater at later ⊢
  rw [timestamp_clearing, Document.timestamp] at later
  omega

end Store

/-! ### Documents that are not beaten -/

/-- No document that can be cleared with a later timestamp is beaten by another. -/
def Unbeaten (documents : Finset Document) : Prop :=
  ∀ d ∈ documents, d.entry.HasLater → ∀ a ∈ documents, ¬a.entry.Beats d.entry

namespace Ledger

variable [Crypto] {l l' : Ledger} {s : Store}

theorem Clears.unbeaten {identity : Identity} {path : Path} {r : Except StoreError Document}
    (clears : l.Clears s identity path r l') (unbeaten : Unbeaten l.documents) :
    Unbeaten l'.documents := by
  cases clears with
  | absent here => exact unbeaten
  | failed error => exact unbeaten
  | unauthorised here => exact unbeaten
  | @written existing token stale here upright pruned =>
    have wrote := wrote_tell (d := ⟨s.clearing existing identity path, token⟩) true here pruned
      (.documentSet ⟨s.clearing existing identity path, token⟩)
    have held : NoneBeats Entry.HasLater l.documents := unbeaten
    refine wrote.noneBeats held fun later a live _ beats => ?_
    obtain ⟨before, sameIdentity, samePath⟩ := (here existing).mp rfl
    have later := Store.later_of_clearing later
    have above := beats.trans (Store.clearing_beats sameIdentity samePath later)
    exact unbeaten existing before later a live above

end Ledger

/-! ### Runs -/

namespace Store

variable [Crypto] {s : Store} {t u : Site} {log : List Exchange}

theorem unbeaten_of_run (apart : s.Apart) (fresh : s.Fresh t) (run : s.Run s.Spares t log u)
    (few : log.length < 256 ^ 8) : Unbeaten (s.documents u) := by
  have held : Ledger.NoneBeats Entry.HasLater (s.documents u) :=
    noneBeats_of_run apart fresh run few fun _ _ _ _ _ _ _ _ clears unbeaten => clears.unbeaten unbeaten
  exact held

theorem Run.mono {aside aside' : Site → Site → Prop} (weaker : ∀ v w, aside v w → aside' v w)
    (run : s.Run aside t log u) : s.Run aside' t log u := by
  induction run with
  | start => exact .start
  | call run c ih => exact ih.call c
  | aside run besides ih => exact ih.aside (weaker _ _ besides)

/-- A store that started empty has come, by calls, to have a document with the entry. -/
structure Holding (s : Store) (e : Entry) (t : Site) (log : List Exchange) (u : Site) : Prop where
  apart : s.Apart
  fresh : s.Fresh t
  run : s.Run s.Spares t log u
  few : log.length + 1 < 2 ^ 64
  has : ∃ d ∈ s.documents u, d.entry = e

/-- What a store that holds an entry answers when another for its place comes from elsewhere. -/
theorem Holding.ingest {e e' : Entry} (holding : s.Holding e t log u)
    (identity : e'.identity = e.identity) (path : e'.path = e.path) {token : Token}
    {payload : Option Bytes} (accepted : Archive.refusal? s.share e' token payload = none) :
    (e'.isNewerThan e = false → ((s.ingest e' token payload).runOn u).1 = .ok .obsolete) ∧
    (e'.isNewerThan e → e.HasLater →
      ∃ pruned, ((s.ingest e' token payload).runOn u).1 = .ok (.success ⟨e', token⟩ pruned)) := by
  obtain ⟨apart, fresh, run, few, d, live, rfl⟩ := holding
  have short : log.length < 256 ^ 8 := by omega
  have unbeaten := unbeaten_of_run apart fresh run short
  obtain ⟨⟨l, tracks, upkeep⟩, _⟩ := upkeep_of_run apart fresh run short
  rw [tracks.documents] at live unbeaten
  have room : ¬l.Obsoletes e' → l.documents.card + 1 < 256 ^ 8 := by
    intro _
    have := upkeep.few
    omega
  obtain ⟨o, answer, l', ingests, _⟩ | ⟨_, _, impossible⟩ :=
    (tracks.ingest apart upkeep.balanced room token payload).cases
  · rw [answer]
    cases ingests with
    | refused refusal =>
      rw [accepted] at refusal
      cases refusal
    | obsolete _ obsolete =>
      constructor
      · intro _
        rfl
      · intro newer later
        obtain ⟨a, there, sameIdentity, ⟨samePath, notNewer⟩ | ⟨strict, above⟩⟩ := obsolete
        · have same : a.key = d.key :=
            Document.key_inj.mpr ⟨sameIdentity.trans identity, samePath.trans path⟩
          rw [Archive.Tracks.sound tracks |>.distinct a there d live same, newer] at notNewer
          cases notNewer
        · have beats : a.entry.Beats d.entry :=
            ⟨sameIdentity.trans identity, .inr (path ▸ strict), Entry.isNewerThan_trans above newer⟩
          exact absurd beats (unbeaten d live later a there)
    | written _ newest here pruned =>
      constructor
      · intro notNewer
        exact absurd ⟨d, live, identity.symm, .inl ⟨path.symm, notNewer⟩⟩ newest
      · intro _ _
        exact ⟨_, rfl⟩
  · exact impossible.elim

theorem proved_of_clear [Crypto.Lawful] {documents : Finset Document} {identity : Identity}
    {path : Path} {d : Document} (apart : s.Apart)
    (lists : (s.archive u).entries.contents.Lists documents) (keeps : s.KeepsCredentials u)
    (cleared : ((s.clear identity path).runOn u).1 = .ok d) : d.Proved s.share := by
  obtain ⟨_, answer, came⟩ | ⟨_, failure, _⟩ :=
    (comes_clear apart lists (authorises_proved apart keeps) identity path).cases
  · rw [cleared] at answer
    cases answer
    cases came with
    | made plan _ =>
      cases plan with
      | written _ _ proof => exact proof
  · rw [cleared] at failure
    cases failure

/-- What a clear that answers did, on a store that tracks a ledger. -/
theorem cleared_of_clear [Crypto.Lawful] {l : Ledger} {identity : Identity} {path : Path}
    {d : Document} (apart : s.Apart) (tracks : s.Tracks u l) (vouches : s.Vouches u)
    (balanced : l.Balanced 0) (room : l.documents.card + 1 < 256 ^ 8)
    (cleared : ((s.clear identity path).runOn u).1 = .ok d) :
    ∃ existing ∈ l.documents, existing.identity = identity ∧ existing.path = path ∧
      d.entry = s.clearing existing identity path ∧ d.Proved s.share ∧
      s.documents ((s.clear identity path).runOn u).2 ⊆ insert d (l.documents.erase existing) ∧
      d ∈ s.documents ((s.clear identity path).runOn u).2 := by
  obtain ⟨_, answer, l', clears, tracks'⟩ | ⟨_, failure, _⟩ :=
    (tracks.clear apart balanced room identity path).cases
  · rw [cleared] at answer
    cases answer
    cases clears with
    | @written existing token stale here upright pruned =>
      obtain ⟨before, sameIdentity, samePath⟩ := (here existing).mp rfl
      have wrote := Ledger.wrote_tell (d := ⟨s.clearing existing identity path, token⟩) true here
        pruned (.documentSet ⟨s.clearing existing identity path, token⟩)
      have proved := proved_of_clear apart (Archive.Tracks.lists tracks) vouches.credentials cleared
      refine ⟨existing, before, sameIdentity, samePath, rfl, proved, ?_, ?_⟩
      · rw [tracks'.documents]
        intro e live
        obtain rfl | ⟨there, kept, _⟩ := wrote.mem_documents.mp live
        · exact Finset.mem_insert_self _ _
        · have other : e ≠ existing := fun same => kept (congrArg some same.symm)
          exact Finset.mem_insert_of_mem (Finset.mem_erase.mpr ⟨other, there⟩)
      · rw [tracks'.documents]
        exact wrote.live
  · rw [cleared] at failure
    cases failure

end Store

/-- A clear is newer than what it replaces iff that has a later timestamp left or the lesser digest.
With a later timestamp left, every store with the replaced entry accepts it. -/
theorem clear_wins_of_run [Crypto] [Crypto.Lawful] {s : Store} {t u : Site} {log : List Exchange}
    (apart : s.Apart) (fresh : s.Fresh t) (bare : s.Bare t)
    (run : s.Run (fun v w => s.Spares v w ∧ s.Leaves v w) t log u) (few : log.length + 1 < 2 ^ 64)
    {identity : Identity} {path : Path} {d : Document}
    (cleared : ((s.clear identity path).runOn u).1 = .ok d) :
    ∃ existing ∈ s.documents u, existing.identity = identity ∧ existing.path = path ∧
      d.entry = s.clearing existing identity path ∧
      d ∈ s.documents ((s.clear identity path).runOn u).2 ∧
      (d.entry.isNewerThan existing.entry ↔ existing.entry.HasLater ∨
        compare existing.entry.payloadDigest (Crypto.digest []) = .lt) ∧
      (existing.entry.HasLater → ∀ a ∈ s.documents ((s.clear identity path).runOn u).2,
        ¬a.entry.Beats d.entry) ∧
      ∀ (r : Store) (t' u' : Site) (log' : List Exchange) (payload : Option Bytes),
        r.share = s.share → r.Holding existing.entry t' log' u' →
        (∀ p ∈ payload, Archive.matchesPayload d.entry p) →
        (existing.entry.HasLater →
          ∃ pruned, ((r.ingest d.entry d.token payload).runOn u').1 = .ok (.success d pruned)) ∧
        (d.entry.isNewerThan existing.entry = false →
          ((r.ingest d.entry d.token payload).runOn u').1 = .ok .obsolete) := by
  have alone : s.Run s.Spares t log u := run.mono fun _ _ => And.left
  have short : log.length < 256 ^ 8 := by omega
  obtain ⟨⟨l, tracks, upkeep⟩, _⟩ := Store.upkeep_of_run apart fresh alone short
  have vouches := Store.vouches_of_run apart bare (run.mono fun _ _ => And.right)
  have room : l.documents.card + 1 < 256 ^ 8 := by
    have := upkeep.few
    omega
  obtain ⟨existing, before, rfl, rfl, entry, proved, left, live⟩ :=
    Store.cleared_of_clear apart tracks vouches upkeep.balanced room cleared
  have unbeaten := Store.unbeaten_of_run apart fresh alone short
  rw [tracks.documents] at unbeaten ⊢
  have newer : d.entry.isNewerThan existing.entry ↔ existing.entry.HasLater ∨
      compare existing.entry.payloadDigest (Crypto.digest []) = .lt := by
    rw [entry]
    exact Store.clearing_isNewerThan_iff
  refine ⟨existing, before, rfl, rfl, entry, live, newer, ?_, ?_⟩
  · intro later a there beats
    rw [entry] at beats
    have above := beats.trans (Store.clearing_beats rfl rfl later)
    obtain rfl | there := Finset.mem_insert.mp (left there)
    · rw [← entry] at beats
      exact beats.irrefl
    · exact unbeaten existing before later a (Finset.mem_of_mem_erase there) above
  · intro r t' u' log' payload share holding matching
    have accepted : Archive.refusal? r.share d.entry d.token payload = none :=
      Archive.refusal?_eq_none.mpr ⟨proved.ofShare.trans share.symm, proved.authorised, matching⟩
    have samePlace : d.entry.identity = existing.entry.identity ∧
        d.entry.path = existing.entry.path := by
      rw [entry]
      exact ⟨rfl, rfl⟩
    obtain ⟨obsolete, success⟩ := holding.ingest samePlace.1 samePlace.2 accepted
    exact ⟨fun later => success (newer.mpr (.inl later)) later, obsolete⟩

section Sample

open Crypto.Transparent

attribute [local instance] Crypto.transparent Crypto.transparent_lawful

/-- What identity 1 writes with the capability that it mints. -/
def signed (e : Entry) : Document :=
  ⟨e, ⟨⟨.write, share 1, identity 1, .communal, .empty, Nat.zero_le _⟩,
    (keypair .identity 1).sign e.encode⟩⟩

/-- One document, written at a timestamp. -/
def singleWrite (timestamp : UInt64) : List Call :=
  [.addIdentity (keypair .identity 1), .mint (share 1) (identity 1) .write true,
    .set (identity 1) (path 7) [1] timestamp false]

def single (timestamp : UInt64) : Document :=
  signed (Store.entryOf (share 1) (identity 1) (path 7) timestamp [1])

def emptied (timestamp : UInt64) : Document :=
  signed (sample.clearing (single timestamp) (identity 1) (path 7))

theorem clear_wins_of_run_singleWrite :
    let before := sample.performAll (singleWrite 8) [] blank
    (sample.Apart ∧ sample.Fresh blank ∧ sample.Bare blank ∧
      sample.Run (fun v w => sample.Spares v w ∧ sample.Leaves v w) blank before.1 before.2 ∧
      before.1.length + 1 < 2 ^ 64 ∧
      ((sample.clear (identity 1) (path 7)).runOn before.2).1 = .ok (emptied 8) ∧
      sample.Holding (single 8).entry blank before.1 before.2) ∧
    (emptied 8).entry.isNewerThan (single 8).entry ∧
    ∃ pruned, ((sample.ingest (emptied 8).entry (emptied 8).token none).runOn before.2).1
      = .ok (.success (emptied 8) pruned) := by
  intro before
  have fresh : sample.Fresh blank := ⟨Backend.works_empty, Backend.works_empty, rfl, rfl, rfl⟩
  have bare : sample.Bare blank := ⟨rfl, rfl⟩
  have run : sample.Run (fun v w => sample.Spares v w ∧ sample.Leaves v w) blank before.1 before.2 :=
    Store.Run.start.performAll (singleWrite 8)
  have alone : sample.Run sample.Spares blank before.1 before.2 :=
    Store.Run.start.performAll (singleWrite 8)
  have few : before.1.length + 1 < 2 ^ 64 := by decide +kernel
  have cleared : ((sample.clear (identity 1) (path 7)).runOn before.2).1 = .ok (emptied 8) := by
    decide +kernel
  have only : sample.documents before.2 = {single 8} := by decide +kernel
  have has : ∃ d ∈ sample.documents before.2, d.entry = (single 8).entry := by
    rw [only]
    exact ⟨_, Finset.mem_singleton_self _, rfl⟩
  have holding : sample.Holding (single 8).entry blank before.1 before.2 :=
    ⟨sample_apart, fresh, alone, few, has⟩
  obtain ⟨existing, live, _, _, _, _, newer, _, everywhere⟩ :=
    clear_wins_of_run sample_apart fresh bare run few cleared
  rw [only] at live
  obtain rfl := Finset.mem_singleton.mp live
  have later : (single 8).entry.HasLater := by decide
  obtain ⟨accepts, _⟩ := everywhere sample blank before.2 before.1 none rfl holding (by rintro p ⟨⟩)
  exact ⟨⟨sample_apart, fresh, bare, run, few, cleared, holding⟩, newer.mpr (.inl later),
    accepts later⟩

/-- At the last timestamp a clear keeps the timestamp of what it replaces and may be the older one. A
store that still holds the document does not accept it. -/
theorem clear_loses_at_last_timestamp :
    let last := (UInt64.size - 1).toUInt64
    let before := sample.performAll (singleWrite last) [] blank
    let d := emptied last
    sample.Run (fun v w => sample.Spares v w ∧ sample.Leaves v w) blank before.1 before.2 ∧
    sample.documents before.2 = {single last} ∧
    ((sample.clear (identity 1) (path 7)).runOn before.2).1 = .ok d ∧
    d.entry.isNewerThan (single last).entry = false ∧
    ((sample.ingest d.entry d.token none).runOn before.2).1 = .ok .obsolete := by
  intro last before d
  refine ⟨Store.Run.start.performAll (singleWrite last), ?_⟩
  decide +kernel

end Sample

end DocumentShare
