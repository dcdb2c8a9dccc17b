import DocumentShare.Proofs.Store.Obsolescence

/-!
# Convergence

Stores that ingest the same entries end up with the same ones, whatever the order and however often
each is offered (`converge_of_ingested`). `Ledger.Settled` is the invariant: an entry that is not
there is beaten by one that is, and none that is there is beaten. Documents above an entry make it
obsolete and it prunes the documents below, so an entry that goes is always beaten by what stays.
-/

namespace DocumentShare

open Work

section

variable [Crypto]

/-! ### Settled ledgers -/

namespace Ledger

omit [Crypto] in
/-- What makes an entry obsolete is that entry itself or beats it. -/
theorem Obsoletes.covered {l : Ledger} {e : Entry} (h : l.Obsoletes e)
    (share : ∀ d ∈ l.documents, d.entry.share = e.share) :
    ∃ d ∈ l.documents, d.entry = e ∨ d.entry.Beats e := by
  obtain ⟨d, live, identity, ⟨path, notNewer⟩ | ⟨above, newer⟩⟩ := h
  · refine ⟨d, live, ?_⟩
    rcases Entry.eq_or_isNewerThan (share d live).symm identity.symm path.symm notNewer with
      same | newer
    · exact .inl same.symm
    · exact .inr ⟨identity, .inl path, newer⟩
  · exact ⟨d, live, .inr ⟨identity, .inr above, newer⟩⟩

omit [Crypto] in
/-- What an entry that is not obsolete replaces or prunes is what it beats. -/
theorem Wrote.removed_iff {l l' : Ledger} {d e : Document} {brought : Bool}
    {previous : Option Document} {stale : List Document} (h : l.Wrote d brought previous stale l')
    (newest : ¬l.Obsoletes d.entry) (live : e ∈ l.documents) :
    previous = some e ∨ e ∈ stale ↔ d.entry.Beats e.entry := by
  rw [← h.yieldsTo_iff live]
  simp only [Document.yieldsTo, Bool.and_eq_true, Bool.or_eq_true, decide_eq_true_eq]
  constructor
  · rintro ⟨⟨identity, below⟩, there⟩
    refine ⟨identity.symm, Path.isPrefixOf_iff_eq_or_strict.mp below, ?_⟩
    rcases there with path | newer
    · by_contra notNewer
      exact newest ⟨e, live, identity, .inl ⟨path, by simpa using notNewer⟩⟩
    · exact newer
  · rintro ⟨identity, above, newer⟩
    exact ⟨⟨identity.symm, Path.isPrefixOf_iff_eq_or_strict.mpr above⟩, .inr newer⟩

/-- The ledger of a store of `share` that has been offered the entries `seen` with their payloads. -/
structure Settled (l : Ledger) (share : Share) (seen : List Entry) : Prop where
  balanced : l.Balanced 0
  backed : l.Backed
  stored : ∀ d ∈ l.documents, d.entry.payloadDigest ∈ l.payloads
  known : ∀ d ∈ l.documents, d.entry ∈ seen
  ofShare : ∀ e ∈ seen, e.share = share
  covered : ∀ e ∈ seen, ∃ d ∈ l.documents, d.entry = e ∨ d.entry.Beats e
  unbeaten : ∀ d ∈ l.documents, ∀ e ∈ l.documents, ¬d.entry.Beats e.entry

namespace Settled

variable {l l' : Ledger} {share : Share} {seen : List Entry} {e : Entry}

omit [Crypto] in
theorem empty (share : Share) (events : List Event) :
    (Ledger.empty.retold events).Settled share [] where
  balanced := rfl
  backed g stored := absurd stored (Finset.notMem_empty g)
  stored d live := absurd live (Finset.notMem_empty d)
  known d live := absurd live (Finset.notMem_empty d)
  ofShare _ member := absurd member List.not_mem_nil
  covered _ member := absurd member List.not_mem_nil
  unbeaten d live := absurd live (Finset.notMem_empty d)

omit [Crypto] in
theorem retold (settled : l.Settled share seen) (events : List Event) :
    (l.retold events).Settled share seen :=
  ⟨settled.balanced, settled.backed, settled.stored, settled.known, settled.ofShare,
    settled.covered, settled.unbeaten⟩

omit [Crypto] in
theorem mem_iff (settled : l.Settled share seen) :
    (∃ d ∈ l.documents, d.entry = e) ↔ e ∈ seen ∧ ∀ f ∈ seen, ¬f.Beats e := by
  constructor
  · rintro ⟨d, live, rfl⟩
    refine ⟨settled.known d live, fun f member beats => ?_⟩
    obtain ⟨d', live', rfl | above⟩ := settled.covered f member
    · exact settled.unbeaten d' live' d live beats
    · exact settled.unbeaten d' live' d live (above.trans beats)
  · rintro ⟨member, unbeaten⟩
    obtain ⟨d, live, same | beats⟩ := settled.covered e member
    · exact ⟨d, live, same⟩
    · exact absurd beats (unbeaten d.entry (settled.known d live))

omit [Crypto] in
/-- An entry that is not obsolete is not there, so there is room for it among all that is offered. -/
theorem room (settled : l.Settled share seen) (sound : l.Sound) {all : List Entry}
    (within : ∀ f ∈ seen, f ∈ all) (member : e ∈ all) (newest : ¬l.Obsoletes e) :
    l.documents.card + 1 ≤ all.length := by
  have distinct : Set.InjOn Document.entry l.documents := by
    intro d live d' live' same
    refine sound.distinct d live d' live' ?_
    rw [Document.key, Document.key, Document.identity, Document.identity, Document.path,
      Document.path, same]
  have fresh : e ∉ l.documents.image Document.entry := by
    intro there
    obtain ⟨d, live, rfl⟩ := Finset.mem_image.mp there
    exact newest ⟨d, live, rfl, .inl ⟨rfl, Entry.not_isNewerThan_self⟩⟩
  have offered : insert e (l.documents.image Document.entry) ⊆ all.toFinset := by
    intro f there
    rw [List.mem_toFinset]
    rcases Finset.mem_insert.mp there with rfl | there
    · exact member
    · obtain ⟨d, live, rfl⟩ := Finset.mem_image.mp there
      exact within d.entry (settled.known d live)
  calc l.documents.card + 1 = (insert e (l.documents.image Document.entry)).card := by
        rw [Finset.card_insert_of_notMem fresh, Finset.card_image_of_injOn distinct]
    _ ≤ all.toFinset.card := Finset.card_le_card offered
    _ ≤ all.length := List.toFinset_card_le all

omit [Crypto] in
theorem obsolete (settled : l.Settled share seen) (ofShare : e.share = share)
    (h : l.Obsoletes e) : l.Settled share (e :: seen) where
  balanced := settled.balanced
  backed := settled.backed
  stored := settled.stored
  known d live := List.mem_cons_of_mem e (settled.known d live)
  ofShare := List.forall_mem_cons.mpr ⟨ofShare, settled.ofShare⟩
  covered := by
    refine List.forall_mem_cons.mpr ⟨h.covered fun d live => ?_, settled.covered⟩
    rw [settled.ofShare d.entry (settled.known d live), ofShare]
  unbeaten := settled.unbeaten

omit [Crypto] in
theorem wrote (settled : l.Settled share seen) {d : Document} (ofShare : d.entry.share = share)
    (newest : ¬l.Obsoletes d.entry) {previous : Option Document} {stale : List Document}
    (h : l.Wrote d true previous stale l') : l'.Settled share (d.entry :: seen) := by
  have kept : ∀ e ∈ l.documents, ¬d.entry.Beats e.entry → e ∈ l'.documents := by
    intro e live unbeaten
    have stays := mt (h.removed_iff newest live).mp unbeaten
    rw [not_or] at stays
    exact h.mem_documents.mpr (.inr ⟨live, stays.1, stays.2⟩)
  have old : ∀ e ∈ l'.documents, e ≠ d → e ∈ l.documents ∧ ¬d.entry.Beats e.entry := by
    intro e live other
    obtain ⟨before, notPrevious, notStale⟩ := (h.mem_documents.mp live).resolve_left other
    refine ⟨before, fun beats => ?_⟩
    rcases (h.removed_iff newest before).mpr beats with found | member
    · exact notPrevious found
    · exact notStale member
  have balanced := h.balanced settled.balanced
  refine ⟨balanced, fun g stored => ((h.mem_payloads settled.backed).mp stored).2, ?_, ?_,
    List.forall_mem_cons.mpr ⟨ofShare, settled.ofShare⟩, ?_, ?_⟩
  · intro e live
    refine (h.mem_payloads settled.backed).mpr ⟨?_, balanced.counted live⟩
    by_cases same : e = d
    · exact .inr ⟨rfl, by rw [same]⟩
    · exact .inl (settled.stored e (old e live same).1)
  · intro e live
    by_cases same : e = d
    · rw [same]
      exact List.mem_cons_self
    · exact List.mem_cons_of_mem _ (settled.known e (old e live same).1)
  · refine List.forall_mem_cons.mpr ⟨⟨d, h.live, .inl rfl⟩, fun f member => ?_⟩
    -- What covered an entry still does, or the new document beats it and with it the entry.
    obtain ⟨e, live, covers⟩ := settled.covered f member
    by_cases beats : d.entry.Beats e.entry
    · refine ⟨d, h.live, .inr ?_⟩
      rcases covers with same | above
      · exact same ▸ beats
      · exact beats.trans above
    · exact ⟨e, kept e live beats, covers⟩
  · have held : NoneBeats (fun _ => True) l.documents :=
      fun f live _ e there => settled.unbeaten e there f live
    intro e live f live'
    exact h.noneBeats_of_newest held newest f live' trivial e live

end Settled

end Ledger

/-! ### Runs that only ingest -/

/-- An entry as it is offered to stores, with its token and payload. -/
structure Parcel where
  entry : Entry
  token : Token
  payload : Bytes

namespace Parcel

/-- A parcel that a store of the share has no reason to refuse. -/
structure Genuine (p : Parcel) (share : Share) : Prop where
  ofShare : p.entry.share = share
  authorised : p.token.authorises p.entry
  matching : Archive.matchesPayload p.entry p.payload

def call (p : Parcel) : Call := .ingest p.entry p.token (some p.payload)

/-- An entry of the parcels that no other beats. -/
def Wins (parcels : List Parcel) (e : Entry) : Prop :=
  e ∈ parcels.map Parcel.entry ∧ ∀ f ∈ parcels.map Parcel.entry, ¬f.Beats e

end Parcel

def Exchange.offered (log : List Exchange) : List Entry :=
  log.filterMap fun x =>
    match x.call with
    | .ingest e _ _ => some e
    | _ => none

/-- The call answered, and the answer is neither a refusal nor that pruning was prevented. -/
def Exchange.Accepted (x : Exchange) : Prop :=
  x.reply = .ok (.outcome .obsolete) ∨ ∃ d pruned, x.reply = .ok (.outcome (.success d pruned))

namespace Store

variable {s : Store} {t u : Site} {log : List Exchange}

/-- The entry that a store has of an identity at a path. -/
def entryAt (s : Store) (t : Site) (identity : Identity) (path : Path) :
    Except StoreError (Option Entry) :=
  ((s.onArchive (Archive.get identity path)).runOn t).1.map (·.map Document.entry)

/-- A store with its own backends, empty at first, has been offered the parcels in some order, each
at least once, and nothing else. -/
structure Ingested (s : Store) (parcels : List Parcel) (t : Site) (log : List Exchange) (u : Site) :
    Prop where
  apart : s.Apart
  fresh : s.Fresh t
  run : s.Run s.Spares t log u
  calls : ∀ c, c ∈ log.map Exchange.call ↔ c ∈ parcels.map Parcel.call

variable {parcels : List Parcel}

theorem Tracks.entryAt {l : Ledger} (apart : s.Apart) (tracks : s.Tracks t l) (identity : Identity)
    (path : Path) : ∃ o, s.entryAt t identity path = .ok o ∧
      ∀ e, o = some e ↔ ∃ d ∈ l.documents, d.entry = e ∧ e.identity = identity ∧ e.path = path := by
  have reading := Tracks.reading apart (Archive.Tracks.get tracks identity path)
  rcases reading.cases with ⟨o, answer, here, _⟩ | ⟨_, _, impossible⟩
  · refine ⟨o.map Document.entry, by rw [Store.entryAt, answer]; rfl, fun e => ?_⟩
    rw [Option.map_eq_some_iff]
    constructor
    · rintro ⟨d, found, rfl⟩
      obtain ⟨live, identities, paths⟩ := (here d).mp found
      exact ⟨d, live, rfl, identities, paths⟩
    · rintro ⟨d, live, rfl, identities, paths⟩
      exact ⟨d, (here d).mpr ⟨live, identities, paths⟩, rfl⟩
  · exact impossible.elim

/-- Ingesting a genuine parcel settles its entry with those before. -/
theorem Tracks.offer {l : Ledger} {seen : List Entry} {p : Parcel} (apart : s.Apart)
    (tracks : s.Tracks t l) (settled : l.Settled s.share seen) (genuine : p.Genuine s.share)
    (room : ¬l.Obsoletes p.entry → l.documents.card + 1 < 256 ^ 8) :
    (s.perform p.call).Answers t fun r u => Exchange.Accepted ⟨p.call, .ok r⟩ ∧
      ∃ l', s.Tracks u l' ∧ l'.Settled s.share (p.entry :: seen) := by
  have done := tracks.ingest apart settled.balanced room p.token (some p.payload)
  refine (done.mono ?_ fun _ _ => id).map fun _ _ => id
  rintro outcome u ⟨l', ingests, tracks⟩
  cases ingests with
  | refused refusal =>
    have accepted : Archive.refusal? s.share p.entry p.token (some p.payload) = none := by
      refine Archive.refusal?_eq_none.mpr ⟨genuine.ofShare, genuine.authorised, ?_⟩
      rintro _ ⟨⟩
      exact genuine.matching
    rw [accepted] at refusal
    cases refusal
  | obsolete accepted h =>
    exact ⟨.inl rfl, l, tracks, settled.obsolete genuine.ofShare h⟩
  | @written previous stale accepted newest here pruned =>
    have wrote := Ledger.wrote_acceptance (d := ⟨p.entry, p.token⟩) true here pruned
    exact ⟨.inr ⟨_, _, rfl⟩, _, tracks, settled.wrote genuine.ofShare newest wrote⟩

/-- The invariant holds however often and in which order the parcels were offered. Only the number
of parcels matters for the counts. -/
theorem settled_of_run (apart : s.Apart) (fresh : s.Fresh t) (run : s.Run s.Spares t log u)
    (genuine : ∀ p ∈ parcels, p.Genuine s.share) (few : parcels.length < 256 ^ 8)
    (calls : ∀ x ∈ log, ∃ p ∈ parcels, p.call = x.call) :
    (∃ l, s.Tracks u l ∧ l.Settled s.share (Exchange.offered log)) ∧ ∀ x ∈ log, x.Accepted := by
  induction run with
  | start =>
    exact ⟨⟨_, fresh.tracks, Ledger.Settled.empty _ _⟩, by simp⟩
  | @aside log u v run besides ih =>
    obtain ⟨⟨l, tracks, settled⟩, accepted⟩ := ih calls
    exact ⟨⟨_, besides.tracks tracks, settled.retold _⟩, accepted⟩
  | @call log u run c ih =>
    obtain ⟨⟨p, member, rfl⟩, before⟩ := List.forall_mem_cons.mp calls
    obtain ⟨⟨l, tracks, settled⟩, accepted⟩ := ih before
    have within : ∀ e ∈ Exchange.offered log, e ∈ parcels.map Parcel.entry := by
      intro e offered
      obtain ⟨x, told, same⟩ := List.mem_filterMap.mp offered
      obtain ⟨q, listed, call⟩ := before x told
      rw [← call] at same
      exact List.mem_map.mpr ⟨q, listed, Option.some.inj same⟩
    have room : ¬l.Obsoletes p.entry → l.documents.card + 1 < 256 ^ 8 := by
      intro newest
      have bound := settled.room tracks.sound within (List.mem_map_of_mem member) newest
      rw [List.length_map] at bound
      exact Nat.lt_of_le_of_lt bound few
    rcases (tracks.offer apart settled (genuine p member) room).cases with
      ⟨r, answer, accepted', l', tracks', settled'⟩ | ⟨_, _, impossible⟩
    · rw [answer]
      exact ⟨⟨l', tracks', settled'⟩, List.forall_mem_cons.mpr ⟨accepted', accepted⟩⟩
    · exact impossible.elim

/-- The documents that a store ends up with are those of the winning entries, and their payloads are
the ones that are stored. -/
theorem Ingested.settled (ingested : s.Ingested parcels t log u)
    (genuine : ∀ p ∈ parcels, p.Genuine s.share) (few : parcels.length < 256 ^ 8) :
    (∃ l, s.Tracks u l ∧ l.Settled s.share (Exchange.offered log) ∧
      ∀ e, (∃ d ∈ l.documents, d.entry = e) ↔ Parcel.Wins parcels e) ∧ ∀ x ∈ log, x.Accepted := by
  have calls : ∀ x ∈ log, ∃ p ∈ parcels, p.call = x.call := by
    intro x told
    exact List.mem_map.mp ((ingested.calls x.call).mp (List.mem_map_of_mem told))
  have offered : ∀ e, e ∈ Exchange.offered log ↔ e ∈ parcels.map Parcel.entry := by
    intro e
    constructor
    · intro there
      obtain ⟨x, told, same⟩ := List.mem_filterMap.mp there
      obtain ⟨p, listed, call⟩ := calls x told
      rw [← call] at same
      exact List.mem_map.mpr ⟨p, listed, Option.some.inj same⟩
    · intro listed
      obtain ⟨p, member, rfl⟩ := List.mem_map.mp listed
      obtain ⟨x, told, call⟩ := List.mem_map.mp
        ((ingested.calls p.call).mpr (List.mem_map_of_mem member))
      refine List.mem_filterMap.mpr ⟨x, told, ?_⟩
      rw [call]
      rfl
  obtain ⟨⟨l, tracks, settled⟩, accepted⟩ :=
    settled_of_run ingested.apart ingested.fresh ingested.run genuine few calls
  refine ⟨⟨l, tracks, settled, fun e => ?_⟩, accepted⟩
  rw [settled.mem_iff]
  simp only [offered]
  rfl

theorem Ingested.entryAt (ingested : s.Ingested parcels t log u)
    (genuine : ∀ p ∈ parcels, p.Genuine s.share) (few : parcels.length < 256 ^ 8)
    (identity : Identity) (path : Path) : ∃ o, s.entryAt u identity path = .ok o ∧
      ∀ e, o = some e ↔ Parcel.Wins parcels e ∧ e.identity = identity ∧ e.path = path := by
  obtain ⟨⟨l, tracks, settled, wins⟩, _⟩ := ingested.settled genuine few
  obtain ⟨o, answer, found⟩ := tracks.entryAt ingested.apart identity path
  refine ⟨o, answer, fun e => ?_⟩
  rw [found e, ← wins e]
  simp only [exists_and_right, ← and_assoc]

theorem Ingested.payload_iff (ingested : s.Ingested parcels t log u)
    (genuine : ∀ p ∈ parcels, p.Genuine s.share) (few : parcels.length < 256 ^ 8) (key : Bytes) :
    ((s.archive u).payloads.contents.get? key).isSome ↔
      ∃ e, Parcel.Wins parcels e ∧ key = e.payloadDigest.bytes := by
  obtain ⟨⟨l, tracks, settled, wins⟩, _⟩ := ingested.settled genuine few
  constructor
  · intro there
    obtain ⟨payload, stored⟩ := Option.isSome_iff_exists.mp there
    obtain ⟨d, live, named, _⟩ := tracks.describes.held settled.balanced settled.backed stored
    exact ⟨d.entry, (wins d.entry).mp ⟨d, live, rfl⟩, named⟩
  · rintro ⟨e, winner, rfl⟩
    obtain ⟨d, live, rfl⟩ := (wins e).mpr winner
    exact (tracks.describes.stored _).mp (settled.stored d live)

end Store

/-- Stores that are offered the same parcels, in whatever order, end with the same entries and
payloads: those that no parcel beats. -/
theorem converge_of_ingested {s s' : Store} {t u t' u' : Site} {log log' : List Exchange}
    {parcels : List Parcel} (share : s'.share = s.share)
    (genuine : ∀ p ∈ parcels, p.Genuine s.share) (few : parcels.length < 2 ^ 64)
    (here : s.Ingested parcels t log u) (there : s'.Ingested parcels t' log' u') :
    (∀ identity path, ∃ o,
      s.entryAt u identity path = .ok o ∧ s'.entryAt u' identity path = .ok o ∧
      ∀ e, o = some e ↔ Parcel.Wins parcels e ∧ e.identity = identity ∧ e.path = path) ∧
    (∀ key, ((s.archive u).payloads.contents.get? key).isSome =
      ((s'.archive u').payloads.contents.get? key).isSome) ∧
    ∀ x ∈ log ++ log', x.Accepted := by
  have genuine' : ∀ p ∈ parcels, p.Genuine s'.share := share ▸ genuine
  refine ⟨fun identity path => ?_, fun key => ?_, fun x told => ?_⟩
  · obtain ⟨o, answer, found⟩ := here.entryAt genuine few identity path
    obtain ⟨o', answer', found'⟩ := there.entryAt genuine' few identity path
    have same : o' = o := Option.ext fun e => (found' e).trans (found e).symm
    exact ⟨o, answer, same ▸ answer', found⟩
  · rw [Bool.eq_iff_iff, here.payload_iff genuine few, there.payload_iff genuine' few]
  · rcases List.mem_append.mp told with first | second
    · exact (here.settled genuine few).2 x first
    · exact (there.settled genuine' few).2 x second

end

section Sample

open Crypto.Transparent

attribute [local instance] Crypto.transparent

/-- An entry below `delegatedEntry`, and older. -/
def olderEntryBelow : Entry := ⟨share 1, identity 1, below 7 1, 7, 0, .zero 32⟩

def twoParcels : List Parcel :=
  [⟨olderEntryBelow, ⟨delegated, (keypair .identity 3).sign olderEntryBelow.encode⟩, []⟩,
    ⟨delegatedEntry, delegatedToken, []⟩]

def ingestAll (order : List Parcel) : List Exchange × Site :=
  sample.performAll (order.map Parcel.call) [] blank

theorem ingested_ingestAll {order parcels : List Parcel} (same : ∀ p, p ∈ order ↔ p ∈ parcels) :
    sample.Ingested parcels blank (ingestAll order).1 (ingestAll order).2 where
  apart := sample_apart
  fresh := ⟨Backend.works_empty, Backend.works_empty, rfl, rfl, rfl⟩
  run := Store.Run.start.performAll _
  calls c := by
    rw [ingestAll, Store.calls_performAll]
    simp [same]

/-- The older entry first, and the newer one first and once more. -/
theorem converge_of_ingested_twoParcels :
    let first := ingestAll twoParcels
    let second := ingestAll (twoParcels.reverse ++ twoParcels)
    (∀ p ∈ twoParcels, p.Genuine sample.share) ∧
    sample.Ingested twoParcels blank first.1 first.2 ∧
    sample.Ingested twoParcels blank second.1 second.2 ∧
    (∀ identity path, ∃ o, sample.entryAt first.2 identity path = .ok o ∧
      sample.entryAt second.2 identity path = .ok o) ∧
    sample.entryAt first.2 (identity 1) delegatedEntry.path = .ok (some delegatedEntry) ∧
    sample.entryAt first.2 (identity 1) olderEntryBelow.path = .ok none ∧
    ∀ x ∈ first.1 ++ second.1, x.Accepted := by
  intro first second
  have genuine : ∀ p ∈ twoParcels, p.Genuine sample.share := by
    refine List.forall_mem_cons.mpr ⟨?_, List.forall_mem_singleton.mpr ?_⟩
    · exact ⟨rfl, by decide, by decide⟩
    · exact ⟨rfl, by decide, by decide⟩
  have here : sample.Ingested twoParcels blank first.1 first.2 := ingested_ingestAll fun _ => Iff.rfl
  have there : sample.Ingested twoParcels blank second.1 second.2 :=
    ingested_ingestAll fun p => by simp
  obtain ⟨entries, _, accepted⟩ := converge_of_ingested rfl genuine (by decide) here there
  refine ⟨genuine, here, there, fun identity path => ?_, by decide +kernel, by decide +kernel,
    accepted⟩
  obtain ⟨o, answer, answer', _⟩ := entries identity path
  exact ⟨o, answer, answer'⟩

end Sample

end DocumentShare
