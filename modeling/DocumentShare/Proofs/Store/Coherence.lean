import DocumentShare.Proofs.Crypto.Transparent
import DocumentShare.Proofs.Store.Steps

/-!
# Coherence of a store

Whatever calls a store has answered, its records are those of its documents and no others
(`coherent_of_run`). A step lemma says what each call does to the ledger, and `Ledger.Upkeep` is the
invariant that such steps preserve: what is counted is what the documents have, what is stored is
counted, and a payload that came with a document stays while the document does. Counts are eight
bytes long, which bounds the number of calls.
-/

namespace DocumentShare

open Work

section

variable [Crypto]

/-! ### What calls write -/

/-- Whether the payload comes with what a call writes. -/
def Call.brings : Call → Bool
  | .ingest _ _ payload => payload.isSome
  | _ => true

/-- Whether a document gives way to another: it is in the same place, or below and older. -/
def Document.yieldsTo (e d : Document) : Bool :=
  e.identity = d.identity && d.path.isPrefixOf e.path &&
    (e.path = d.path || d.entry.isNewerThan e.entry)

namespace Exchange

/-- The document that a call wrote, and whether its payload came with it. -/
def written? (x : Exchange) : Option (Document × Bool) :=
  match x.reply with
  | .ok (.outcome (.success d _)) => some (d, x.call.brings)
  | .ok (.document d) => some (d, x.call.brings)
  | _ => none

/-- The error that a call answered, also where it answered it as an outcome. -/
def error? (x : Exchange) : Option StoreError :=
  match x.reply with
  | .error e => some e
  | .ok (.outcome (.refused e)) => some e
  | _ => none

/-- The documents that are left of those that the calls of a log wrote. -/
def live : List Exchange → Finset Document
  | [] => ∅
  | x :: log =>
    match x.written? with
    | some (d, _) => insert d ((live log).filter fun e => !e.yieldsTo d)
    | none => live log

/-- Whether the payload came with the last write of a document, if there was one. -/
def lastWrite (log : List Exchange) (d : Document) : Option Bool :=
  log.findSome? fun x => x.written?.bind fun w => if w.1 = d then some w.2 else none

end Exchange

namespace Ledger

/-- The step of the ledger that an exchange stands for. -/
def Follows (l : Ledger) (x : Exchange) (l' : Ledger) : Prop :=
  match x.written? with
  | some (d, brought) => ∃ previous stale, l.Wrote d brought previous stale l'
  | none => l.Kept l'

omit [Crypto] in
/-- What gives way to a document that is written is what it replaces or prunes. -/
theorem Wrote.yieldsTo_iff {l l' : Ledger} {d e : Document} {brought : Bool}
    {previous : Option Document} {stale : List Document} (h : l.Wrote d brought previous stale l')
    (live : e ∈ l.documents) : e.yieldsTo d ↔ previous = some e ∨ e ∈ stale := by
  simp only [Document.yieldsTo, Bool.and_eq_true, Bool.or_eq_true, decide_eq_true_eq]
  constructor
  · rintro ⟨⟨identity, below⟩, there⟩
    by_cases path : e.path = d.path
    · exact .inl ((h.here e).mpr ⟨live, identity, path⟩)
    · exact .inr ((h.pruned.mem_iff e).mpr ⟨live, identity, below, path, there.resolve_left path⟩)
  · rintro (found | member)
    · obtain ⟨_, identity, path⟩ := (h.here e).mp found
      have below : d.path.isPrefixOf e.path := path ▸ Path.isPrefixOf_refl _
      exact ⟨⟨identity, below⟩, .inl path⟩
    · obtain ⟨_, identity, below, _, newer⟩ := (h.pruned.mem_iff e).mp member
      exact ⟨⟨identity, below⟩, .inr newer⟩

/-! ### The invariant -/

/-- What holds of the ledger of a store after the exchanges of a log. -/
structure Upkeep (l : Ledger) (log : List Exchange) : Prop where
  balanced : l.Balanced 0
  backed : l.Backed
  documents : l.documents = Exchange.live log
  few : l.documents.card ≤ log.length
  brought : ∀ d ∈ l.documents, Exchange.lastWrite log d = some true →
    d.entry.payloadDigest ∈ l.payloads

theorem Upkeep.empty : Ledger.empty.Upkeep [] where
  balanced := rfl
  backed g stored := absurd stored (Finset.notMem_empty g)
  documents := rfl
  few := Nat.le_refl 0
  brought d live := absurd live (Finset.notMem_empty d)

theorem Upkeep.kept {l l' : Ledger} {log : List Exchange} (upkeep : l.Upkeep log) {x : Exchange}
    (unwritten : x.written? = none) (kept : l.Kept l') : l'.Upkeep (x :: log) where
  balanced := by
    unfold Balanced
    rw [kept.references, kept.documents]
    exact upkeep.balanced
  backed g stored := by
    rw [kept.references]
    rcases kept.arrived g stored with before | ⟨d, live, rfl⟩
    · exact upkeep.backed g before
    · exact upkeep.balanced.counted live
  documents := by
    rw [kept.documents, Exchange.live, unwritten]
    exact upkeep.documents
  few := by
    rw [kept.documents]
    exact Nat.le_succ_of_le upkeep.few
  brought d live last := by
    rw [kept.documents] at live
    refine kept.stored _ (upkeep.brought d live ?_)
    rw [Exchange.lastWrite, List.findSome?_cons, unwritten] at last
    exact last

theorem Upkeep.wrote {l l' : Ledger} {log : List Exchange} (upkeep : l.Upkeep log) {x : Exchange}
    {d : Document} {brought : Bool} (written : x.written? = some (d, brought))
    {previous : Option Document} {stale : List Document}
    (wrote : l.Wrote d brought previous stale l') : l'.Upkeep (x :: log) where
  balanced := wrote.balanced upkeep.balanced
  backed g stored := ((wrote.mem_payloads upkeep.backed).mp stored).2
  documents := by
    ext e
    rw [Exchange.live, written, wrote.mem_documents, Finset.mem_insert, Finset.mem_filter,
      ← upkeep.documents]
    refine or_congr_right (and_congr_right fun live => ?_)
    rw [Bool.not_eq_true', ← Bool.not_eq_true, wrote.yieldsTo_iff live, not_or]
  few := by
    have within : l'.documents ⊆ insert d l.documents := by
      intro e live
      rcases wrote.mem_documents.mp live with rfl | ⟨before, _⟩
      · exact Finset.mem_insert_self _ _
      · exact Finset.mem_insert_of_mem before
    calc l'.documents.card ≤ (insert d l.documents).card := Finset.card_le_card within
      _ ≤ l.documents.card + 1 := Finset.card_insert_le _ _
      _ ≤ log.length + 1 := Nat.succ_le_succ upkeep.few
  brought e live last := by
    have counted := (wrote.balanced upkeep.balanced).counted live
    rw [Exchange.lastWrite, List.findSome?_cons, written] at last
    refine (wrote.mem_payloads upkeep.backed).mpr ⟨?_, counted⟩
    by_cases same : d = e
    · -- The payload of the document that was just written has come with it.
      subst same
      simp only [Option.bind_some, if_true, Option.some.injEq] at last
      exact .inr ⟨last, rfl⟩
    · simp only [Option.bind_some, same, if_false] at last
      have before := (wrote.mem_documents.mp live).resolve_left (Ne.symm same)
      exact .inl (upkeep.brought e before.1 last)

theorem Upkeep.step {l l' : Ledger} {log : List Exchange} (upkeep : l.Upkeep log) {x : Exchange}
    (follows : l.Follows x l') : l'.Upkeep (x :: log) := by
  unfold Follows at follows
  split at follows
  · next d brought written =>
    obtain ⟨previous, stale, wrote⟩ := follows
    exact upkeep.wrote written wrote
  · next unwritten => exact upkeep.kept unwritten follows

end Ledger

/-! ### Each call -/

/-- What an exchange does to the ledger, and that it reports no contradiction in what is stored. -/
def Ledger.Admits (l : Ledger) (c : Call) (r : Except StoreError Reply) (l' : Ledger) : Prop :=
  l.Follows ⟨c, r⟩ l' ∧ ∀ fault, Exchange.error? ⟨c, r⟩ ≠ some (.invariant fault)

section Steps

variable {l l' : Ledger} {d : Document} {previous : Option Document} {stale : List Document}

omit [Crypto] in
theorem Ledger.wrote_tell (brought : Bool) (here : l.At d.identity d.path previous)
    (pruned : l.Stale d.entry stale) (e : Event) :
    l.Wrote d brought previous stale (((l.bring d brought).insertion d previous stale).tell e) :=
  ⟨here, pruned, rfl, rfl, rfl⟩

omit [Crypto] in
theorem Ledger.wrote_acceptance (brought : Bool) (here : l.At d.identity d.path previous)
    (pruned : l.Stale d.entry stale) :
    l.Wrote d brought previous stale (l.acceptance d brought previous stale) := by
  have wrote := Ledger.wrote_tell brought here pruned (.entryIngest d)
  unfold Ledger.acceptance
  dsimp only
  split
  · exact ⟨wrote.here, wrote.pruned, wrote.documents, wrote.references, wrote.payloads⟩
  · exact wrote

theorem Ledger.Sets.admits {e : Entry} {prune : Bool} {r : Except StoreError Outcome}
    (h : l.Sets e prune r l') {c : Call} (brings : c.brings = true) :
    l.Admits c (r.map .outcome) l' := by
  cases h with
  | prevented pruned some forbidden => exact ⟨Ledger.Kept.refl l, by rintro fault ⟨⟩⟩
  | failed error => exact ⟨Ledger.Kept.refl l, by rintro fault ⟨⟩⟩
  | unauthorised => exact ⟨Ledger.Kept.refl l, by rintro fault ⟨⟩⟩
  | obsolete h => exact ⟨Ledger.Kept.refl l, by rintro fault ⟨⟩⟩
  | @written token previous stale newest upright here pruned permitted =>
    have wrote := Ledger.wrote_tell (d := ⟨e, token⟩) true here pruned (.documentSet ⟨e, token⟩)
    refine ⟨⟨previous, stale, ?_⟩, by rintro fault ⟨⟩⟩
    show l.Wrote ⟨e, token⟩ c.brings previous stale _
    rw [brings]
    exact wrote

theorem Ledger.Clears.admits {s : Store} {identity : Identity} {path : Path}
    {r : Except StoreError Document} (h : l.Clears s identity path r l') :
    l.Admits (.clear identity path) (r.map .document) l' := by
  cases h with
  | absent here => exact ⟨Ledger.Kept.refl l, by rintro fault ⟨⟩⟩
  | failed error => exact ⟨Ledger.Kept.refl l, by rintro fault ⟨⟩⟩
  | unauthorised here => exact ⟨Ledger.Kept.refl l, by rintro fault ⟨⟩⟩
  | @written existing token stale here upright pruned =>
    obtain ⟨_, identities, paths⟩ := (here existing).mp rfl
    exact ⟨⟨_, _, Ledger.wrote_tell true here pruned _⟩, by rintro fault ⟨⟩⟩

theorem Archive.refusal?_ne_invariant {share : Share} {e : Entry} {t : Token}
    {payload : Option Bytes} {error : StoreError} (refusal : refusal? share e t payload = some error)
    (fault : InvariantFault) : error ≠ .invariant fault := by
  unfold refusal? at refusal
  rintro rfl
  split at refusal
  · cases refusal
  · split at refusal
    · cases refusal
    · split at refusal <;> cases refusal

theorem Ledger.Ingests.admits {share : Share} {e : Entry} {t : Token} {payload : Option Bytes}
    {o : Outcome} (h : l.Ingests share e t payload o l') :
    l.Admits (.ingest e t payload) (.ok (.outcome o)) l' := by
  cases h with
  | refused refusal =>
    refine ⟨Ledger.Kept.refl l, fun fault same => ?_⟩
    exact Archive.refusal?_ne_invariant refusal fault (Option.some.inj same)
  | obsolete accepted h => exact ⟨Ledger.Kept.refl l, by rintro fault ⟨⟩⟩
  | @written previous stale accepted newest here pruned =>
    have wrote := Ledger.wrote_acceptance (d := ⟨e, t⟩) payload.isSome here pruned
    exact ⟨⟨previous, stale, wrote⟩, by rintro fault ⟨⟩⟩

theorem Ledger.admits_arrived (live : d ∈ l.documents) (identity : Identity) (path : Path)
    (payload : Bytes) :
    l.Admits (.ingestPayload identity path payload) (.ok (.arrived true))
      ((l.bring d true).tell (.payloadIngest d)) := by
  refine ⟨⟨rfl, rfl, fun g stored => Finset.mem_insert_of_mem stored, fun g stored => ?_⟩,
    by rintro fault ⟨⟩⟩
  rcases Finset.mem_insert.mp stored with rfl | before
  · exact .inr ⟨d, live, rfl⟩
  · exact .inl before

theorem Ledger.admits_unchanged {c : Call} {r : Except StoreError Reply}
    (unwritten : Exchange.written? ⟨c, r⟩ = none)
    (sane : ∀ fault, Exchange.error? ⟨c, r⟩ ≠ some (.invariant fault)) : l.Admits c r l := by
  refine ⟨?_, sane⟩
  unfold Ledger.Follows
  rw [unwritten]
  exact Ledger.Kept.refl l

theorem Ledger.Performs.admits {s : Store} {c : Call} {r : Except StoreError Reply}
    (h : l.Performs s c r l') : l.Admits c r l' := by
  cases h with
  | set sets => exact sets.admits rfl
  | setAtAddress named sets => exact sets.admits rfl
  | misnamed misnamed => exact Ledger.admits_unchanged rfl (by rintro fault ⟨⟩)
  | clear clears => exact clears.admits
  | ingest ingests => exact ingests.admits
  | arrived live here => exact Ledger.admits_arrived live _ _ _
  | unclaimed => exact Ledger.admits_unchanged rfl (by rintro fault ⟨⟩)
  | pack p => exact Ledger.admits_unchanged rfl (by rintro fault ⟨⟩)
  | done => exact Ledger.admits_unchanged rfl (by rintro fault ⟨⟩)
  | barred error => exact Ledger.admits_unchanged rfl (by rintro fault ⟨⟩)

end Steps

/-! ### Whole runs -/

namespace Ledger

variable {l : Ledger} {log : List Exchange}

theorem Upkeep.retold (upkeep : l.Upkeep log) (events : List Event) : (l.retold events).Upkeep log :=
  ⟨upkeep.balanced, upkeep.backed, upkeep.documents, upkeep.few, upkeep.brought⟩

end Ledger

namespace Store

variable {s : Store} {t u : Site} {log : List Exchange}

/-- The backends of the store work and hold nothing. -/
def Fresh (s : Store) (t : Site) : Prop :=
  (s.archive t).Shows .empty .empty (s.archive t).events

/-- The backends of the store still work and hold what they held. -/
def Spares (s : Store) (t u : Site) : Prop :=
  (s.archive u).Shows (s.archive t).entries.contents (s.archive t).payloads.contents
    (s.archive u).events

theorem Fresh.tracks (fresh : s.Fresh t) :
    s.Tracks t (Ledger.empty.retold (s.archive t).events) :=
  Archive.Shows.tracks (l := Ledger.empty.retold _) fresh (Ledger.Describes.empty.retold _)
    (Ledger.Sound.empty.retold _)

theorem Spares.tracks {v : Site} {l : Ledger} (spares : s.Spares t v) (tracks : s.Tracks t l) :
    s.Tracks v (l.retold (s.archive v).events) :=
  Archive.Shows.tracks (l := l.retold _) spares (tracks.describes.retold _) (tracks.sound.retold _)

theorem Tracks.upkeep_call {l : Ledger} (apart : s.Apart) (tracks : s.Tracks u l)
    (upkeep : l.Upkeep log) (few : log.length + 1 < 256 ^ 8) (c : Call) :
    (∃ l', s.Tracks ((s.perform c).runOn u).2 l' ∧
      l'.Upkeep (⟨c, ((s.perform c).runOn u).1⟩ :: log)) ∧
    ∀ fault, Exchange.error? ⟨c, ((s.perform c).runOn u).1⟩ ≠ some (.invariant fault) := by
  have room : l.documents.card + 1 < 256 ^ 8 :=
    Nat.lt_of_le_of_lt (Nat.succ_le_succ upkeep.few) few
  obtain ⟨l', performs, tracks'⟩ := tracks.perform apart upkeep.balanced room c
  obtain ⟨follows, harmless⟩ := performs.admits
  exact ⟨⟨l', tracks', upkeep.step follows⟩, harmless⟩

/-- After any run there is a ledger of what the store holds, as long as counts fit their bytes. -/
theorem upkeep_of_run (apart : s.Apart) (fresh : s.Fresh t) (run : s.Run s.Spares t log u)
    (few : log.length < 256 ^ 8) :
    (∃ l, s.Tracks u l ∧ l.Upkeep log) ∧
      ∀ x ∈ log, ∀ fault, x.error? ≠ some (.invariant fault) := by
  induction run with
  | start =>
    exact ⟨⟨_, fresh.tracks, Ledger.Upkeep.empty.retold _⟩, by simp⟩
  | @aside log u v run besides ih =>
    obtain ⟨⟨l, tracks, upkeep⟩, sane⟩ := ih few
    exact ⟨⟨_, besides.tracks tracks, upkeep.retold _⟩, sane⟩
  | @call log u run c ih =>
    rw [List.length_cons] at few
    obtain ⟨⟨l, tracks, upkeep⟩, sane⟩ := ih (by omega)
    obtain ⟨after, harmless⟩ := tracks.upkeep_call apart upkeep few c
    refine ⟨after, fun x member => ?_⟩
    rcases List.mem_cons.mp member with rfl | member
    · exact harmless
    · exact sane x member

end Store

/-- A record that is kept for documents. -/
inductive Record (documents : Finset Document) : (key value : Bytes) → Prop
  | entry {d : Document} (live : d ∈ documents) :
      Record documents (Key.entry d.identity d.path) d.encode
  | path {d : Document} (live : d ∈ documents) :
      Record documents (Key.pathIndex d.entry) (Key.entry d.identity d.path)
  | time {d : Document} (live : d ∈ documents) :
      Record documents (Key.timeIndex d.entry) (Key.entry d.identity d.path)
  | count {g : Digest} {n : Nat} (positive : 0 < n)
      (counted : (documents.filter (fun d => d.entry.payloadDigest = g)).card = n) :
      Record documents (Key.reference g) (Bytes.ofNat 8 n)

/-- The contents are the records of documents and payloads that they have, and nothing else. -/
structure Coherent (documents : Finset Document) (entries payloads : Contents) : Prop where
  distinct : ∀ d ∈ documents, ∀ e ∈ documents, d.identity = e.identity → d.path = e.path → d = e
  readable : ∀ d ∈ documents, Document.decode d.encode = .ok d
  records : ∀ key value, entries.get? key = some value ↔ Record documents key value
  held : ∀ key payload, payloads.get? key = some payload → ∃ d ∈ documents,
    key = d.entry.payloadDigest.bytes ∧ Crypto.digest payload = d.entry.payloadDigest

omit [Crypto] in
theorem Ledger.Balanced.count {l : Ledger} (balanced : l.Balanced 0) (g : Digest) :
    l.references.count g = (l.documents.filter (fun d => d.entry.payloadDigest = g)).card := by
  have all : l.references = Ledger.digests l.documents := by rw [balanced, Multiset.zero_add]
  rw [all, Ledger.digests, Multiset.count_map, Finset.card_def, Finset.filter_val]
  simp only [eq_comm]

omit [Crypto] in
theorem Ledger.Balanced.holds_iff {l : Ledger} (balanced : l.Balanced 0) {key value : Bytes} :
    l.Holds key value ↔ Record l.documents key value := by
  constructor
  · intro h
    cases h with
    | document live => exact .entry live
    | path live => exact .path live
    | time live => exact .time live
    | count counted => exact .count (Multiset.count_pos.mpr counted) (balanced.count _).symm
  · intro h
    cases h with
    | entry live => exact .document live
    | path live => exact .path live
    | time live => exact .time live
    | @count g n positive counted =>
      rw [← balanced.count g] at counted
      rw [← counted] at positive ⊢
      exact .count (Multiset.count_pos.mp positive)

/-- A payload that is stored is that of a document, since what is stored is counted. -/
theorem Ledger.Describes.held {l : Ledger} {entries payloads : Contents}
    (describes : l.Describes entries payloads) (balanced : l.Balanced 0) (backed : l.Backed)
    {key payload : Bytes} (stored : payloads.get? key = some payload) :
    ∃ d ∈ l.documents, key = d.entry.payloadDigest.bytes ∧
      Crypto.digest payload = d.entry.payloadDigest := by
  have named := describes.hashes key payload stored
  have listed : Crypto.digest payload ∈ l.payloads := by
    rw [describes.stored, ← named, stored]
    rfl
  have counted := backed _ listed
  rw [balanced, Multiset.zero_add] at counted
  obtain ⟨d, live, same⟩ := Multiset.mem_map.mp counted
  exact ⟨d, live, by rw [named, same], same.symm⟩

theorem Ledger.Upkeep.coherent {l : Ledger} {log : List Exchange} (upkeep : l.Upkeep log)
    {entries payloads : Contents} (describes : l.Describes entries payloads) (sound : l.Sound) :
    Coherent l.documents entries payloads where
  distinct d live e live' identities paths :=
    sound.distinct d live e live' (Document.key_inj.mpr ⟨identities, paths⟩)
  readable := sound.readable
  records key value := (describes.records key value).trans upkeep.balanced.holds_iff
  held _ _ stored := describes.held upkeep.balanced upkeep.backed stored

/-- What a store holds, with its backends to itself, are the records of the documents that are left
of those written, and the payloads that they came with. -/
theorem coherent_of_run {s : Store} {t u : Site} {log : List Exchange} (apart : s.Apart)
    (fresh : s.Fresh t) (run : s.Run s.Spares t log u) (few : log.length < 2 ^ 64) :
    Coherent (Exchange.live log) (s.archive u).entries.contents (s.archive u).payloads.contents ∧
    (∀ d ∈ Exchange.live log, Exchange.lastWrite log d = some true →
      ((s.archive u).payloads.contents.get? d.entry.payloadDigest.bytes).isSome) ∧
    ∀ x ∈ log, ∀ fault, x.error? ≠ some (.invariant fault) := by
  obtain ⟨⟨l, tracks, upkeep⟩, sane⟩ := Store.upkeep_of_run apart fresh run few
  rw [← upkeep.documents]
  refine ⟨upkeep.coherent tracks.describes tracks.sound, fun d live last => ?_, sane⟩
  exact (tracks.describes.stored _).mp (upkeep.brought d live last)

end

section Sample

open Crypto.Transparent

attribute [local instance] Crypto.transparent

theorem coherent_of_run_threeWrites :
    let after := sample.performAll threeWrites [] blank
    (sample.Apart ∧ sample.Fresh blank ∧ sample.Run sample.Spares blank after.1 after.2 ∧
      after.1.length < 2 ^ 64) ∧
    Coherent (Exchange.live after.1) (sample.archive after.2).entries.contents
      (sample.archive after.2).payloads.contents ∧
    (∀ d ∈ Exchange.live after.1, Exchange.lastWrite after.1 d = some true →
      ((sample.archive after.2).payloads.contents.get? d.entry.payloadDigest.bytes).isSome) ∧
    (Exchange.live after.1).card = 2 ∧
    (after.1.filterMap Exchange.written?).length = 3 := by
  intro after
  have fresh : sample.Fresh blank := ⟨Backend.works_empty, Backend.works_empty, rfl, rfl, rfl⟩
  have run : sample.Run sample.Spares blank after.1 after.2 := Store.Run.start.performAll threeWrites
  have few : after.1.length < 2 ^ 64 := by decide +kernel
  obtain ⟨coherent, held, _⟩ := coherent_of_run sample_apart fresh run few
  exact ⟨⟨sample_apart, fresh, run, few⟩, coherent, held, by decide +kernel, by decide +kernel⟩

end Sample

end DocumentShare
