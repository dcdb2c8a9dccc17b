import DocumentShare.Proofs.Store.Filing
import DocumentShare.Proofs.Store.Querying
import DocumentShare.Proofs.Store.Steps
import DocumentShare.Proofs.Store.Streaming

/-!
# What is authorised is read back

A token that proves its entry is read back from the document that it is stored with. Every record that
a store writes is such a document or points to one (`Filed`), so whatever reads the store finds no
corrupt document, also a stream that goes on while the store is written (`authorised_reads_back`).
Storage and credentials may fail at any time.
-/

namespace DocumentShare

open Work

/-- A record as stores write them: a document that is read back, or in an index the key of an entry. -/
structure Filed (key value : Bytes) : Prop where
  document : Key.entries.contains key → ∃ d : Document, key = d.key ∧ value = d.encode ∧
    d.token.capability.Upright
  index : ∀ rest, key = 1 :: rest ∨ key = 2 :: rest → Key.entries.contains value

namespace Filed

variable {key value : Bytes}

theorem entry {d : Document} (upright : d.token.capability.Upright) : Filed d.key d.encode where
  document _ := ⟨d, rfl, rfl, upright⟩
  index rest other := by
    obtain same | same := other
    · cases same
    · cases same

theorem pointer (family : UInt8) (other : family ≠ 0) (rest : Bytes) (e : Entry) :
    Filed (family :: rest) (Key.entry e.identity e.path) where
  document inside := absurd (Key.entries_contains_cons.mp inside) other
  index _ _ := Key.entries_contains_cons.mpr rfl

theorem count (g : Digest) (n : Nat) : Filed (Key.reference g) (Bytes.ofNat 8 n) where
  document inside := absurd (Key.entries_contains_cons.mp inside) (by decide)
  index rest other := by
    obtain same | same := other
    · cases same
    · cases same

theorem filing : Filing Filed (·.token.capability.Upright) where
  record key value family filed := by
    obtain ⟨d, rfl, rfl, upright⟩ := filed.document family
    exact ⟨d, rfl, rfl, Document.decode_encode upright⟩
  document _ := entry
  path e := pointer 1 (by decide) _ e
  time e := pointer 2 (by decide) _ e
  count := count

end Filed

/-! ### Reading -/

namespace Archive

/-- Unless storage fails, a document that is stored is answered. -/
theorem get_stored {a : Archive} {d : Document} (upright : d.token.capability.Upright)
    (stored : a.entries.contents.get? d.key = some d.encode) :
    (get d.identity d.path).Ends a (fun o _ => o = some d)
      fun e _ => ∃ reason, e = .storage reason := by
  have found : (onEntries (Backend.get d.key)).Ends a (fun o _ => o = some d.encode)
      fun e _ => ∃ reason, e = .storage reason := by
    apply onEntries_ends
    apply (Backend.does_get a.entries d.key).mono
    · intro o b ⟨same, _⟩
      rw [same, stored]
    · intro e b _
      exact ⟨e.message, rfl⟩
  apply found.bind
  intro o b same
  rw [same]
  have read : ofStored d.encode = pure d := by
    rw [ofStored, Document.decode_encode upright]
    rfl
  dsimp only
  rw [read, pure_bind]
  exact Ends.pure rfl

/-- A value that a listing in some order visits stands for a document that can be read. -/
def Legible (order : Order) (value : Bytes) : Prop :=
  (askDocument order value).Minds Filed fun _ => True

variable {order : Order} {key value : Bytes}

theorem legible_document (filed : Filed key value) (inside : Key.entries.contains key) :
    Legible .identity value := by
  apply minds_ask.next
  intro _
  exact Filed.filing.ofStored inside filed

theorem legible_pointer (other : order ≠ .identity) (inside : Key.entries.contains value) :
    Legible order value := by
  apply minds_ask.next
  intro _
  rw [ofItem_index other]
  apply (Filed.filing.documentAt inside).next
  intro found
  cases found with
  | none => exact .throw trivial
  | some d => exact .pure trivial

theorem legible_of_range {q : Query} (inside : q.range.contains key) (filed : Filed key value) :
    Legible q.order value := by
  unfold Query.range at inside
  dsimp only at inside
  cases order : q.order with
  | path =>
    rw [order] at inside
    obtain ⟨rest, same⟩ := KeyRange.cons_of_startingWith inside
    exact legible_pointer (by decide) (filed.index rest (.inl same))
  | timestamp =>
    rw [order] at inside
    obtain ⟨rest, same⟩ := Key.of_timeIndexBetween inside
    exact legible_pointer (by decide) (filed.index rest (.inr same))
  | identity =>
    rw [order] at inside
    have family : Key.entries.contains key := by
      cases identity : q.identity with
      | none =>
        rw [identity] at inside
        exact inside
      | some i =>
        rw [identity] at inside
        exact Key.entries_contains.mpr (Key.of_entriesBelow inside)
    exact legible_document filed family

theorem legible_at {p : Path} (inside : (Key.pathIndexAt p).contains key) (filed : Filed key value) :
    Legible .path value := by
  obtain ⟨rest, same⟩ := KeyRange.cons_of_startingWith inside
  exact legible_pointer (by decide) (filed.index rest (.inl same))

theorem minds_gather {q : Query} {items : List (Bytes × Bytes)}
    (legible : ∀ x ∈ items, Legible q.order x.2) (t : Tally) :
    (gather q t items).Minds Filed fun _ => True := by
  induction items generalizing t with
  | nil => exact .pure trivial
  | cons x rest ih =>
    obtain ⟨here, later⟩ := List.forall_mem_cons.mp legible
    rw [gather]
    split
    · exact .pure trivial
    · apply here.next
      intro d
      split
      · exact ih later t
      · exact .pure trivial
      · next t' _ => exact (ih later t').next fun _ => .pure trivial

theorem minds_query (q : Query) : (query q).Minds Filed fun _ => True := by
  have visited : (itemsOf q).Minds Filed fun items => ∀ x ∈ items, Legible q.order x.2 := by
    unfold itemsOf
    split
    · exact .pure fun x member => by cases member
    · apply (minds_scan q.range q.direction).mono
      intro items found x member
      obtain ⟨inside, filed⟩ := found x member
      exact legible_of_range inside filed
  apply visited.bind
  intro items legible
  exact minds_gather legible .zero

theorem minds_indexedAt (p : Path) (direction : Direction) :
    (indexedAt p direction).Minds Filed fun _ => True := by
  apply (minds_scan _ direction).bind
  intro items found
  apply Upholds.mapM
  intro x member
  obtain ⟨inside, filed⟩ := found x member
  exact legible_at inside filed

end Archive

/-- What reads the documents of an archive at once. -/
inductive ArchiveWork.Reading [Crypto] : {α : Type} → ArchiveWork α → Prop
  | get (identity : Identity) (path : Path) : Reading (Archive.get identity path)
  | payload (d : Document) : Reading (Archive.payload d)
  | query (q : Query) : Reading (Archive.query q)
  | paths (q : Query) : Reading (Archive.paths q)
  | identities (q : Query) : Reading (Archive.identities q)
  | latest (path : Path) : Reading (Archive.latest path)
  | atPath (path : Path) : Reading (Archive.atPath path)

theorem ArchiveWork.Reading.minds [Crypto] {α : Type} {w : ArchiveWork α} (reading : w.Reading) :
    w.Minds Filed fun _ => True := by
  cases reading with
  | get identity path => exact Filed.filing.get identity path
  | payload d => exact Archive.minds_onPayloads _
  | query q => exact Archive.minds_query q
  | paths q => exact (Archive.minds_query q).next fun _ => .pure trivial
  | identities q => exact (Archive.minds_query q).next fun _ => .pure trivial
  | latest path => exact (Archive.minds_indexedAt path _).next fun _ => .pure trivial
  | atPath path => exact (Archive.minds_indexedAt path _).next fun _ => .pure trivial

theorem Archive.pulling_filed :
    Archive.Pulling (fun a => a.entries.contents.Every Filed) StoreError.Sane := by
  constructor
  · intro q
    refine ⟨minds_begin, ?_⟩
    intro a key value every stored inside
    exact legible_of_range inside (every key value stored)
  · intro p
    refine ⟨minds_begin, ?_⟩
    intro a key value every stored inside
    exact legible_at inside (every key value stored)

/-! ### Calls -/

namespace Store

variable [Crypto] {s : Store} {t u : Site}

/-- Every record of the store is as stores write them. -/
def Legible (s : Store) (t : Site) : Prop := (s.archive t).entries.contents.Every Filed

theorem legible_of_call (apart : s.Apart) (legible : s.Legible t) (c : Call) :
    s.Legible ((s.perform c).runOn t).2 ∧ ∀ e, ((s.perform c).runOn t).1 = .error e → e.Sane :=
  Filed.filing.of_call apart (authorises_upright apart) (fun _ _ => Token.upright_of_authorises) legible c

/-- What happens besides may be anything that leaves the records alone. -/
theorem legible_of_run {aside : Site → Site → Prop} {log : List Exchange} (apart : s.Apart)
    (empty : (s.archive t).entries.contents = .empty)
    (spared : ∀ v w, aside v w → (s.archive w).entries.contents = (s.archive v).entries.contents)
    (run : s.Run aside t log u) :
    s.Legible u ∧ ∀ x ∈ log, ∀ reason, x.reply ≠ .error (.invariant (.corruptEntry reason)) := by
  induction run with
  | start =>
    rw [Legible, empty]
    exact ⟨.empty, fun x member => by cases member⟩
  | aside run besides ih =>
    rw [Legible, spared _ _ besides]
    exact ih
  | @call log u run c ih =>
    obtain ⟨legible, clean⟩ := ih
    obtain ⟨legible, sane⟩ := legible_of_call apart legible c
    refine ⟨legible, ?_⟩
    intro x member
    obtain rfl | member := List.mem_cons.mp member
    · exact fun reason corrupt => sane _ corrupt
    · exact clean x member

end Store

/-- A document whose token proves its entry is read back, so a store reports no corrupt entry,
whatever failed on the way. -/
theorem authorised_reads_back [Crypto] :
    (∀ (e : Entry) (t : Token), t.authorises e →
      Document.decode (Document.encode ⟨e, t⟩) = .ok ⟨e, t⟩) ∧
    ∀ (s : Store) (aside : Site → Site → Prop) (t u : Site) (log : List Exchange), s.Apart →
      (s.archive t).entries.contents = .empty →
      (∀ v w, aside v w → (s.archive w).entries.contents = (s.archive v).entries.contents) →
      s.Run aside t log u →
      (∀ key value, (s.archive u).entries.contents.get? key = some value →
        Key.entries.contains key →
        ∃ d, key = Key.entry d.identity d.path ∧ Document.decode value = .ok d ∧
          (((s.onArchive (Archive.get d.identity d.path)).runOn u).1 = .ok (some d) ∨
            ∃ reason, ((s.onArchive (Archive.get d.identity d.path)).runOn u).1
              = .error (.storage reason))) ∧
      ∀ reason, (∀ x ∈ log, x.reply ≠ .error (.invariant (.corruptEntry reason))) ∧
        (∀ (α : Type) (w : ArchiveWork α), w.Reading →
          ((s.onArchive w).runOn u).1 ≠ .error (.invariant (.corruptEntry reason))) ∧
        ∀ stream : Stream, stream.Opened →
          (Stream.next.runOn (stream, s.archive u)).1 ≠ .error (.invariant (.corruptEntry reason)) := by
  constructor
  · intro e t proof
    exact Document.decode_encode (Token.upright_of_authorises proof)
  · intro s aside t u log apart empty spared run
    obtain ⟨legible, clean⟩ := Store.legible_of_run apart empty spared run
    refine ⟨?_, ?_⟩
    · intro key value stored family
      obtain ⟨d, rfl, rfl, upright⟩ := (legible key value stored).document family
      refine ⟨d, rfl, Document.decode_encode upright, ?_⟩
      have got := Store.ends_onArchive apart (Archive.get_stored upright stored)
      obtain ⟨o, answer, same⟩ | ⟨e, failure, reason, same⟩ := got.cases
      · exact .inl (same ▸ answer)
      · exact .inr ⟨reason, same ▸ failure⟩
    · intro reason
      refine ⟨fun x member => clean x member reason, ?_, ?_⟩
      · intro α w reading
        have reads : (s.onArchive w).Upholds s.Legible StoreError.Sane fun _ => True :=
          fun v held => Store.ends_onArchive apart (reading.minds _ held)
        exact reads.sane u legible reason
      · intro stream opened
        exact Archive.pulling_filed.next.sane (stream, s.archive u) ⟨opened.aligned, legible⟩ reason

section Sample

open Crypto.Transparent

attribute [local instance] Crypto.transparent

theorem authorised_reads_back_threeWrites :
    let after := sample.performAll threeWrites [] blank
    let spares := fun v w => (sample.archive w).entries.contents = (sample.archive v).entries.contents
    let stream := Stream.query (.start (.all .path .ascending))
    delegatedToken.authorises delegatedEntry ∧
    Document.decode (Document.encode ⟨delegatedEntry, delegatedToken⟩) =
      .ok ⟨delegatedEntry, delegatedToken⟩ ∧
    (sample.Apart ∧ (sample.archive blank).entries.contents = .empty ∧
      sample.Run spares blank after.1 after.2) ∧
    (∃ value d, (sample.archive after.2).entries.contents.get? (Key.entry (identity 1) (path 7))
        = some value ∧ Document.decode value = .ok d) ∧
    ∀ reason, (Stream.next.runOn (stream, sample.archive after.2)).1
      ≠ .error (.invariant (.corruptEntry reason)) := by
  intro after spares stream
  have proof : delegatedToken.authorises delegatedEntry := by decide
  have empty : (sample.archive blank).entries.contents = .empty := rfl
  have run : sample.Run spares blank after.1 after.2 := Store.Run.start.performAll threeWrites
  have there : ((sample.archive after.2).entries.contents.get?
      (Key.entry (identity 1) (path 7))).isSome := by decide +kernel
  obtain ⟨value, stored⟩ := Option.isSome_iff_exists.mp there
  obtain ⟨reads, stores⟩ := authorised_reads_back
  obtain ⟨records, sane⟩ := stores sample spares blank after.2 after.1 sample_apart empty
    (fun _ _ => id) run
  obtain ⟨d, _, read, _⟩ := records _ value stored (Key.entries_contains_cons.mpr rfl)
  refine ⟨proof, reads _ _ proof, ⟨sample_apart, empty, run⟩, ⟨value, d, stored, read⟩, ?_⟩
  intro reason
  obtain ⟨_, _, streams⟩ := sane reason
  exact streams stream (.query _)

end Sample

end DocumentShare
