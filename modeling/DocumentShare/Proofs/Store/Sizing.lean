import DocumentShare.Proofs.Authority.Attenuation
import DocumentShare.Proofs.Store.Interrupting

/-!
# Sizes of documents

The size of a document is the length that its entry names. Calls that have the payload at hand check it
against the bytes, and an entry that is ingested without a payload has nothing to be checked against,
although its payload may be stored already for another document. `Store.Stems` says where the
documents and the payloads of a store come from, and from it when sizes are right (`sized_of_run`).
-/

namespace DocumentShare

open Work

section

variable [Crypto]

namespace Archive

variable {a b : Archive} {documents documents' : Finset Document} {may : Document → Prop}
  {brings : Bytes → Prop} {left : List Change} {d e : Document}

omit [Crypto] in
theorem eq_of_put (put : Move.put e ∈ a.moves d) : e = d := by
  simp only [moves, Move.writing, List.mem_append, List.mem_cons, List.mem_map] at put
  rcases put with ⟨_, _, impossible⟩ | same | ⟨_, _, impossible⟩
  · cases impossible
  · exact Move.put.inj same
  · cases impossible

theorem Reaches.stems (reaches : a.Reaches may brings left b)
    (lists : a.entries.contents.Lists documents) (lists' : b.entries.contents.Lists documents')
    (live : d ∈ documents') : d ∈ documents ∨ may d := by
  obtain ⟨moves, done, written, cut, agrees⟩ := reaches.entries
  have readable := lists'.readable d live
  -- Documents are told apart by their bytes, since each can be read back.
  have same (e : Document) (readable' : Document.decode e.encode = .ok e)
      (bytes : d.encode = e.encode) : d = e := by
    rw [bytes, readable'] at readable
    exact (Except.ok.inj readable).symm
  have stored : (a.entries.contents.after done).get? d.key = some d.encode := by
    rw [← agrees d.key (by simp [Document.key, Key.entry])]
    exact lists'.stored live
  rcases Contents.get?_after stored with before | ⟨e, o, put, place, value⟩
  · obtain ⟨e, there, _, bytes⟩ := (lists.records _ _ d.key_inside).mp before
    obtain rfl := same e (lists.readable e there) bytes
    exact .inl there
  · obtain rfl : o = .identity := by
      obtain ⟨rest, family⟩ := o.key_eq_cons e
      rw [family] at place
      exact Order.family_inj (p := .identity) (List.cons.inj place).1.symm
    have member : Move.put e ∈ moves := by
      have listed : (⟨.put e, .identity⟩ : Change) ∈ moves.flatMap Move.changes := by
        rw [← cut]
        exact List.mem_append_left left put
      obtain ⟨m, there, changed⟩ := List.mem_flatMap.mp listed
      simp only [Move.changes, List.mem_cons, Change.mk.injEq] at changed
      simp_all
    rcases written with rfl | ⟨f, allowed, readable', rfl⟩
    · cases member
    · obtain rfl := eq_of_put member
      obtain rfl := same e readable' value
      exact .inr allowed

theorem payload_ends (a : Archive) (d : Document) :
    (Archive.payload d).Ends a (fun o _ => ∀ p, o = some p → Crypto.digest p = d.entry.payloadDigest ∧
      a.payloads.contents.get? d.entry.payloadDigest.bytes = some p) fun _ _ => True := by
  apply onPayloads_ends
  apply ((Backend.does_get a.payloads d.entry.payloadDigest.bytes).mono (fun _ _ => id)
    fun _ _ _ => trivial).bind
  intro found b ⟨same, _⟩
  subst same
  split
  · exact Ends.pure (by rintro p ⟨⟩)
  · next p stored =>
    split
    · next hashed =>
      refine Ends.pure ?_
      rintro _ ⟨⟩
      exact ⟨hashed, stored⟩
    · exact Ends.throw trivial

end Archive

/-- The payloads that came with calls. -/
def Exchange.carried (log : List Exchange) : List Bytes := log.filterMap fun x => x.call.payload?

theorem Exchange.mem_carried {log : List Exchange} {p : Bytes} :
    p ∈ carried log ↔ ∃ x ∈ log, x.call.Carries p :=
  List.mem_filterMap

namespace Store

variable {s : Store} {t u : Site} {log : List Exchange} {d : Document} {c : Call}

def payloadOf (s : Store) (t : Site) (d : Document) : Except StoreError (Option Bytes) :=
  ((s.onArchive (Archive.payload d)).runOn t).1

/-- A call has written each document, and each payload has come with a call and is under its digest. -/
structure Stems (s : Store) (log : List Exchange) (t : Site) : Prop where
  documents : ∃ documents, (s.archive t).entries.contents.Lists documents ∧
    ∀ d ∈ documents, ∃ x ∈ log, x.call.Writes s d
  payloads : ∀ key value, (s.archive t).payloads.contents.get? key = some value →
    value ∈ Exchange.carried log ∧ key = (Crypto.digest value).bytes

theorem Vacant.stems (vacant : s.Vacant t) : s.Stems [] t := by
  obtain ⟨documents, lists, _⟩ := Archive.aligned_empty vacant.entries .identity
  refine ⟨⟨documents, lists, fun d live => ?_⟩, fun key value stored => ?_⟩
  · have stored := lists.stored live
    rw [vacant.entries, Contents.get?_empty] at stored
    cases stored
  · rw [vacant.payloads, Contents.get?_empty] at stored
    cases stored

theorem Stems.untouched (stems : s.Stems log t) (untouched : s.Untouched t u) : s.Stems log u := by
  obtain ⟨documents, payloads⟩ := stems
  rw [← untouched.entries] at documents
  rw [← untouched.payloads] at payloads
  exact ⟨documents, payloads⟩

theorem Stems.call (stems : s.Stems log t) (apart : s.Apart) (c : Call) :
    s.Stems (⟨c, ((s.perform c).runOn t).1⟩ :: log) ((s.perform c).runOn t).2 := by
  obtain ⟨⟨documents, lists, written⟩, payloads⟩ := stems
  obtain ⟨left, reaches, _⟩ := reaches_of_call apart lists c
  have aligned : (s.archive t).Aligned .identity := ⟨documents, lists, (Contents.lists_iff.mp lists).1⟩
  obtain ⟨entries, _, lists', _⟩ := aligned.stopped reaches
  refine ⟨⟨entries, lists', fun d live => ?_⟩, fun key value stored => ?_⟩
  · rcases reaches.stems lists lists' live with before | now
    · obtain ⟨x, member, writes⟩ := written d before
      exact ⟨x, List.mem_cons_of_mem _ member, writes⟩
    · exact ⟨_, List.mem_cons_self, now⟩
  · rcases reaches.payloads key value stored with before | ⟨brought, place⟩
    · obtain ⟨carried, place⟩ := payloads key value before
      obtain ⟨x, member, carries⟩ := Exchange.mem_carried.mp carried
      exact ⟨Exchange.mem_carried.mpr ⟨x, List.mem_cons_of_mem _ member, carries⟩, place⟩
    · exact ⟨Exchange.mem_carried.mpr ⟨_, List.mem_cons_self, brought⟩, place⟩

theorem stems_of_run (apart : s.Apart) (vacant : s.Vacant t) (run : s.Run s.Untouched t log u) :
    s.Stems log u := by
  induction run with
  | start => exact vacant.stems
  | call _ c ih => exact ih.call apart c
  | aside _ untouched ih => exact ih.untouched untouched

/-- A call that brings the payload of a document it writes has seen that the size is right. -/
theorem sized_of_writes (writes : c.Writes s d) :
    (∃ p, c.Carries p ∧ Crypto.digest p = d.entry.payloadDigest ∧
      d.entry.payloadLength = p.length.toUInt64) ∨ c = .ingest d.entry d.token none := by
  cases c with
  | set identity path payload timestamp prune =>
    rw [show d.entry = _ from writes]
    exact .inl ⟨payload, rfl, rfl, rfl⟩
  | setAtAddress address path payload timestamp prune =>
    obtain ⟨identity, _, same⟩ := writes
    rw [same]
    exact .inl ⟨payload, rfl, rfl, rfl⟩
  | clear identity path =>
    obtain ⟨existing, same⟩ := writes
    rw [same]
    exact .inl ⟨[], rfl, rfl, rfl⟩
  | ingest entry token payload =>
    obtain ⟨rfl, accepted⟩ := writes
    obtain ⟨_, _, matching⟩ := Archive.refusal?_eq_none.mp accepted
    cases payload with
    | none => exact .inr rfl
    | some p =>
      obtain ⟨length, digest⟩ := Archive.matchesPayload_iff.mp (matching p rfl)
      refine .inl ⟨p, rfl, digest, ?_⟩
      rw [length]
      exact (UInt64.ofNat_toNat).symm
  | _ => cases writes

end Store

/-- The bytes read for a document have its digest and came with a call. They are as long as it is
large unless it was ingested without a payload. -/
theorem sized_of_run {s : Store} {t u : Site} {log : List Exchange} (apart : s.Apart)
    (vacant : s.Vacant t) (run : s.Run s.Untouched t log u) {d : Document}
    (live : d ∈ s.documents u) {p : Bytes} (read : s.payloadOf u d = .ok (some p)) :
    Crypto.digest p = d.entry.payloadDigest ∧ p ∈ Exchange.carried log ∧
    ((∀ q ∈ Exchange.carried log, Crypto.digest q = Crypto.digest p → q = p) →
      d.entry.payloadLength = p.length.toUInt64 ∨
        ∃ x ∈ log, x.call = .ingest d.entry d.token none) := by
  obtain ⟨⟨documents, lists, written⟩, payloads⟩ := Store.stems_of_run apart vacant run
  have found : Crypto.digest p = d.entry.payloadDigest ∧
      (s.archive u).payloads.contents.get? d.entry.payloadDigest.bytes = some p := by
    rcases (Store.ends_onArchive apart (Archive.payload_ends (s.archive u) d)).cases with
      ⟨o, answer, holds⟩ | ⟨e, failure, _⟩
    · rw [Store.payloadOf, answer] at read
      exact holds p (Except.ok.inj read)
    · rw [Store.payloadOf, failure] at read
      cases read
  obtain ⟨hashed, stored⟩ := found
  obtain ⟨carried, _⟩ := payloads _ p stored
  have here : d ∈ documents :=
    ((Archive.documents_of_lists lists).2 d).mp (List.mem_toFinset.mp live)
  obtain ⟨x, member, writes⟩ := written d here
  refine ⟨hashed, carried, fun unlike => ?_⟩
  rcases Store.sized_of_writes writes with ⟨q, carries, digest, length⟩ | bare
  · have carried' := Exchange.mem_carried.mpr ⟨x, member, carries⟩
    obtain rfl := unlike q carried' (digest.trans hashed.symm)
    exact .inl length
  · exact .inr ⟨x, member, bare⟩

end

section Sample

open Crypto.Transparent

attribute [local instance] Crypto.transparent

/-- The third write has made the document at path 8 and nothing was ingested, so the document is as large
as its payload is long. -/
theorem sized_of_run_threeWrites :
    let after := sample.performAll threeWrites [] blank
    ∃ d, (sample.Apart ∧ sample.Vacant blank ∧ sample.Run sample.Untouched blank after.1 after.2 ∧
        d ∈ sample.documents after.2 ∧ sample.payloadOf after.2 d = .ok (some [1]) ∧
        ∀ q ∈ Exchange.carried after.1, Crypto.digest q = Crypto.digest [1] → q = [1]) ∧
      d.path = path 8 ∧ Crypto.digest [1] = d.entry.payloadDigest ∧
      [1] ∈ Exchange.carried after.1 ∧ d.entry.payloadLength = 1 := by
  intro after
  have vacant : sample.Vacant blank := ⟨rfl, rfl⟩
  have run : sample.Run sample.Untouched blank after.1 after.2 := Store.Run.start.performAll threeWrites
  have unlike : ∀ q ∈ Exchange.carried after.1, Crypto.digest q = Crypto.digest [1] → q = [1] := by
    decide +kernel
  have there : ∃ d ∈ (sample.archive after.2).documents, d.path = path 8 ∧
      sample.payloadOf after.2 d = .ok (some [1]) := by decide +kernel
  obtain ⟨d, live, place, read⟩ := there
  have live' : d ∈ sample.documents after.2 := List.mem_toFinset.mpr live
  obtain ⟨hashed, carried, sized⟩ := sized_of_run sample_apart vacant run live' read
  have sized := (sized unlike).resolve_right fun ⟨x, member, ingested⟩ => by
    have called : x.call ∈ after.1.map Exchange.call := List.mem_map_of_mem member
    rw [sample.calls_performAll threeWrites [] blank, ingested] at called
    simp [threeWrites] at called
  exact ⟨d, ⟨sample_apart, vacant, run, live', read, unlike⟩, place, hashed, carried, sized⟩

/-- An entry that names the payload `[1]` and a length that is not its own. -/
def overstated : Entry := ⟨share 1, identity 1, path 7, 8, 999, Crypto.digest [1]⟩

def overstatedToken : Token := ⟨delegated, (keypair .identity 3).sign overstated.encode⟩

/-- A document is written with the payload, and the entry is ingested without it. -/
def overstating : List Call :=
  [.addIdentity (keypair .identity 1), .mint (share 1) (identity 1) .write true,
    .set (identity 1) (path 8) [1] 9 false, .ingest overstated overstatedToken none]

/-- The entry is refused with its payload and accepted without, and then the payload of its document is
shorter than the document is large. -/
theorem sizes_overstated :
    let after := sample.performAll overstating [] blank
    let d : Document := ⟨overstated, overstatedToken⟩
    (sample.Vacant blank ∧ sample.Run sample.Untouched blank after.1 after.2 ∧
      overstatedToken.authorises overstated ∧ d ∈ sample.documents after.2) ∧
    Archive.refusal? sample.share overstated overstatedToken (some [1]) =
      some (.validation (.payload (toString overstated.identity) (toString overstated.path))) ∧
    sample.payloadOf after.2 d = .ok (some [1]) ∧ d.entry.payloadDigest = Crypto.digest [1] ∧
    d.entry.payloadLength = 999 ∧ d.entry.payloadLength ≠ Nat.toUInt64 [1].length := by
  intro after d
  have live : d ∈ (sample.archive after.2).documents := by decide +kernel
  exact ⟨⟨⟨rfl, rfl⟩, Store.Run.start.performAll overstating, by decide +kernel,
    List.mem_toFinset.mpr live⟩, by decide +kernel, by decide +kernel, rfl, rfl, by decide⟩

end Sample

end DocumentShare
