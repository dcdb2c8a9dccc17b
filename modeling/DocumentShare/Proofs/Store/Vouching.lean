import DocumentShare.Proofs.Credentials.Entitlement
import DocumentShare.Proofs.Store.Filing

/-!
# Vouched documents

Every document that a store holds is proved by its token (`vouched_of_run`). No write made here is
verified: its token comes from the credentials, which only hold valid capabilities. The invariant
speaks of single records, so it holds between the steps of a write too, and storage may fail at any
of them.
-/

namespace DocumentShare

open Work

section

variable [Crypto]

/-- The document belongs to the share and its token proves it. -/
structure Document.Proved (d : Document) (share : Share) : Prop where
  ofShare : d.entry.share = share
  authorised : d.token.authorises d.entry

/-- The entries among the contents are documents that are proved. -/
def Vouched (share : Share) (entries : Contents) : Prop :=
  ∀ key value, entries.get? key = some value → Key.entries.contains key →
    ∃ d : Document, key = d.key ∧ value = d.encode ∧ d.Proved share

/-- A record as `Vouched` has them. -/
def VouchedRecord (share : Share) (key value : Bytes) : Prop :=
  Key.entries.contains key → ∃ d : Document, key = d.key ∧ value = d.encode ∧ d.Proved share

theorem vouched_iff {share : Share} {entries : Contents} :
    Vouched share entries ↔ entries.Every (VouchedRecord share) := Iff.rfl

theorem VouchedRecord.filing (share : Share) : Filing (VouchedRecord share) (·.Proved share) where
  record key value family record := by
    obtain ⟨d, rfl, rfl, proved⟩ := record family
    exact ⟨d, rfl, rfl, Document.decode_encode (Token.upright_of_authorises proved.authorised)⟩
  document d proved _ := ⟨d, rfl, rfl, proved⟩
  path e family := absurd (Key.entries_contains_cons.mp family) (by decide)
  time e family := absurd (Key.entries_contains_cons.mp family) (by decide)
  count g n family := absurd (Key.entries_contains_cons.mp family) (by decide)

/-! ### Archives -/

namespace Archive

variable {share : Share}

abbrev Vouches (share : Share) (a : Archive) : Prop := Vouched share a.entries.contents

theorem ingest_ne_refused {d : Document} (proved : d.Proved share) {payload : Option Bytes}
    (matching : ∀ p ∈ payload, matchesPayload d.entry p) (a : Archive) :
    (ingest share d.entry d.token payload).Ends a
      (fun outcome _ => ∀ error, outcome ≠ .refused error) fun _ _ => True := by
  have accepted : refusal? share d.entry d.token payload = none :=
    refusal?_eq_none.mpr ⟨proved.ofShare, proved.authorised, matching⟩
  unfold ingest
  rw [accepted]
  refine (Ends.any _ a).bind fun obsolete a _ => ?_
  split
  · exact Ends.pure (by rintro error ⟨⟩)
  · refine (Ends.any _ a).bind fun stale a _ => ?_
    refine (Ends.any _ a).bind fun pruned a _ => ?_
    refine (Ends.any _ a).bind fun _ a _ => ?_
    refine (Ends.any _ a).bind fun _ a _ => ?_
    exact Ends.pure (by rintro error ⟨⟩)

end Archive

/-! ### Calls -/

namespace Store

variable {α : Type} {s : Store}

/-- The documents of the store are proved, and its credentials are valid. -/
structure Vouches (s : Store) (t : Site) : Prop where
  documents : (s.archive t).Vouches s.share
  credentials : Credentials.Keeps s.vault.config (s.credentials t)

/-- The credentials of the store are valid. -/
abbrev KeepsCredentials (s : Store) (t : Site) : Prop :=
  Credentials.Keeps s.vault.config (s.credentials t)

theorem onArchive_keeps (apart : s.Apart) (w : ArchiveWork α) :
    (s.onArchive w).Keeps s.KeepsCredentials := by
  intro t keeps
  apply (onArchive_ends apart (Ends.any w _)).mono
  · intro _ u ⟨_, same⟩
    rw [KeepsCredentials, same]
    exact keeps
  · intro _ u ⟨_, same⟩
    rw [KeepsCredentials, same]
    exact keeps

theorem onCredentials_keeps (apart : s.Apart) {w : Vault.Config → CredentialWork α}
    (h : (w s.vault.config).Keeps (Credentials.Keeps s.vault.config)) :
    (s.onCredentials w).Keeps s.KeepsCredentials := by
  intro t keeps
  have told : ((w s.vault.config).reporting StoreError.auth).Keeps (Credentials.Keeps s.vault.config) :=
    .reporting h
  apply (onVault_ends apart (told _ keeps)).mono
  · intro _ u kept
    exact kept.1
  · intro _ u kept
    exact kept.1

variable [Crypto.Lawful]

theorem authorises_proved {t : Site} (apart : s.Apart) (keeps : s.KeepsCredentials t) :
    s.Authorises t (·.Proved s.share) := by
  intro e u ofShare same
  rw [KeepsCredentials, ← same] at keeps
  have told : ((Credentials.authorise s.vault.config e).reporting StoreError.auth).Ends
      (s.credentials u) (fun o _ => ∀ token ∈ o, Document.Proved ⟨e, token⟩ s.share)
      fun error _ => ∃ reason, error = .auth reason := by
    apply Ends.reporting
    apply (Credentials.authorise_proves keeps e).mono
    · intro o st ⟨proof, _⟩ token made
      exact ⟨ofShare, proof token made⟩
    · intro error st _
      exact ⟨error, rfl⟩
  exact onVault_ends (w := fun c => (Credentials.authorise c e).reporting StoreError.auth) apart told

theorem authorise_keeps (apart : s.Apart) (e : Entry) : (s.authorise e).Keeps s.KeepsCredentials := by
  apply onCredentials_keeps apart
  intro st keeps
  exact (Credentials.authorise_proves keeps e).mono (fun _ _ h => h.2) fun _ _ => id

theorem set_keeps (apart : s.Apart) (identity : Identity) (path : Path) (payload : Bytes)
    (timestamp : UInt64) (prune : Bool) :
    (s.set identity path payload timestamp prune).Keeps s.KeepsCredentials := by
  apply (onArchive_keeps apart _).bind
  intro stale
  split
  · exact .pure
  · apply (authorise_keeps apart _).bind
    intro o
    cases o with
    | none => exact .pure
    | some token =>
      apply (onArchive_keeps apart _).bind
      intro obsolete
      split
      · exact .pure
      · exact (onArchive_keeps apart _).bind fun _ => .pure

theorem clear_keeps (apart : s.Apart) (identity : Identity) (path : Path) :
    (s.clear identity path).Keeps s.KeepsCredentials := by
  apply (onArchive_keeps apart _).bind
  intro found
  cases found with
  | none => exact .throw
  | some existing =>
    apply (authorise_keeps apart _).bind
    intro o
    cases o with
    | none => exact .throw
    | some token =>
      apply (onArchive_keeps apart _).bind
      intro stale
      exact (onArchive_keeps apart _).bind fun _ => .pure

theorem perform_keeps (apart : s.Apart) (c : Call) : (s.perform c).Keeps s.KeepsCredentials := by
  cases c with
  | set identity path payload timestamp prune =>
    exact (set_keeps apart identity path payload timestamp prune).map
  | setAtAddress address path payload timestamp prune =>
    apply Keeps.map
    unfold setAtAddress
    split
    · exact set_keeps apart _ path payload timestamp prune
    · exact .pure
  | clear identity path => exact (clear_keeps apart identity path).map
  | ingest entry token payload => exact (onArchive_keeps apart _).map
  | ingestPayload identity path payload => exact (onArchive_keeps apart _).map
  | addIdentity keypair => exact (onCredentials_keeps apart (Credentials.addKeypair_keeps _)).map
  | addShare keypair => exact (onCredentials_keeps apart (Credentials.addKeypair_keeps _)).map
  | mint share user mode persist =>
    exact (onCredentials_keeps apart (Credentials.mint_keeps share user mode persist)).map
  | delegate pack recipient restriction =>
    exact (onCredentials_keeps apart (Credentials.delegate_keeps pack recipient restriction)).map
  | keep pack => exact (onCredentials_keeps apart (Credentials.store_keeps pack)).map
  | unlock => exact (onCredentials_keeps apart Credentials.ready_keeps).map
  | wipe => exact (onCredentials_keeps apart Credentials.wipe_keeps).map

theorem Vouches.after {t : Site} (apart : s.Apart) (vouches : s.Vouches t) (c : Call) :
    s.Vouches ((s.perform c).runOn t).2 := by
  have filing := VouchedRecord.filing s.share
  have authorises := authorises_proved apart vouches.credentials
  have filed := filing.of_call apart authorises (fun d ofShare proof => ⟨ofShare, proof⟩)
    (vouched_iff.mp vouches.documents) c
  exact ⟨vouched_iff.mpr filed.1, (perform_keeps apart c).after vouches.credentials⟩

/-! ### Whole runs -/

/-- The documents and the credentials of the store are still what they were. All else may have
changed, also what its backends fail at. -/
structure Leaves (s : Store) (t u : Site) : Prop where
  documents : (s.archive u).entries.contents = (s.archive t).entries.contents
  records : (s.credentials u).backend.contents = (s.credentials t).backend.contents
  lock : (s.credentials u).lock = (s.credentials t).lock

/-- Neither documents nor credentials are stored. -/
structure Bare (s : Store) (t : Site) : Prop where
  documents : (s.archive t).entries.contents = .empty
  records : (s.credentials t).backend.contents = .empty

theorem vouches_of_run {t u : Site} {log : List Exchange} (apart : s.Apart) (bare : s.Bare t)
    (run : s.Run s.Leaves t log u) : s.Vouches u := by
  induction run with
  | start =>
    refine ⟨?_, ?_⟩
    · rw [Archive.Vouches, bare.documents]
      exact vouched_iff.mpr .empty
    · rw [Credentials.Keeps, Vault.State.Keeps, bare.records]
      exact .empty
  | call run c ih => exact ih.after apart c
  | aside run leaves ih =>
    refine ⟨?_, ?_⟩
    · rw [Archive.Vouches, leaves.documents]
      exact ih.documents
    · rw [Credentials.Keeps, Vault.State.Keeps, leaves.records, leaves.lock]
      exact ih.credentials

end Store

/-- Every record in the family of entries is a document of the share that its token proves, and no
store of the share refuses it. -/
theorem vouched_of_run [Crypto.Lawful] {s : Store} {t u : Site} {log : List Exchange}
    (apart : s.Apart) (bare : s.Bare t) (run : s.Run s.Leaves t log u) {key value : Bytes}
    (stored : (s.archive u).entries.contents.get? key = some value)
    (family : Key.entries.contains key) :
    ∃ d, Document.decode value = .ok d ∧ key = Key.entry d.identity d.path ∧
      d.entry.share = s.share ∧ d.token.authorises d.entry ∧
      ∀ (other : Store) (v : Site) (payload : Option Bytes), other.share = s.share →
        (∀ p ∈ payload, Archive.matchesPayload d.entry p) →
        ∀ error, ((other.ingest d.entry d.token payload).runOn v).1 ≠ .ok (.refused error) := by
  obtain ⟨d, rfl, rfl, proved⟩ :=
    (Store.vouches_of_run apart bare run).documents key value stored family
  have upright := Token.upright_of_authorises proved.authorised
  refine ⟨d, Document.decode_encode upright, rfl, proved.ofShare, proved.authorised, ?_⟩
  intro other v payload same matching error refused
  have welcome := Archive.ingest_ne_refused (proved : d.Proved s.share) matching (other.archive v)
  rw [← same] at welcome
  have answered : (other.onArchive (Archive.ingest other.share d.entry d.token payload)).Ends v
      (fun outcome _ => ∀ error, outcome ≠ .refused error) fun _ _ => True := Ends.onPart welcome
  unfold Store.ingest at refused
  rcases answered.cases with ⟨outcome, answer, notRefused⟩ | ⟨_, failure, _⟩
  · rw [answer] at refused
    exact notRefused error (Except.ok.inj refused)
  · rw [failure] at refused
    cases refused

end

section Sample

open Crypto.Transparent

attribute [local instance] Crypto.transparent Crypto.transparent_lawful

theorem vouched_of_run_threeWrites :
    let after := sample.performAll threeWrites [] blank
    (sample.Apart ∧ sample.Bare blank ∧ sample.Run sample.Leaves blank after.1 after.2) ∧
    ∃ value d, (sample.archive after.2).entries.contents.get? (Key.entry (identity 1) (path 7))
        = some value ∧
      Document.decode value = .ok d ∧ d.entry.share = share 1 ∧ d.token.authorises d.entry := by
  intro after
  have bare : sample.Bare blank := ⟨rfl, rfl⟩
  have run : sample.Run sample.Leaves blank after.1 after.2 := Store.Run.start.performAll threeWrites
  have there : ((sample.archive after.2).entries.contents.get?
      (Key.entry (identity 1) (path 7))).isSome := by decide +kernel
  obtain ⟨value, stored⟩ := Option.isSome_iff_exists.mp there
  obtain ⟨d, read, _, ofShare, authorised, _⟩ :=
    vouched_of_run sample_apart bare run stored (Key.entries_contains.mpr ⟨_, rfl⟩)
  exact ⟨⟨sample_apart, bare, run⟩, value, d, stored, read, ofShare, authorised⟩

end Sample

end DocumentShare
