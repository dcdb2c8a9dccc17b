import DocumentShare.Proofs.Crypto.Transparent
import DocumentShare.Proofs.Work
import DocumentShare.Store.Basic

/-!
# Calls on a store

`Store.Run` is what can happen to a site on which a store is used: calls on the store and on the
credentials that it writes with, one after the other, and besides them whatever a relation allows to
others. The two parts of the site that calls work on are apart (`onArchive_ends`, `onVault_ends`).
-/

namespace DocumentShare

open Work

/-- What can be asked of a store and of the credentials that it writes with. -/
inductive Call [Crypto]
  | set (identity : Identity) (path : Path) (payload : Bytes) (timestamp : UInt64) (prune : Bool)
  | setAtAddress (address : String) (path : Path) (payload : Bytes) (timestamp : UInt64)
      (prune : Bool)
  | clear (identity : Identity) (path : Path)
  | ingest (entry : Entry) (token : Token) (payload : Option Bytes)
  | ingestPayload (identity : Identity) (path : Path) (payload : Bytes)
  | addIdentity (keypair : IdentityKeypair)
  | addShare (keypair : ShareKeypair)
  | mint (share : Share) (user : Identity) (mode : AccessMode) (persist : Bool)
  | delegate (pack : Pack) (recipient : Identity) (restriction : Restriction)
  | keep (pack : Pack)
  | unlock
  | wipe

inductive Reply
  | outcome (o : Outcome)
  | document (d : Document)
  | arrived (accepted : Bool)
  | pack (p : Pack)
  | done
deriving DecidableEq

/-- A call and what it came to. -/
structure Exchange [Crypto] where
  call : Call
  reply : Except StoreError Reply

namespace Store

/-- What calls on the store work on. -/
def archive (s : Store) (t : Site) : Archive :=
  ⟨t.backends.get s.entries, t.payloads.get s.payloads, t.feeds.get s.feed⟩

/-- What calls on the credentials work on. -/
def credentials (s : Store) (t : Site) : Vault.State :=
  ⟨t.backends.get s.vault.backend, t.locks.get s.vault.lock, t.entropy⟩

/-- The documents are kept apart from the credentials. -/
def Apart (s : Store) : Prop := s.entries ≠ s.vault.backend

section Parts

variable {ε α : Type} {s : Store} {t : Site}

theorem onArchive_ends (apart : s.Apart) {w : Work Archive ε α} {answers : α → Archive → Prop}
    {fails : ε → Archive → Prop} (h : w.Ends (s.archive t) answers fails) :
    (s.onArchive w).Ends t
      (fun x u => answers x (s.archive u) ∧ s.credentials u = s.credentials t)
      (fun e u => fails e (s.archive u) ∧ s.credentials u = s.credentials t) := by
  refine Ends.onPart (h.mono ?_ ?_)
  · intro x a answer
    refine ⟨by simpa [archive] using answer, ?_⟩
    simp [credentials, Slots.get_set_of_ne _ _ (Ne.symm apart)]
  · intro e a failure
    refine ⟨by simpa [archive] using failure, ?_⟩
    simp [credentials, Slots.get_set_of_ne _ _ (Ne.symm apart)]

theorem ends_onArchive (apart : s.Apart) {w : Work Archive ε α} {answers : α → Archive → Prop}
    {fails : ε → Archive → Prop} (h : w.Ends (s.archive t) answers fails) :
    (s.onArchive w).Ends t (fun x u => answers x (s.archive u)) fun e u => fails e (s.archive u) :=
  (onArchive_ends apart h).mono (fun _ _ h => h.1) fun _ _ h => h.1

theorem onVault_ends (apart : s.Apart) {w : Vault.Config → Work Vault.State ε α}
    {answers : α → Vault.State → Prop} {fails : ε → Vault.State → Prop}
    (h : (w s.vault.config).Ends (s.credentials t) answers fails) :
    (s.vault.work w).Ends t
      (fun x u => answers x (s.credentials u) ∧ s.archive u = s.archive t)
      (fun e u => fails e (s.credentials u) ∧ s.archive u = s.archive t) := by
  refine Ends.onPart (h.mono ?_ ?_)
  · intro x a answer
    refine ⟨by simpa [credentials] using answer, ?_⟩
    simp [archive, Slots.get_set_of_ne _ _ apart]
  · intro e a failure
    refine ⟨by simpa [credentials] using failure, ?_⟩
    simp [archive, Slots.get_set_of_ne _ _ apart]

end Parts

variable [Crypto]

def onCredentials {α : Type} (s : Store) (w : Vault.Config → CredentialWork α) :
    SiteWork StoreError α :=
  s.vault.work fun c => (w c).reporting .auth

def perform (s : Store) : Call → SiteWork StoreError Reply
  | .set identity path payload timestamp prune =>
    .outcome <$> s.set identity path payload timestamp prune
  | .setAtAddress address path payload timestamp prune =>
    .outcome <$> s.setAtAddress address path payload timestamp prune
  | .clear identity path => .document <$> s.clear identity path
  | .ingest entry token payload => .outcome <$> s.ingest entry token payload
  | .ingestPayload identity path payload =>
    .arrived <$> s.onArchive (Archive.ingestPayload identity path payload)
  | .addIdentity keypair => (fun _ => .done) <$> s.onCredentials (Credentials.addKeypair · keypair)
  | .addShare keypair => (fun _ => .done) <$> s.onCredentials (Credentials.addKeypair · keypair)
  | .mint share user mode persist =>
    .pack <$> s.onCredentials (Credentials.mint · share user mode persist)
  | .delegate pack recipient restriction =>
    .pack <$> s.onCredentials (Credentials.delegate · pack recipient restriction)
  | .keep pack => (fun _ => .done) <$> s.onCredentials (Credentials.store · pack)
  | .unlock => (fun _ => .done) <$> s.onCredentials Credentials.ready
  | .wipe => (fun _ => .done) <$> s.onCredentials Credentials.wipe

/-- From a site to a site by calls on a store, the last first, and what happens aside. -/
inductive Run (s : Store) (aside : Site → Site → Prop) (t : Site) : List Exchange → Site → Prop
  | start : Run s aside t [] t
  | call {log : List Exchange} {u : Site} (run : Run s aside t log u) (c : Call) :
      Run s aside t (⟨c, ((s.perform c).runOn u).1⟩ :: log) ((s.perform c).runOn u).2
  | aside {log : List Exchange} {u v : Site} (run : Run s aside t log u) (besides : aside u v) :
      Run s aside t log v

/-- Makes calls one after the other, given the log and the site before them. -/
def performAll (s : Store) : List Call → List Exchange → Site → List Exchange × Site
  | [], log, t => (log, t)
  | c :: calls, log, t =>
    s.performAll calls (⟨c, ((s.perform c).runOn t).1⟩ :: log) ((s.perform c).runOn t).2

theorem Run.performAll {s : Store} {aside : Site → Site → Prop} {t u : Site} {log : List Exchange}
    (run : s.Run aside t log u) (calls : List Call) :
    s.Run aside t (s.performAll calls log u).1 (s.performAll calls log u).2 := by
  induction calls generalizing log u with
  | nil => exact run
  | cons c calls ih => exact ih (run.call c)

theorem calls_performAll (s : Store) (calls : List Call) (log : List Exchange) (t : Site) :
    (s.performAll calls log t).1.map Exchange.call = calls.reverse ++ log.map Exchange.call := by
  induction calls generalizing log t with
  | nil => rfl
  | cons c calls ih =>
    rw [Store.performAll, ih, List.map_cons, List.reverse_cons, List.append_assoc]
    rfl

end Store

section Sample

open Crypto.Transparent

attribute [local instance] Crypto.transparent

/-- A store of a communal share, with its documents and its credentials on two backends. -/
def sample : Store := ⟨share 1, 0, 0, ⟨⟨"vault", "pass", 1⟩, 1, 0⟩, 0⟩

def blank : Site := .empty .scattered

theorem sample_apart : sample.Apart := Nat.zero_ne_one

/-- An identity is granted its part of the share, writes a document, replaces it, and writes another
that has the payload of the first. -/
def threeWrites : List Call :=
  [.addIdentity (keypair .identity 1), .mint (share 1) (identity 1) .write true,
    .set (identity 1) (path 7) [1] 8 false, .set (identity 1) (path 7) [2] 9 false,
    .set (identity 1) (path 8) [1] 9 false]

end Sample

end DocumentShare
