import DocumentShare.Proofs.Store.Calls
import DocumentShare.Proofs.Store.Plans

/-!
# What calls come to

`Archive.Performs` lists the replies that a call may have, each with the steps that the call then makes on
the archive. They are those of a plan for what the call may write (`Archive.Performs.plans`), and a call
that fails of itself makes none (`Archive.Performs.refuses`).
-/

namespace DocumentShare

/-- Whether a call failed for what it asked or for its credentials, and not for storage. -/
structure StoreError.Refuses (e : StoreError) : Prop where
  notStorage : ∀ reason, e ≠ .storage reason
  notInvariant : ∀ fault, e ≠ .invariant fault

theorem StoreError.Refuses.auth (error : AuthError) : (StoreError.auth error).Refuses where
  notStorage _ := by rintro ⟨⟩
  notInvariant _ := by rintro ⟨⟩

variable [Crypto]

namespace Archive

theorem matchesPayload_iff {e : Entry} {payload : Bytes} :
    matchesPayload e payload ↔
      payload.length = e.payloadLength.toNat ∧ Crypto.digest payload = e.payloadDigest := by
  simp [matchesPayload]

theorem refusal?_eq_none {share : Share} {e : Entry} {t : Token} {payload : Option Bytes} :
    refusal? share e t payload = none ↔
      e.share = share ∧ t.authorises e ∧ ∀ p ∈ payload, matchesPayload e p := by
  unfold refusal?
  split
  · next other => simp [other]
  · next same =>
    split
    · next forged => simp_all
    · next proof =>
      split
      · next differs =>
        cases payload with
        | none => cases differs
        | some p => simp_all
      · next matching =>
        cases payload with
        | none => simp_all
        | some p => simp_all

/-- A document at the place of an entry is at least as recent, or one above it is newer. -/
def Obsoletes (a : Archive) (e : Entry) : Prop :=
  ∃ d ∈ a.documents, d.identity = e.identity ∧
    (d.path = e.path ∧ e.isNewerThan d.entry = false ∨
      d.path.isStrictPrefixOf e.path ∧ d.entry.isNewerThan e)

/-- What ingesting an entry comes to, and the steps that it makes. -/
inductive Ingests (a : Archive) (share : Share) (e : Entry) (t : Token) (payload : Option Bytes) :
    Except StoreError Outcome → List Step → Prop
  | refused {error : StoreError} (h : refusal? share e t payload = some error) :
      Ingests a share e t payload (.ok (.refused error)) []
  | obsolete (accepted : refusal? share e t payload = none) (older : a.Obsoletes e) :
      Ingests a share e t payload (.ok .obsolete) []
  | written (accepted : refusal? share e t payload = none) (newest : ¬a.Obsoletes e) :
      Ingests a share e t payload
        (.ok (.success ⟨e, t⟩ ((a.documents.filter e.prunes).map Document.path)))
        (a.plan ⟨e, t⟩ payload (Event.ofIngest ⟨e, t⟩ payload))

/-- What the arrival of a payload comes to, and the steps that it makes. -/
inductive Receives (a : Archive) (identity : Identity) (path : Path) (payload : Bytes) :
    Except StoreError Bool → List Step → Prop
  | arrived {d : Document} (live : d ∈ a.documents) (here : d.identity = identity ∧ d.path = path)
      (matching : matchesPayload d.entry payload) :
      Receives a identity path payload (.ok true) [.store payload, .tell (.payloadIngest d)]
  | unclaimed : Receives a identity path payload (.ok false) []

/-- What writing an entry made here comes to, and the steps that it makes. -/
inductive Sets (a : Archive) (good : Document → Prop) (e : Entry) (payload : Bytes) (prune : Bool) :
    Except StoreError Outcome → List Step → Prop
  | prevented (some : a.documents.filter e.prunes ≠ []) (forbidden : prune = false) :
      Sets a good e payload prune (.ok (.pruningPrevented (a.documents.filter e.prunes))) []
  | failed (permitted : a.documents.filter e.prunes ≠ [] → prune = true) (error : AuthError) :
      Sets a good e payload prune (.error (.auth error)) []
  | unauthorised (permitted : a.documents.filter e.prunes ≠ [] → prune = true) :
      Sets a good e payload prune (.ok (.refused (.authorisation (Store.noCapability e)))) []
  | obsolete (permitted : a.documents.filter e.prunes ≠ [] → prune = true) (older : a.Obsoletes e) :
      Sets a good e payload prune (.ok .obsolete) []
  | written {t : Token} (permitted : a.documents.filter e.prunes ≠ [] → prune = true)
      (newest : ¬a.Obsoletes e) (proof : good ⟨e, t⟩) :
      Sets a good e payload prune
        (.ok (.success ⟨e, t⟩ ((a.documents.filter e.prunes).map Document.path)))
        (a.plan ⟨e, t⟩ (some payload) [.documentSet ⟨e, t⟩])

/-- What clearing a document comes to, and the steps that it makes. -/
inductive Clears (s : Store) (good : Document → Prop) (a : Archive) (identity : Identity)
    (path : Path) : Except StoreError Document → List Step → Prop
  | absent (none : ∀ d ∈ a.documents, ¬(d.identity = identity ∧ d.path = path)) :
      Clears s good a identity path
        (.error (.validation (.noSuchDocument (toString path) (toString identity)))) []
  | failed (error : AuthError) : Clears s good a identity path (.error (.auth error)) []
  | unauthorised {d : Document} (live : d ∈ a.documents) (here : d.identity = identity ∧ d.path = path) :
      Clears s good a identity path
        (.error (.authorisation (Store.noCapability (s.clearing d identity path)))) []
  | written {d : Document} {t : Token} (live : d ∈ a.documents)
      (here : d.identity = identity ∧ d.path = path) (proof : good ⟨s.clearing d identity path, t⟩) :
      Clears s good a identity path (.ok ⟨s.clearing d identity path, t⟩)
        (a.plan ⟨s.clearing d identity path, t⟩ (some [])
          [.documentSet ⟨s.clearing d identity path, t⟩])

end Archive

/-- Whether a call is one on the credentials. -/
def Call.onCredentials : Call → Bool
  | .set .. | .setAtAddress .. | .clear .. | .ingest .. | .ingestPayload .. => false
  | _ => true

/-- What a call comes to, and the steps that it makes, where what the credentials authorise is `good`. -/
inductive Archive.Performs (s : Store) (good : Document → Prop) (a : Archive) :
    Call → Except StoreError Reply → List Step → Prop
  | set {identity : Identity} {path : Path} {payload : Bytes} {timestamp : UInt64} {prune : Bool}
      {r : Except StoreError Outcome} {steps : List Step}
      (sets : a.Sets good (Store.entryOf s.share identity path timestamp payload) payload prune r steps) :
      Performs s good a (.set identity path payload timestamp prune) (r.map .outcome) steps
  | setAtAddress {address : String} {identity : Identity} {path : Path} {payload : Bytes}
      {timestamp : UInt64} {prune : Bool} {r : Except StoreError Outcome} {steps : List Step}
      (named : Identifier.parse .identity address = .ok identity)
      (sets : a.Sets good (Store.entryOf s.share identity path timestamp payload) payload prune r steps) :
      Performs s good a (.setAtAddress address path payload timestamp prune) (r.map .outcome) steps
  | misnamed {address : String} {path : Path} {payload : Bytes} {timestamp : UInt64} {prune : Bool}
      {error : ValidationError} (misnamed : Identifier.parse .identity address = .error error) :
      Performs s good a (.setAtAddress address path payload timestamp prune)
        (.ok (.outcome (.refused (.validation error)))) []
  | clear {identity : Identity} {path : Path} {r : Except StoreError Document} {steps : List Step}
      (clears : a.Clears s good identity path r steps) :
      Performs s good a (.clear identity path) (r.map .document) steps
  | ingest {e : Entry} {t : Token} {payload : Option Bytes} {r : Except StoreError Outcome}
      {steps : List Step} (ingests : a.Ingests s.share e t payload r steps) :
      Performs s good a (.ingest e t payload) (r.map .outcome) steps
  | ingestPayload {identity : Identity} {path : Path} {payload : Bytes} {r : Except StoreError Bool}
      {steps : List Step} (receives : a.Receives identity path payload r steps) :
      Performs s good a (.ingestPayload identity path payload) (r.map .arrived) steps
  | pack {c : Call} (aside : c.onCredentials) (p : Pack) : Performs s good a c (.ok (.pack p)) []
  | done {c : Call} (aside : c.onCredentials) : Performs s good a c (.ok .done) []
  | barred {c : Call} (aside : c.onCredentials) (error : AuthError) :
      Performs s good a c (.error (.auth error)) []

/-! ### What calls write -/

/-- The documents that a call may write. -/
def Call.Writes (s : Store) : Call → Document → Prop
  | .set identity path payload timestamp _, d =>
    d.entry = Store.entryOf s.share identity path timestamp payload
  | .setAtAddress address path payload timestamp _, d =>
    ∃ identity, Identifier.parse .identity address = .ok identity ∧
      d.entry = Store.entryOf s.share identity path timestamp payload
  | .clear identity path, d => ∃ existing, d.entry = s.clearing existing identity path
  | .ingest entry token payload, d =>
    d = ⟨entry, token⟩ ∧ Archive.refusal? s.share entry token payload = none
  | _, _ => False

def Call.payload? : Call → Option Bytes
  | .set _ _ payload _ _ => some payload
  | .setAtAddress _ _ payload _ _ => some payload
  | .clear _ _ => some []
  | .ingest _ _ payload => payload
  | .ingestPayload _ _ payload => some payload
  | _ => none

def Call.Carries (c : Call) (payload : Bytes) : Prop := c.payload? = some payload

namespace Archive

variable {s : Store} {a : Archive} {good may : Document → Prop} {brings : Bytes → Prop} {c : Call}
  {steps : List Step} {e : StoreError}

omit [Crypto] in
theorem Sets.plans {e : Entry} {payload : Bytes} {prune : Bool} {r : Except StoreError Outcome}
    (sets : a.Sets good e payload prune r steps) (allowed : ∀ t, good ⟨e, t⟩ → may ⟨e, t⟩)
    (brought : brings payload) : a.Plans may brings steps := by
  cases sets with
  | written _ _ proof =>
    refine .write (allowed _ proof) ?_
    rintro p ⟨⟩
    exact brought
  | _ => exact .nothing

/-- The steps of a call are those of a plan for what it may write. -/
theorem Performs.plans {r : Except StoreError Reply} (performs : a.Performs s good c r steps)
    (accepts : ∀ d, d.entry.share = s.share → d.token.authorises d.entry → good d) :
    a.Plans (fun d => c.Writes s d ∧ good d) c.Carries steps := by
  cases performs with
  | set sets => exact sets.plans (fun t proof => ⟨rfl, proof⟩) rfl
  | setAtAddress named sets => exact sets.plans (fun t proof => ⟨⟨_, named, rfl⟩, proof⟩) rfl
  | clear clears =>
    cases clears with
    | @written d t _ _ proof =>
      refine .write ⟨⟨d, rfl⟩, proof⟩ ?_
      rintro p ⟨⟩
      rfl
    | _ => exact .nothing
  | ingest ingests =>
    cases ingests with
    | written accepted _ =>
      obtain ⟨ofShare, proof, _⟩ := refusal?_eq_none.mp accepted
      exact .write ⟨⟨rfl, accepted⟩, accepts _ ofShare proof⟩ fun _ brought => brought
    | _ => exact .nothing
  | ingestPayload receives =>
    cases receives with
    | arrived => exact .arrival rfl
    | unclaimed => exact .nothing
  | _ => exact .nothing

omit [Crypto] in
theorem error_of_map {ε α β : Type} {g : α → β} {r : Except ε α} {e : ε} (failed : .error e = r.map g) :
    r = .error e := by
  cases r with
  | error e' =>
    cases failed
    rfl
  | ok x => cases failed

/-- A call fails of itself for what it asked or for its credentials, and before it makes a step. -/
theorem Performs.refuses (performs : a.Performs s good c (.error e) steps) :
    e.Refuses ∧ steps = [] := by
  generalize failed : Except.error e = r at performs
  cases performs with
  | set sets =>
    rw [error_of_map failed] at sets
    cases sets with
    | failed _ error => exact ⟨.auth error, rfl⟩
  | setAtAddress _ sets =>
    rw [error_of_map failed] at sets
    cases sets with
    | failed _ error => exact ⟨.auth error, rfl⟩
  | clear clears =>
    rw [error_of_map failed] at clears
    cases clears with
    | absent _ => exact ⟨⟨fun _ => by rintro ⟨⟩, fun _ => by rintro ⟨⟩⟩, rfl⟩
    | failed error => exact ⟨.auth error, rfl⟩
    | unauthorised _ _ => exact ⟨⟨fun _ => by rintro ⟨⟩, fun _ => by rintro ⟨⟩⟩, rfl⟩
  | ingest ingests =>
    rw [error_of_map failed] at ingests
    cases ingests
  | ingestPayload receives =>
    rw [error_of_map failed] at receives
    cases receives
  | barred _ error =>
    cases failed
    exact ⟨.auth error, rfl⟩
  | misnamed _ => cases failed
  | pack _ _ => cases failed
  | done _ => cases failed

end Archive

end DocumentShare
