import DocumentShare.Proofs.Credentials.Texts

/-!
# Serving requests for credentials

Any `Operation` may be asked of credentials, in any order. The first unlocks the vault, and each has its
`Effect` on what the backend holds (`serve_ends`), so a vault that began empty is in order after any of
them (`kept_of_served`).
-/

namespace DocumentShare

open Work

namespace Credentials

section General

variable [Crypto]

/-- Whatever can be asked of credentials. -/
inductive Operation
  | ready
  | ask (request : Request)
  | delegate (pack : Pack) (recipient : Identity) (restriction : Restriction)
  | keypairs (role : Role)
  | capabilities (query : CapabilityQuery)
  | wipe

/-- Answers the pack that was made, if one was asked for. -/
def serve (c : Vault.Config) : Operation → CredentialWork (Option Pack)
  | .ready => (fun _ => none) <$> ready c
  | .ask request => perform c request
  | .delegate pack recipient restriction => some <$> delegate c pack recipient restriction
  | .keypairs role => (fun _ => none) <$> keypairs c role
  | .capabilities query => (fun _ => none) <$> capabilities c query
  | .wipe => (fun _ => none) <$> wipe c

/-- An operation, and what the backend held before it and after. -/
structure Turn where
  operation : Operation
  before : Contents
  after : Contents

/-- What an operation comes to from a state, as a turn. -/
def turn (c : Vault.Config) (e : Operation) (t : Vault.State) : Turn :=
  ⟨e, t.backend.contents, ((serve c e).runOn t).2.backend.contents⟩

/-- From a state to a state by operations, the last first. -/
inductive Served (c : Vault.Config) (s : Vault.State) : List Turn → Vault.State → Prop
  | start : Served c s [] s
  | operation {log : List Turn} {t : Vault.State} (served : Served c s log t) (e : Operation) :
      Served c s (turn c e t :: log) ((serve c e).runOn t).2

def serveAll (c : Vault.Config) : List Operation → List Turn → Vault.State → List Turn × Vault.State
  | [], log, t => (log, t)
  | e :: operations, log, t => serveAll c operations (turn c e t :: log) ((serve c e).runOn t).2

theorem Served.all {c : Vault.Config} {s t : Vault.State} {log : List Turn}
    (served : Served c s log t) (operations : List Operation) :
    Served c s (serveAll c operations log t).1 (serveAll c operations log t).2 := by
  induction operations generalizing log t with
  | nil => exact served
  | cons e operations ih => exact ih (served.operation e)

/-- In no turn did digests collide. -/
def Untangled (log : List Turn) : Prop := ∀ x ∈ log, Distinct x.before x.after

instance (log : List Turn) : Decidable (Untangled log) :=
  inferInstanceAs (Decidable (∀ x ∈ log, Distinct x.before x.after))

variable {c : Vault.Config} {st u : Vault.State} {master : SealingKey} {contents after : Contents}
  {entropy : Entropy} {log : List Turn} {sure sure' : Prop}

/-! ### Reading -/

section Unlocked

variable (stands : st.Stands (some (.ok master)) contents entropy)

include stands

theorem records_listed (kind : Vault.RecordKind) :
    ((Vault.records c kind).runOn st).1 = .ok (Vault.listing master (c.front kind) contents) := by
  obtain ⟨items, answer, rfl, _⟩ := (Vault.records_answers stands kind).ran
  exact answer

theorem keypairs_answers (r : Role) : (keypairs c r).Answers st fun ks u =>
    ks = keypairsAmong c master contents r ∧ u.Stands (some (.ok master)) contents entropy := by
  have read : ((Vault.records c (keypairKind r)).reporting AuthError.vault).Answers st fun items u =>
      items = Vault.listing master (c.front (keypairKind r)) contents ∧
        u.Stands (some (.ok master)) contents entropy :=
    Ends.reporting (Vault.records_answers stands (keypairKind r))
  refine read.bind ?_
  rintro items u ⟨rfl, stands⟩
  exact Ends.pure ⟨rfl, stands⟩

theorem capabilities_answers (q : CapabilityQuery) : (capabilities c q).Answers st fun ps u =>
    ps = packsAmong c master contents q ∧ u.Stands (some (.ok master)) contents entropy := by
  have listed (kinds : List Vault.RecordKind) {t : Vault.State}
      (stands : t.Stands (some (.ok master)) contents entropy) :
      (kinds.mapM (Vault.records c)).Answers t fun listings u =>
        listings = kinds.map (fun kind => Vault.listing master (c.front kind) contents) ∧
          u.Stands (some (.ok master)) contents entropy := by
    induction kinds generalizing t with
    | nil => exact Ends.pure ⟨rfl, stands⟩
    | cons kind kinds ih =>
      rw [List.mapM_cons]
      refine (Vault.records_answers stands kind).bind ?_
      rintro items u ⟨rfl, stands⟩
      refine (ih stands).bind ?_
      rintro rest u ⟨rfl, stands⟩
      exact Ends.pure ⟨rfl, stands⟩
  have read : ((q.kinds.mapM (Vault.records c)).reporting AuthError.vault).Answers st
      fun listings u =>
        listings = q.kinds.map (fun kind => Vault.listing master (c.front kind) contents) ∧
          u.Stands (some (.ok master)) contents entropy :=
    Ends.reporting (listed q.kinds stands)
  refine read.bind ?_
  rintro listings u ⟨rfl, stands⟩
  exact Ends.pure ⟨rfl, stands⟩

theorem delegate_ends (p : Pack) (recipient : Identity) (restriction : Restriction) :
    (delegate c p recipient restriction).Ends st
      (fun _ u => u.Stands (some (.ok master)) contents entropy)
      fun _ u => u.Stands (some (.ok master)) contents entropy := by
  refine (heldKeypair_finds stands p.receiver).bind fun k u ⟨_, stands⟩ => ?_
  exact Ends.check (fun _ _ => stands) fun _ _ => stands

theorem serve_ends [Crypto.Lawful] (e : Operation) : (serve c e).Ends st
    (fun _ u => ∃ after rest, Effect c master contents after ∧
      u.Stands (some (.ok master)) after rest)
    fun _ u => u.Stands (some (.ok master)) contents entropy := by
  cases e with
  | ready =>
    have readied : (ready c).Answers st fun _ u => u.Stands (some (.ok master)) contents entropy :=
      Ends.reporting ((Vault.masterKey_answers stands).bind fun _ _ ⟨_, stands⟩ => Ends.pure stands)
    refine Ends.map (readied.mono (fun _ _ => id) fun _ _ => False.elim) fun _ u stands => ?_
    exact ⟨contents, entropy, .nothing, stands⟩
  | ask request =>
    let good (_ : Option Pack) (u : Vault.State) : Prop := ∃ after rest,
      Effect c master contents after ∧ u.Stands (some (.ok master)) after rest
    refine perform_ends stands good ?_ ?_ ?_ request
    · intro u stands
      exact ⟨contents, entropy, .nothing, stands⟩
    · intro role k
      refine (addKeypair_ensures stands k).mono ?_ fun _ _ => id
      intro _ u ⟨after, rest, ensures, stands⟩
      exact ⟨after, rest, .keypair k ensures, stands⟩
    · intro p u stands
      refine (store_ensures stands p).mono ?_ fun _ _ => id
      intro _ v ⟨valid, held, after, rest, ensures, stands⟩
      exact ⟨after, rest, .pack valid held ensures, stands⟩
  | delegate pack recipient restriction =>
    refine Ends.map (delegate_ends stands pack recipient restriction) fun _ u stands => ?_
    exact ⟨contents, entropy, .nothing, stands⟩
  | keypairs role =>
    refine Ends.map ((keypairs_answers stands role).mono (fun _ _ => id) fun _ _ => False.elim) ?_
    intro _ u ⟨_, stands⟩
    exact ⟨contents, entropy, .nothing, stands⟩
  | capabilities query =>
    refine Ends.map ((capabilities_answers stands query).mono (fun _ _ => id)
      fun _ _ => False.elim) ?_
    intro _ u ⟨_, stands⟩
    exact ⟨contents, entropy, .nothing, stands⟩
  | wipe =>
    have wiping : (wipe c).Ends st
        (fun _ u => u.Stands (some (.ok master)) (Vault.wiped c master contents) entropy)
        fun _ u => u.Stands (some (.ok master)) contents entropy :=
      Ends.reporting ((Vault.wipe_answers stands).mono (fun _ _ => id) fun _ _ => False.elim)
    exact Ends.map wiping fun _ u stands => ⟨_, entropy, .wiped, stands⟩

end Unlocked

/-! ### Unlocking -/

theorem unlocking_keypairs (r : Role) : Vault.Unlocking c .vault (keypairs c r) :=
  ((Vault.Unlocking.masterKey _).reporting AuthError.vault).bind _

theorem unlocking_capabilities (q : CapabilityQuery) :
    Vault.Unlocking c .vault (capabilities c q) := by
  have first (kind : Vault.RecordKind) (kinds : List Vault.RecordKind) :
      Vault.Unlocking c id ((kind :: kinds).mapM (Vault.records c)) := by
    rw [List.mapM_cons]
    exact (Vault.Unlocking.masterKey _).bind _
  have read : Vault.Unlocking c id (q.kinds.mapM (Vault.records c)) := by
    unfold CapabilityQuery.kinds
    cases q.mode with
    | none => exact first _ _
    | some mode => exact first _ _
  exact (read.reporting AuthError.vault).bind _

/-- An operation begins by unlocking the vault, or it comes to the same whatever the vault holds. -/
theorem unlocking_serve (c : Vault.Config) (e : Operation) :
    Vault.Unlocking c .vault (serve c e) ∨ ∃ reply, ∀ st, (serve c e).runOn st = (reply, st) := by
  cases e with
  | ready =>
    have readied : Vault.Unlocking c id (Vault.ready c) := Vault.Unlocking.masterKey _
    exact .inl ((readied.reporting AuthError.vault).map _)
  | ask request =>
    obtain unlocking | ⟨reply, _, same⟩ := unlocking_perform c request
    · exact .inl unlocking
    · exact .inr ⟨reply, same⟩
  | delegate pack recipient restriction =>
    exact .inl ((((unlocking_keypair? pack.receiver).bind _).bind _).map _)
  | keypairs role => exact .inl ((unlocking_keypairs role).map _)
  | capabilities query => exact .inl ((unlocking_capabilities query).map _)
  | wipe =>
    have wiping : Vault.Unlocking c id (Vault.wipe c) :=
      (((Vault.Unlocking.masterKey _).bind _).bind _).bind _
    exact .inl ((wiping.reporting AuthError.vault).map _)

/-! ### Runs -/

/-- A vault that is still locked holds nothing, and one that is unlocked is in order. -/
inductive Kept (c : Vault.Config) (sure : Prop) : Vault.State → Prop
  | locked {st : Vault.State} {entropy : Entropy} (stands : st.Stands none .empty entropy) :
      Kept c sure st
  | refused {st : Vault.State} {e : VaultError} {contents : Contents} {entropy : Entropy}
      (stands : st.Stands (some (.error e)) contents entropy) (rounds : c.rounds = 0) : Kept c sure st
  | opened {st : Vault.State} {master : SealingKey} {contents : Contents} {entropy : Entropy}
      (stands : st.Stands (some (.ok master)) contents entropy)
      (orderly : Orderly c master contents sure) : Kept c sure st

theorem Kept.weaken (kept : Kept c sure st) (surer : sure' → sure) : Kept c sure' st := by
  cases kept with
  | locked stands => exact .locked stands
  | refused stands rounds => exact .refused stands rounds
  | opened stands orderly => exact .opened stands (orderly.weaken surer)

/-- An unlocked vault that is in order, and what the backend held before the unlocking. -/
structure Opens (c : Vault.Config) (sure : Prop) (before : Contents) (master : SealingKey)
    (contents : Contents) (u : Vault.State) : Prop where
  stands : ∃ entropy, u.Stands (some (.ok master)) contents entropy
  orderly : Orderly c master contents sure
  same : ∀ kind key, c.front kind <+: key → contents.get? key = before.get? key
  /-- The unlocking wrote nothing if anything is listed. -/
  still : ∀ kind x, x ∈ Vault.listing master (c.front kind) contents → contents = before

theorem Kept.unlock (kept : Kept c sure st) : (Vault.masterKey c).Ends st
    (fun master u => ∃ contents, Opens c sure st.backend.contents master contents u)
    (fun e u => c.rounds = 0 ∧ ∃ contents rest, u.Stands (some (.error e)) contents rest) := by
  cases kept with
  | locked stands =>
    refine (masterKey_of_empty stands).mono ?_ fun _ _ => id
    intro master u ⟨contents, rest, stands', filed, vacant⟩
    have unlisted (kind : Vault.RecordKind) (x : Bytes × Bytes) :
        x ∉ Vault.listing master (c.front kind) contents := by
      obtain ⟨key, text⟩ := x
      intro member
      obtain ⟨inside, record, stored, _⟩ := Vault.mem_listing.mp member
      rw [vacant kind key inside] at stored
      cases stored
    refine ⟨contents, ⟨rest, stands'⟩, .vacant filed unlisted, fun kind key inside => ?_,
      fun kind x member => absurd member (unlisted kind x)⟩
    rw [stands.holds, Contents.get?_empty]
    exact vacant kind key inside
  | refused stands rounds =>
    refine (Vault.masterKey_unlocks c stands).mono ?_ ?_
    · intro master u ⟨_, _, unlocks, _⟩
      cases unlocks
    · intro e u ⟨contents, rest, _, stands⟩
      exact ⟨rounds, contents, rest, stands⟩
  | opened stands orderly =>
    refine (Vault.masterKey_answers stands).mono ?_ fun _ _ => False.elim
    rintro master u ⟨rfl, stands'⟩
    exact ⟨_, ⟨_, stands'⟩, orderly, fun _ _ _ => by rw [stands.holds],
      fun _ _ _ => stands.holds.symm⟩

theorem Kept.serve [Crypto.Lawful] (kept : Kept c sure st) (e : Operation) :
    Kept c (Distinct (turn c e st).before (turn c e st).after ∧ sure)
      ((Credentials.serve c e).runOn st).2 := by
  obtain unlocking | ⟨reply, same⟩ := unlocking_serve c e
  · have ends : (Credentials.serve c e).Ends st
        (fun _ u => Kept c (Distinct st.backend.contents u.backend.contents ∧ sure) u)
        fun _ u => Kept c (Distinct st.backend.contents u.backend.contents ∧ sure) u := by
      refine unlocking.after kept.unlock ?_ ?_
      · intro master u ⟨contents, opens⟩
        obtain ⟨entropy, stands⟩ := opens.stands
        refine (serve_ends stands e).mono ?_ ?_
        · intro _ v ⟨after, rest, effect, stands⟩
          rw [stands.holds]
          exact .opened stands (opens.orderly.effect opens.same effect)
        · intro _ v stands
          exact .opened stands (opens.orderly.weaken And.right)
      · intro _ u ⟨rounds, contents, rest, stands⟩
        exact .refused stands rounds
    rcases ends.cases with ⟨_, _, kept⟩ | ⟨_, _, kept⟩
    · exact kept
    · exact kept
  · rw [same]
    exact kept.weaken And.right

theorem kept_of_served [Crypto.Lawful] {s : Vault.State} (start : Kept c (Untangled []) s)
    (served : Served c s log st) : Kept c (Untangled log) st := by
  induction served with
  | start => exact start
  | operation served e ih => exact (ih.serve e).weaken List.forall_mem_cons.mp

end General

end Credentials

end DocumentShare
