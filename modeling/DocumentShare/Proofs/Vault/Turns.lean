import DocumentShare.Proofs.Vault.Operating
import DocumentShare.Site.Basic

/-!
# Turns of vaults

`Vault.Run` is what can happen to a site on which vaults are used: requests of them, one after the
other, while bytes are also drawn elsewhere. On a backend that works a request comes to what
`Vault.Serves` says (`serve_serves`), and touches no lock but the vault's own.
-/

namespace DocumentShare

open Work

namespace Vault

/-- What can be asked of a vault. -/
inductive Request
  | ready
  | put (kind : RecordKind) (plaintext : Bytes)
  | records (kind : RecordKind)
  | delete (key : Bytes)
  | wipe
deriving DecidableEq

inductive Reply
  | done
  | key (key : Bytes)
  | records (items : List (Bytes × Bytes))
  | removed (there : Bool)
deriving DecidableEq

/-- A request made of a vault, and what it came to. -/
structure Turn where
  vault : Vault
  request : Request
  reply : Except VaultError Reply
deriving DecidableEq

variable [Crypto]

def respond (c : Config) : Request → VaultWork Reply
  | .ready => (fun _ => .done) <$> ready c
  | .put kind plaintext => .key <$> put c kind plaintext
  | .records kind => .records <$> records c kind
  | .delete key => .removed <$> delete c key
  | .wipe => (fun _ => .done) <$> wipe c

def serve (v : Vault) (r : Request) : SiteWork VaultError Reply := v.work (respond · r)

/-- From a site to a site by requests of the vaults that are in use, the last first. -/
inductive Run (used : Vault → Prop) (s : Site) : List Turn → Site → Prop
  | start : Run used s [] s
  | turn {log : List Turn} {t : Site} (run : Run used s log t) {v : Vault} (member : used v)
      (r : Request) :
      Run used s (⟨v, r, ((v.serve r).runOn t).1⟩ :: log) ((v.serve r).runOn t).2
  | elsewhere {log : List Turn} {t : Site} (run : Run used s log t) (n : Nat) :
      Run used s log { t with entropy := t.entropy.past n }

/-- Makes requests one after the other, given the log and the site before them. -/
def serveAll : List (Vault × Request) → List Turn → Site → List Turn × Site
  | [], log, t => (log, t)
  | (v, r) :: rest, log, t =>
    serveAll rest (⟨v, r, ((v.serve r).runOn t).1⟩ :: log) ((v.serve r).runOn t).2

theorem Run.serveAll {used : Vault → Prop} {s t : Site} {log : List Turn} (run : Run used s log t)
    {requests : List (Vault × Request)} (members : ∀ x ∈ requests, used x.1) :
    Run used s (serveAll requests log t).1 (serveAll requests log t).2 := by
  induction requests generalizing log t with
  | nil => exact run
  | cons x rest ih =>
    obtain ⟨member, members⟩ := List.forall_mem_cons.mp members
    exact ih (run.turn member x.2) members

/-- A site where nothing is stored and nothing is unlocked. -/
def blank : Site := .empty .scattered

/-! ### What a request comes to -/

/-- What a vault that is unlocked replies to a request, and the contents and the entropy after it. -/
inductive Responds (c : Config) (master : SealingKey) (contents : Contents) (entropy : Entropy) :
    Request → Reply → Contents → Entropy → Prop
  | ready : Responds c master contents entropy .ready .done contents entropy
  | put {kind : RecordKind} {plaintext key : Bytes}
      (stored : key = storageKey c kind (nextRecord master entropy plaintext)) :
      Responds c master contents entropy (.put kind plaintext) (.key key)
        (contents.insert key (nextRecord master entropy plaintext)) ((entropy.past 16).past 12)
  | records {kind : RecordKind} :
      Responds c master contents entropy (.records kind)
        (.records (listing master (c.front kind) contents)) contents entropy
  | delete {key : Bytes} :
      Responds c master contents entropy (.delete key) (.removed (contents.get? key).isSome)
        (contents.erase key) entropy
  | wipe : Responds c master contents entropy .wipe .done (wiped c master contents) entropy

section Inversion

variable {c : Config} {master : SealingKey} {contents after : Contents} {entropy rest : Entropy}
  {kind : RecordKind} {plaintext : Bytes} {reply : Reply}

theorem Responds.of_put
    (responds : Responds c master contents entropy (.put kind plaintext) reply after rest) :
    let record := nextRecord master entropy plaintext
    reply = .key (storageKey c kind record) ∧
      after = contents.insert (storageKey c kind record) record := by
  cases responds with
  | put stored =>
    subst stored
    exact ⟨rfl, rfl⟩

theorem Responds.of_records
    (responds : Responds c master contents entropy (.records kind) reply after rest) :
    reply = .records (listing master (c.front kind) contents) := by
  cases responds
  rfl

theorem Responds.of_wipe (responds : Responds c master contents entropy .wipe reply after rest) :
    after = wiped c master contents := by
  cases responds
  rfl

end Inversion

/-- What a request comes to, and the lock, the contents and the entropy after it. -/
inductive Serves (c : Config) (lock : Lock) (contents : Contents) (entropy : Entropy) (r : Request) :
    Except VaultError Reply → Lock → Contents → Entropy → Prop
  | refused {e : VaultError} {after : Contents} {rest : Entropy}
      (unlocks : Unlocks c contents entropy lock (.error e) after rest) :
      Serves c lock contents entropy r (.error e) (some (.error e)) after rest
  | answered {master : SealingKey} {between after : Contents} {left rest : Entropy} {reply : Reply}
      (unlocks : Unlocks c contents entropy lock (.ok master) between left)
      (responds : Responds c master between left r reply after rest) :
      Serves c lock contents entropy r (.ok reply) (some (.ok master)) after rest

section Operations

variable {c : Config} {st : State} {lock : Lock} {contents : Contents} {entropy : Entropy}
  {master : SealingKey} {r : Request}

theorem respond_answers (stands : st.Stands (some (.ok master)) contents entropy) :
    (respond c r).Answers st fun reply u => ∃ after rest,
      Responds c master contents entropy r reply after rest ∧
        u.Stands (some (.ok master)) after rest := by
  cases r with
  | ready =>
    have readied : (Vault.ready c).Answers st fun _ u =>
        u.Stands (some (.ok master)) contents entropy :=
      (masterKey_answers stands).bind fun _ u ⟨_, stands⟩ => Ends.pure stands
    refine Ends.map readied fun _ u stands => ?_
    exact ⟨_, _, .ready, stands⟩
  | put kind plaintext =>
    refine Ends.map (put_answers stands kind plaintext) ?_
    rintro key u ⟨stored, stands⟩
    exact ⟨_, _, .put stored, stands⟩
  | records kind =>
    refine Ends.map (records_answers stands kind) ?_
    rintro items u ⟨rfl, stands⟩
    exact ⟨_, _, .records, stands⟩
  | delete key =>
    refine Ends.map (delete_answers stands key) ?_
    rintro there u ⟨rfl, stands⟩
    exact ⟨_, _, .delete, stands⟩
  | wipe =>
    refine Ends.map (wipe_answers stands) ?_
    intro _ u stands
    exact ⟨_, _, .wipe, stands⟩

theorem unlocking_respond (c : Config) (r : Request) : Unlocking c id (respond c r) := by
  cases r with
  | ready => exact (Unlocking.masterKey _).bind _
  | put kind plaintext => exact (Unlocking.masterKey _).bind _
  | records kind => exact (Unlocking.masterKey _).bind _
  | delete key => exact (Unlocking.masterKey _).bind _
  | wipe => exact ((((Unlocking.masterKey _).bind _).bind _).bind _).bind _

theorem respond_serves (c : Config) (r : Request) (stands : st.Stands lock contents entropy) :
    ∃ after left rest, Serves c lock contents entropy r ((respond c r).runOn st).1 after left rest ∧
      ((respond c r).runOn st).2.Stands after left rest := by
  have ends : (respond c r).Ends st
      (fun reply u => ∃ after left rest, Serves c lock contents entropy r (.ok reply) after left rest ∧
        u.Stands after left rest)
      (fun e u => ∃ after left rest, Serves c lock contents entropy r (.error e) after left rest ∧
        u.Stands after left rest) := by
    refine (unlocking_respond c r).ends stands ?_ ?_
    · intro m between left u unlocks stands
      refine (respond_answers stands).mono ?_ fun _ _ => False.elim
      rintro reply u ⟨after, rest, responds, stands⟩
      exact ⟨_, _, _, .answered unlocks responds, stands⟩
    · intro e after rest u unlocks stands
      exact ⟨_, _, _, .refused unlocks, stands⟩
  rcases ends.cases with ⟨reply, answer, outcome⟩ | ⟨e, failure, outcome⟩
  · rwa [answer]
  · rwa [failure]

/-- A request is refused as the unlocking was, or it is answered under a master key. -/
theorem Serves.cases {reply : Except VaultError Reply} {locked : Lock} {after : Contents}
    {rest : Entropy} (serves : Serves c lock contents entropy r reply locked after rest) :
    (∃ e, reply = .error e ∧ locked = some (.error e) ∧
        Unlocks c contents entropy lock (.error e) after rest) ∨
      ∃ master between left answer, reply = .ok answer ∧ locked = some (.ok master) ∧
        Unlocks c contents entropy lock (.ok master) between left ∧
        Responds c master between left r answer after rest := by
  cases serves with
  | refused unlocks => exact .inl ⟨_, rfl, rfl, unlocks⟩
  | answered unlocks responds => exact .inr ⟨_, _, _, _, rfl, rfl, unlocks, responds⟩

/-! ### What a request leaves alone -/

section Frame

variable {result : Except VaultError SealingKey} {reply : Reply} {after : Contents} {rest : Entropy}
  {key : Bytes}

theorem Responds.get?_of_spared (responds : Responds c master contents entropy r reply after rest)
    (unput : reply ≠ .key key) (undeleted : r ≠ .delete key) (unwiped : r ≠ .wipe) :
    after.get? key = contents.get? key := by
  cases responds with
  | ready => rfl
  | put stored => exact Contents.get?_insert_of_ne fun same => unput (same ▸ rfl)
  | records => rfl
  | delete => exact Contents.get?_erase_of_ne fun same => undeleted (same ▸ rfl)
  | wipe => exact absurd rfl unwiped

theorem Serves.lock_eq {reply : Except VaultError Reply} {locked : Lock}
    (serves : Serves c (some result) contents entropy r reply locked after rest) :
    locked = some result := by
  cases serves with
  | refused unlocks =>
    cases unlocks
    rfl
  | answered unlocks _ =>
    cases unlocks
    rfl

/-! ### What a request draws -/

omit [Crypto] in
theorem past_past (e : Entropy) (n k : Nat) : (e.past n).past k = e.past (n + k) := by
  simp [Entropy.past, Nat.add_assoc]

theorem Unlocks.draws (unlocks : Unlocks c contents entropy lock result after rest) :
    ∃ n, rest = entropy.past n := by
  cases unlocks with
  | again => exact ⟨0, rfl⟩
  | checked _ => exact ⟨0, rfl⟩
  | refused _ _ => exact ⟨16, rfl⟩
  | created _ _ => exact ⟨16 + 12, past_past _ _ _⟩

theorem Responds.draws (responds : Responds c master contents entropy r reply after rest) :
    ∃ n, rest = entropy.past n := by
  cases responds with
  | put _ => exact ⟨16 + 12, past_past _ _ _⟩
  | _ => exact ⟨0, rfl⟩

theorem Serves.draws {reply : Except VaultError Reply} {locked : Lock}
    (serves : Serves c lock contents entropy r reply locked after rest) :
    ∃ n, rest = entropy.past n := by
  cases serves with
  | refused unlocks => exact unlocks.draws
  | answered unlocks responds =>
    obtain ⟨n, rfl⟩ := unlocks.draws
    obtain ⟨k, rfl⟩ := responds.draws
    exact ⟨n + k, past_past _ _ _⟩

end Frame

end Operations

/-! ### Requests at a site -/

/-- What is on the backend of a vault. -/
def contents (v : Vault) (s : Site) : Contents := (s.backends.get v.backend).contents

/-- What a vault works on. -/
def view (v : Vault) (s : Site) : State := ⟨s.backends.get v.backend, s.locks.get v.lock, s.entropy⟩

theorem runOn_serve (v : Vault) (r : Request) (s : Site) : (v.serve r).runOn s =
    (((respond v.config r).runOn (v.view s)).1, { s with
      backends := s.backends.set v.backend ((respond v.config r).runOn (v.view s)).2.backend,
      locks := s.locks.set v.lock ((respond v.config r).runOn (v.view s)).2.lock,
      entropy := ((respond v.config r).runOn (v.view s)).2.entropy }) := rfl

theorem view_serve (v : Vault) (r : Request) (s : Site) :
    v.view ((v.serve r).runOn s).2 = ((respond v.config r).runOn (v.view s)).2 := by
  rw [runOn_serve, view]
  simp only [Slots.get_set_self]

theorem locks_serve_of_ne {v : Vault} {lock : Nat} (r : Request) (s : Site) (other : lock ≠ v.lock) :
    ((v.serve r).runOn s).2.locks.get lock = s.locks.get lock := Slots.get_set_of_ne _ _ other

/-- What a request comes to at a site, and the site after it. -/
structure Served (v : Vault) (r : Request) (s : Site) (reply : Except VaultError Reply) (t : Site) :
    Prop where
  serves : Serves v.config (s.locks.get v.lock) (v.contents s) s.entropy r reply
    (t.locks.get v.lock) (v.contents t) t.entropy
  works : (t.backends.get v.backend).Works
  /-- Only the vault's own lock is touched. -/
  others : ∀ lock, lock ≠ v.lock → t.locks.get lock = s.locks.get lock

theorem serve_served (v : Vault) (r : Request) {s : Site} (works : (s.backends.get v.backend).Works) :
    v.Served r s ((v.serve r).runOn s).1 ((v.serve r).runOn s).2 := by
  have begins : (v.view s).Stands (s.locks.get v.lock) (v.contents s) s.entropy := ⟨works, rfl, rfl, rfl⟩
  obtain ⟨lock, after, rest, serves, stands⟩ := respond_serves v.config r begins
  obtain ⟨works, rfl, rfl, rfl⟩ := stands
  rw [← view_serve] at serves works
  exact ⟨serves, works, fun lock other => locks_serve_of_ne r s other⟩

theorem serve_ends (v : Vault) (r : Request) {s : Site} (works : (s.backends.get v.backend).Works) :
    (v.serve r).Ends s (fun reply t => v.Served r s (.ok reply) t)
      fun e t => v.Served r s (.error e) t := by
  have served := serve_served v r works
  unfold Ends
  rcases ran : (v.serve r).runOn s with ⟨e | reply, t⟩
  · rwa [ran] at served
  · rwa [ran] at served

end Vault

end DocumentShare
