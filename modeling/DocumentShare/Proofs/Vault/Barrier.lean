import DocumentShare.Proofs.Vault.Durability

/-!
# The first unlocking is the last

What the first request of a vault comes to when it unlocks is kept in the lock, and whatever shares the
lock repeats it (`Vault.History.locked`). After a failure no request gets past the lock
(`respond_refused`). After a success none looks at the check record again: requests come to the same at
states that differ in that record and in whether it can be read (`respond_matches`).
-/

namespace DocumentShare

open Work

/-! ### Backends that differ in hidden values -/

namespace Backend

variable {hidden : Bytes → Prop} {base : Backend}

/-- Two backends that hold the same but for hidden values, none of which was read since `base`, and
that are out of order alike but for reading them. -/
structure Parallel (hidden : Bytes → Prop) (base b b' : Backend) : Prop where
  stored : ∀ key, ¬hidden key → b.contents.get? key = b'.contents.get? key
  outages : ∀ op, op ≠ .get → b.outages op = b'.outages op
  reads : b.counts.reads = base.counts.reads
  excused : ∀ op o, b.outages op = some o → ∃ first, base.outages op = some first ∧ first.error = o.error

/-- Something other than reading single values is out of order with this error. -/
def Excuses (base : Backend) (e : StorageError) : Prop :=
  ∃ op o, op ≠ .get ∧ base.outages op = some o ∧ o.error = e

theorem ask_matches {op : Operation} (other : op ≠ .get) :
    (ask op).Matches (Parallel hidden base) base.Excuses := by
  intro b b' par
  rw [ask, runOn_ofStep, runOn_ofStep, ← par.outages op other]
  rcases outage : b.outages op with _ | ⟨error, _ | n⟩
  · exact ⟨rfl, fun _ none => (by cases none), par⟩
  · obtain ⟨first, found, same⟩ := par.excused op _ outage
    refine ⟨rfl, fun _ failed => ?_, par⟩
    cases failed
    exact ⟨op, first, other, found, same⟩
  · refine ⟨rfl, fun _ none => (by cases none), par.stored, fun o single => ?_, par.reads,
      fun o found there => ?_⟩
    · show (if o = op then _ else _) = if o = op then _ else _
      rw [par.outages o single]
    · by_cases same : o = op
      · subst same
        obtain ⟨first, before, unchanged⟩ := par.excused o _ outage
        have there : some (Outage.mk error n) = some found := by simpa [setOutage] using there
        cases there
        exact ⟨first, before, unchanged⟩
      · exact par.excused o found (by simpa [setOutage, same] using there)

theorem set_matches (key value : Bytes) : (set key value).Matches (Parallel hidden base) base.Excuses := by
  have other : Operation.set ≠ .get := by decide
  refine (ask_matches other).bind fun _ => ?_
  intro b b' par
  refine ⟨rfl, fun _ none => (by cases none), fun k seen => ?_, par.outages, par.reads, par.excused⟩
  show (b.contents.insert key value).get? k = (b'.contents.insert key value).get? k
  rw [Contents.get?_insert, Contents.get?_insert, par.stored k seen]

theorem Parallel.erase {b b' : Backend} (par : Parallel hidden base b b') (key : Bytes) :
    Parallel hidden base
      { b with contents := b.contents.erase key, counts.deletes := b.counts.deletes + 1 }
      { b' with contents := b'.contents.erase key, counts.deletes := b'.counts.deletes + 1 } := by
  refine ⟨fun k seen => ?_, par.outages, par.reads, par.excused⟩
  show (b.contents.erase key).get? k = (b'.contents.erase key).get? k
  rw [Contents.get?_erase, Contents.get?_erase, par.stored k seen]

/-- Deleting tells whether there was a value, which must then not be hidden. -/
theorem delete_matches {key : Bytes} (seen : ¬hidden key) :
    (delete key).Matches (Parallel hidden base) base.Excuses := by
  have other : Operation.delete ≠ .get := by decide
  refine (ask_matches other).bind fun _ => ?_
  intro b b' par
  refine ⟨?_, fun _ none => (by cases none), par.erase key⟩
  show Except.ok (b.contents.get? key).isSome = .ok (b'.contents.get? key).isSome
  rw [par.stored key seen]

theorem erase_matches (key : Bytes) :
    (do let _ ← delete key : BackendWork Unit).Matches (Parallel hidden base) base.Excuses := by
  have other : Operation.delete ≠ .get := by decide
  rw [delete, bind_assoc]
  refine (ask_matches other).bind fun _ => ?_
  intro b b' par
  exact ⟨rfl, fun _ none => (by cases none), par.erase key⟩

theorem scan_matches {range : KeyRange} (direction : Direction)
    (seen : ∀ key, range.contains key → ¬hidden key) :
    (scan range direction).Matches (Parallel hidden base) base.Excuses := by
  intro b b' par
  have ran (b : Backend) : (scan range direction).runOn b =
      (.ok ((Scan.start range direction).pending b.contents),
        { b with counts.scans := b.counts.scans + 1 }) := rfl
  have items (c : Contents) : (Scan.start range direction).pending c =
      direction.arrange (c.within range) := by cases direction <;> rfl
  have same : b.contents.within range = b'.contents.within range :=
    Contents.within_congr fun key inside => par.stored key (seen key inside)
  rw [ran, ran, items, items, same]
  exact ⟨rfl, fun _ none => (by cases none), par.stored, par.outages, par.reads, par.excused⟩

end Backend

namespace Vault

section General

/-! ### States of an unlocked vault -/

variable {hidden : Bytes → Prop} {base : Backend} {c : Config} {m : SealingKey}

/-- Two states of a vault that is unlocked, on backends that differ in hidden values. -/
structure State.Parallel (hidden : Bytes → Prop) (base : Backend) (m : SealingKey) (st st' : State) :
    Prop where
  unlocked : st.lock = some (.ok m)
  unlocked' : st'.lock = some (.ok m)
  draws : st.entropy = st'.entropy
  backends : Backend.Parallel hidden base st.backend st'.backend

/-- Storage is out of order for something other than reading single values, and this is the error. -/
def Excuses (base : Backend) (e : VaultError) : Prop :=
  ∃ reason, base.Excuses reason ∧ e = .ofStorage reason

theorem runOn_onBackend {α : Type} (w : BackendWork α) (st : State) : (onBackend w).runOn st =
    ((w.runOn st.backend).1.mapError .ofStorage, { st with backend := (w.runOn st.backend).2 }) := rfl

theorem onBackend_matches {α : Type} {w : BackendWork α}
    (h : w.Matches (Backend.Parallel hidden base) base.Excuses) :
    (onBackend w).Matches (State.Parallel hidden base m) (Excuses base) := by
  intro st st' par
  obtain ⟨same, excused, after⟩ := h _ _ par.backends
  rw [runOn_onBackend, runOn_onBackend, same]
  refine ⟨rfl, fun e failed => ?_, par.unlocked, par.unlocked', par.draws, after⟩
  rw [← same] at failed
  rcases answer : (w.runOn st.backend).1 with reason | x
  · rw [answer] at failed
    cases failed
    exact ⟨reason, excused reason answer, rfl⟩
  · rw [answer] at failed
    cases failed

theorem erase_matches (key : Bytes) :
    (do let _ ← onBackend (Backend.delete key) : VaultWork Unit).Matches
      (State.Parallel hidden base m) (Excuses base) := by
  have forgets (st : State) : (do let _ ← onBackend (Backend.delete key) : VaultWork Unit).runOn st
      = (onBackend (do let _ ← Backend.delete key : BackendWork Unit)).runOn st := by
    rw [runOn_bind, runOn_onBackend, runOn_onBackend, runOn_bind]
    rcases (Backend.delete key).runOn st.backend with ⟨e | there, b⟩
    · rfl
    · rfl
  intro st st' par
  rw [forgets, forgets]
  exact onBackend_matches (Backend.erase_matches key) st st' par

theorem draw_matches (n : Nat) :
    (draw n).Matches (State.Parallel hidden base m) (Excuses base) := by
  intro st st' par
  have ran (st : State) : (draw n).runOn st =
      (.ok (st.entropy.ahead n), { st with entropy := st.entropy.past n }) := rfl
  rw [ran, ran, par.draws]
  exact ⟨rfl, fun _ none => (by cases none), par.unlocked, par.unlocked', rfl, par.backends⟩

variable [Crypto]

theorem masterKey_matches (c : Config) :
    (masterKey c).Matches (State.Parallel hidden base m) (Excuses base) := by
  intro st st' par
  rw [runOn_masterKey par.unlocked, runOn_masterKey par.unlocked']
  exact ⟨rfl, fun _ none => (by cases none), par⟩

section Requests

omit [Crypto] in
/-- The range of a kind of record does not reach the check record. -/
theorem seen_of_front (only : ∀ key, hidden key → key = c.checkKey) {kind : RecordKind} {key : Bytes}
    (inside : (KeyRange.startingWith (c.front kind)).contains key) : ¬hidden key := by
  intro hides
  obtain ⟨rest, rfl⟩ := KeyRange.contains_startingWith.mp inside
  exact c.checkKey_ne kind rest (only _ hides)

variable (only : ∀ key, hidden key → key = c.checkKey)

include only

theorem records_matches (kind : RecordKind) :
    (records c kind).Matches (State.Parallel hidden base m) (Excuses base) := by
  refine (masterKey_matches c).bind fun master => ?_
  refine (onBackend_matches (Backend.scan_matches _ fun _ => seen_of_front only)).bind fun items => ?_
  refine Matches.filterMapM fun x => ?_
  exact (onBackend_matches (Backend.ask_matches (by decide))).bind fun _ => .pure

theorem respond_matches {r : Request} (seen : ∀ key, hidden key → r ≠ .delete key) :
    (respond c r).Matches (State.Parallel hidden base m) (Excuses base) := by
  cases r with
  | ready => exact Matches.map ((masterKey_matches c).bind fun _ => .pure)
  | put kind plaintext =>
    refine Matches.map ((masterKey_matches c).bind fun master => ?_)
    refine (draw_matches 16).bind fun salt => ?_
    refine (draw_matches 12).bind fun nonce => ?_
    exact (onBackend_matches (Backend.set_matches _ _)).bind fun _ => .pure
  | records kind => exact (records_matches only kind).map
  | delete key =>
    have shown : ¬hidden key := fun hides => seen key hides rfl
    refine Matches.map ((masterKey_matches c).bind fun _ => ?_)
    exact onBackend_matches (Backend.delete_matches shown)
  | wipe =>
    refine Matches.map (Matches.bind (Matches.forM fun kind => ?_) fun _ => ?_)
    · refine (records_matches only kind).bind fun items => Matches.forM fun ⟨key, _⟩ => ?_
      exact erase_matches key
    · exact erase_matches c.checkKey

end Requests

/-! ### What the first unlocking settles -/

section Settled

variable {e : VaultError} {st : State}

/-- A vault that failed to unlock does nothing but repeat the error. -/
theorem respond_refused (r : Request) (locked : st.lock = some (.error e)) :
    (respond c r).runOn st = (.error e, st) := by
  have repeats : (masterKey c).runOn st = (.error e, st) := runOn_masterKey_of_lock locked
  have refused : ((masterKey c).runOn st).1 = .error e := by rw [repeats]
  rw [(unlocking_respond c r).runOn_of_error refused, repeats]
  rfl

omit [Crypto] in
theorem State.Parallel.refl (unlocked : st.lock = some (.ok m)) :
    State.Parallel hidden st.backend m st st :=
  ⟨unlocked, unlocked, rfl, fun _ _ => rfl, fun _ _ => rfl, rfl, fun _ o there => ⟨o, there, rfl⟩⟩

theorem respond_unlocked (r : Request) (unlocked : st.lock = some (.ok m)) :
    (∀ e, ((respond c r).runOn st).1 = .error e → Excuses st.backend e) ∧
      State.Parallel (fun _ => False) st.backend m ((respond c r).runOn st).2
        ((respond c r).runOn st).2 := by
  have same : (respond c r).Matches (State.Parallel (fun _ => False) st.backend m)
      (Excuses st.backend) := respond_matches (fun _ => False.elim) fun _ => False.elim
  exact (same st st (.refl unlocked)).2

theorem lock_respond (c : Config) (r : Request) (st : State) :
    ((respond c r).runOn st).2.lock = some ((masterKey c).runOn st).1 := by
  have locked := lock_masterKey c st
  rcases opening : ((masterKey c).runOn st).1 with e | m
  · rw [(unlocking_respond c r).runOn_of_error opening, locked, opening]
  · rw [opening] at locked
    rw [(unlocking_respond c r).runOn_of_ok opening]
    exact (respond_unlocked r locked).2.unlocked

end Settled

/-! ### Requests at a site -/

section Site

variable {v w : Vault} {s t u : Site} {log : List Turn} {lock : Nat} {e : VaultError}
  {result : Except VaultError SealingKey}

theorem lock_serve (v : Vault) (r : Request) (s : Site) :
    ((v.serve r).runOn s).2.locks.get v.lock = some ((masterKey v.config).runOn (v.view s)).1 := by
  rw [← lock_respond v.config r (v.view s), ← view_serve]
  rfl

/-- What the first unlocking of a vault comes to. -/
def opening (v : Vault) (s : Site) : Except VaultError SealingKey := ((v.work unlock).runOn s).1

theorem masterKey_of_unused (unused : s.locks.get v.lock = none) :
    ((masterKey v.config).runOn (v.view s)).1 = v.opening s := by
  show ((masterKey v.config).runOn ⟨_, s.locks.get v.lock, _⟩).1 =
    ((unlock v.config).runOn ⟨_, s.locks.get v.lock, _⟩).1
  rw [unused]
  rfl

theorem lock_serve_of_unused (r : Request) (unused : s.locks.get v.lock = none) :
    ((v.serve r).runOn s).2.locks.get v.lock = some (v.opening s) := by
  rw [lock_serve, masterKey_of_unused unused]

theorem lock_serve_of_used (r : Request) (used : s.locks.get v.lock = some result) :
    ((v.serve r).runOn s).2.locks.get v.lock = some result := by
  have locked : (v.view s).lock = some result := used
  rw [lock_serve, runOn_masterKey_of_lock locked]

/-! ### Refused for good -/

/-- Whatever is asked of a vault, it replies with this error and asks nothing of any backend: they and
their counts stay as they are, and so do locks and entropy. -/
structure Barred (w : Vault) (u : Site) (e : VaultError) : Prop where
  reply : ∀ r, ((w.serve r).runOn u).1 = .error e
  backends : ∀ r i, ((w.serve r).runOn u).2.backends.get i = u.backends.get i
  locks : ∀ r i, ((w.serve r).runOn u).2.locks.get i = u.locks.get i
  entropy : ∀ r, ((w.serve r).runOn u).2.entropy = u.entropy

theorem barred_of_lock (locked : u.locks.get w.lock = some (.error e)) : w.Barred u e := by
  have refused (r : Request) : (respond w.config r).runOn (w.view u) = (.error e, w.view u) :=
    respond_refused r locked
  refine ⟨fun r => ?_, fun r i => ?_, fun r i => ?_, fun r => ?_⟩
  · rw [runOn_serve, refused]
  · rw [runOn_serve, refused]
    exact Slots.get_set_get _ _ _
  · rw [runOn_serve, refused]
    exact Slots.get_set_get _ _ _
  · rw [runOn_serve, refused]
    rfl

/-! ### Unlocked for good -/

/-- Two sites at which a vault finds the same but for the check record, and for whether it can be
read. -/
structure SameButCheck (w : Vault) (u u' : Site) : Prop where
  contents : ∀ key, key ≠ w.config.checkKey → (w.contents u).get? key = (w.contents u').get? key
  outages : ∀ op, op ≠ .get →
    (u.backends.get w.backend).outages op = (u'.backends.get w.backend).outages op
  locks : u.locks.get w.lock = u'.locks.get w.lock
  entropy : u.entropy = u'.entropy

/-- A vault has its master key and never looks for it again: the check record makes no difference,
and no single value is read. -/
structure Unbarred (w : Vault) (u : Site) (m : SealingKey) : Prop where
  unlocks : ((w.work masterKey).runOn u).1 = .ok m
  fails : ∀ r e, ((w.serve r).runOn u).1 = .error e → ∃ op o, op ≠ .get ∧
    (u.backends.get w.backend).outages op = some o ∧ e = .ofStorage o.error
  reads : ∀ r i,
    (((w.serve r).runOn u).2.backends.get i).counts.reads = (u.backends.get i).counts.reads
  blind : ∀ r u', w.SameButCheck u u' → r ≠ .delete w.config.checkKey →
    ((w.serve r).runOn u).1 = ((w.serve r).runOn u').1 ∧
      w.SameButCheck ((w.serve r).runOn u).2 ((w.serve r).runOn u').2

theorem unbarred_of_lock (locked : u.locks.get w.lock = some (.ok m)) : w.Unbarred u m := by
  have unlocked : (w.view u).lock = some (.ok m) := locked
  refine ⟨?_, fun r e failed => ?_, fun r i => ?_, fun r u' same other => ?_⟩
  · show ((masterKey w.config).runOn (w.view u)).1 = .ok m
    rw [runOn_masterKey unlocked]
  · obtain ⟨_, ⟨op, o, single, broken, rfl⟩, rfl⟩ := (respond_unlocked r unlocked).1 e failed
    exact ⟨op, o, single, broken, rfl⟩
  · rw [runOn_serve]
    by_cases own : i = w.backend
    · rw [own, Slots.get_set_self]
      exact (respond_unlocked r unlocked).2.backends.reads
    · rw [Slots.get_set_of_ne _ _ own]
  · -- The second site may be out of order in reading single values where the first is not.
    have par : State.Parallel (· = w.config.checkKey) (w.view u).backend m (w.view u) (w.view u') :=
      ⟨unlocked, same.locks.symm.trans locked, same.entropy, same.contents, same.outages, rfl,
        fun _ o there => ⟨o, there, rfl⟩⟩
    have matched : (respond w.config r).Matches
        (State.Parallel (· = w.config.checkKey) (w.view u).backend m) (Excuses (w.view u).backend) :=
      respond_matches (fun _ => id) fun key here => here ▸ other
    obtain ⟨reply, _, after⟩ := matched _ _ par
    rw [← view_serve, ← view_serve] at after
    exact ⟨reply, after.backends.stored, after.backends.outages,
      after.unlocked.trans after.unlocked'.symm, after.draws⟩

/-! ### Histories -/

/-- From a site to a site by requests of the vaults that share a lock, the last first, and by whatever
else leaves the lock alone. -/
inductive History (lock : Nat) (s : Site) : List Turn → Site → Prop
  | start : History lock s [] s
  | turn {log : List Turn} {t : Site} (history : History lock s log t) {w : Vault}
      (shares : w.lock = lock) (r : Request) :
      History lock s (⟨w, r, ((w.serve r).runOn t).1⟩ :: log) ((w.serve r).runOn t).2
  | elsewhere {log : List Turn} {t u : Site} (history : History lock s log t)
      (kept : u.locks.get lock = t.locks.get lock) : History lock s log u

/-- Requests of vaults with other locks happen elsewhere. -/
theorem History.serve_of_ne (history : History lock s log t) (other : lock ≠ w.lock) (r : Request) :
    History lock s log ((w.serve r).runOn t).2 :=
  history.elsewhere (locks_serve_of_ne r t other)

theorem History.locked (history : History lock s log u) (used : s.locks.get lock = some result) :
    u.locks.get lock = some result := by
  induction history with
  | start => exact used
  | turn history shares r ih =>
    subst shares
    exact lock_serve_of_used r ih
  | elsewhere history kept ih => exact kept.trans ih

theorem History.refused (history : History lock s log u)
    (failed : s.locks.get lock = some (.error e)) : ∀ x ∈ log, x.reply = .error e := by
  induction history with
  | start => exact List.forall_mem_nil _
  | turn history shares r ih =>
    subst shares
    exact List.forall_mem_cons.mpr ⟨(barred_of_lock (history.locked failed)).reply r, ih⟩
  | elsewhere history kept ih => exact ih

/-- What a vault unlocks to when it is first used is settled for all that share its lock: an error
bars them, a key is never looked for again. -/
theorem barrier_of_history (unused : s.locks.get v.lock = none) {first : Request}
    (history : History v.lock ((v.serve first).runOn s).2 log u) :
    (∀ e, v.opening s = .error e → ((v.serve first).runOn s).1 = .error e ∧
      (∀ x ∈ log, x.reply = .error e) ∧ ∀ w : Vault, w.lock = v.lock → w.Barred u e) ∧
    ∀ m, v.opening s = .ok m → ∀ w : Vault, w.lock = v.lock → w.Unbarred u m := by
  have used := lock_serve_of_unused first unused
  have settled := history.locked used
  refine ⟨fun e failed => ?_, fun m opened w shares => ?_⟩
  · rw [failed] at used settled
    refine ⟨?_, history.refused used, fun w shares => barred_of_lock (shares ▸ settled)⟩
    have refused := (masterKey_of_unused unused).trans failed
    rw [runOn_serve, (unlocking_respond v.config first).runOn_of_error refused]
    rfl
  · rw [opened] at settled
    exact unbarred_of_lock (shares ▸ settled)

end Site

end General

section Handles

open Crypto

attribute [local instance] keyed

/-- A vault over the backend of `handleB` that has another password. -/
def intruder : Vault := ⟨{ shared with password := "guess" }, 0, 0⟩

/-- The site after `handleB` was first used. -/
def afterFirstUse : Site := ((handleB.serve .ready).runOn blank).2

/-- The check record that refused the intruder is wiped. -/
theorem intruder_barred :
    let after := ((handleB.serve .wipe).runOn ((intruder.serve .ready).runOn afterFirstUse).2).2
    (afterFirstUse.locks.get intruder.lock = none ∧
      intruder.opening afterFirstUse = .error .wrongPassword ∧
      (intruder.contents after).get? intruder.config.checkKey = none) ∧
      intruder.Barred after .wrongPassword ∧
    (blank.locks.get handleB.lock = none ∧ ∃ m, handleB.opening blank = .ok m ∧
      handleB.Unbarred afterFirstUse m) := by
  intro after
  have unused : afterFirstUse.locks.get intruder.lock = none := by decide +kernel
  have failed : intruder.opening afterFirstUse = .error .wrongPassword := by decide +kernel
  have wiped : (intruder.contents after).get? intruder.config.checkKey = none := by decide +kernel
  have elsewhere : intruder.lock ≠ handleB.lock := by decide
  have history : History intruder.lock ((intruder.serve .ready).runOn afterFirstUse).2 [] after :=
    History.start.serve_of_ne elsewhere .wipe
  obtain ⟨_, _, barred⟩ := (barrier_of_history unused history).1 _ failed
  have unused' : blank.locks.get handleB.lock = none := rfl
  have history' : History handleB.lock afterFirstUse [] afterFirstUse := .start
  have opened : (handleB.opening blank).isOk := by decide +kernel
  refine ⟨⟨unused, failed, wiped⟩, barred intruder rfl, unused', ?_⟩
  rcases ran : handleB.opening blank with e | m
  · rw [ran] at opened
    cases opened
  · exact ⟨m, rfl, (barrier_of_history unused' history').2 m ran handleB rfl⟩

end Handles

end Vault

end DocumentShare
