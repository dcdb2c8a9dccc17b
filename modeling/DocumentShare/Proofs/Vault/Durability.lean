import DocumentShare.Proofs.Crypto.Exclusive
import DocumentShare.Proofs.Vault.Keys
import DocumentShare.Proofs.Vault.Turns

/-!
# Records last while their key can be proved

A vault stretches its master key once and keeps it; what proves the key to others is the check
record. A record that was put can be listed by every vault that is opened later with the same
configuration, until it is deleted, as long as no wipe and no deletion took the check record since
the vault that put it was first used (`durable_of_run`). A vault that was unlocked before a wipe goes
on to put records under a key that nothing proves any more (`stale_put_lost`).
-/

namespace DocumentShare

open Work

namespace Vault

section General

variable [Crypto] {c : Config} {b : Nat} {s t u : Site} {log before later : List Turn} {h : Vault}
  {kind : RecordKind} {key plaintext : Bytes} {contents after : Contents} {entropy rest : Entropy}
  {lock : Lock} {master m : SealingKey}

/-- The vaults of one configuration on one backend, however often it was opened. -/
def OpenedAs (c : Config) (b : Nat) (v : Vault) : Prop := v.config = c ∧ v.backend = b

instance (c : Config) (b : Nat) (v : Vault) : Decidable (OpenedAs c b v) :=
  inferInstanceAs (Decidable (v.config = c ∧ v.backend = b))

/-- A request that took the check record away. -/
def Turn.Voids (c : Config) (x : Turn) : Prop :=
  (x.request = .wipe ∨ x.request = .delete c.checkKey) ∧ x.reply.isOk

/-- The check record was taken away when a lock was already in use. -/
def Stale (c : Config) (lock : Nat) : List Turn → Prop
  | [] => False
  | x :: log => (x.Voids c ∧ ∃ y ∈ x :: log, y.vault.lock = lock) ∨ Stale c lock log

omit [Crypto] in
instance (c : Config) (x : Turn) : Decidable (x.Voids c) :=
  inferInstanceAs (Decidable ((x.request = .wipe ∨ x.request = .delete c.checkKey) ∧ x.reply.isOk))

omit [Crypto] in
instance decidableStale (c : Config) (lock : Nat) : (log : List Turn) → Decidable (Stale c lock log)
  | [] => inferInstanceAs (Decidable False)
  | x :: log =>
    have := decidableStale c lock log
    inferInstanceAs (Decidable
      ((x.Voids c ∧ ∃ y ∈ x :: log, y.vault.lock = lock) ∨ Stale c lock log))

/-- The check record proves a master key. -/
def Proves (c : Config) (contents : Contents) (master : SealingKey) : Prop :=
  ∃ record, contents.get? c.checkKey = some record ∧ checkMaster c record = .ok master

/-! ### The check record -/

theorem checkMaster_checkRecord [Crypto.Lawful] {salt : Salt} {nonce : Nonce}
    (stretched : stretch c salt = .ok master) :
    checkMaster c (checkRecord salt master nonce) = .ok master := by
  have fits : Block.fit 16 (salt.bytes ++ sealText master nonce checkText) = salt :=
    Block.fit_append salt _
  have rest : (salt.bytes ++ sealText master nonce checkText).drop 16
      = sealText master nonce checkText := List.drop_left' salt.length_bytes
  have long : ¬(salt.bytes ++ sealText master nonce checkText).length < 16 := by
    rw [List.length_append, salt.length_bytes]
    omega
  have passed : passes master (sealText master nonce checkText) = true := by
    simp [passes, openText?_sealText]
  unfold checkMaster checkRecord
  rw [if_neg long, fits, rest, stretched]
  exact if_pos passed

theorem Unlocks.keeps_proof {result : Except VaultError SealingKey}
    (unlocks : Unlocks c contents entropy lock result after rest) (proved : Proves c contents m) :
    Proves c after m := by
  have ⟨record, stored, _⟩ := proved
  cases unlocks with
  | again => exact proved
  | checked _ => exact proved
  | refused absent _ => rw [stored] at absent; cases absent
  | created absent _ => rw [stored] at absent; cases absent

theorem Unlocks.proves [Crypto.Lawful]
    (unlocks : Unlocks c contents entropy none (.ok master) after rest) :
    Proves c after master := by
  generalize claimed : (Except.ok master : Except VaultError SealingKey) = result at unlocks
  cases unlocks with
  | checked found => exact ⟨_, found, claimed.symm⟩
  | refused _ _ => cases claimed
  | created _ stretched =>
    cases claimed
    exact ⟨_, by rw [Contents.get?_insert, if_pos rfl], checkMaster_checkRecord stretched⟩

theorem Responds.keeps_proof {r : Request} {reply : Reply}
    (responds : Responds c master contents entropy r reply after rest) (unwiped : r ≠ .wipe)
    (undeleted : r ≠ .delete c.checkKey) (proved : Proves c contents m) : Proves c after m := by
  obtain ⟨record, stored, checks⟩ := proved
  have unput : reply ≠ .key c.checkKey := by
    rintro rfl
    cases responds with
    | put same => exact c.checkKey_ne _ _ same.symm
  exact ⟨record, (responds.get?_of_spared unput undeleted unwiped).trans stored, checks⟩

/-! ### Vaults that are not stale -/

/-- Every lock that was used and is not stale has its master key proved. -/
structure Current (c : Config) (b : Nat) (log : List Turn) (s : Site) : Prop where
  works : (s.backends.get b).Works
  used : ∀ lock, s.locks.get lock ≠ none → ∃ x ∈ log, x.vault.lock = lock
  proves : ∀ lock master, s.locks.get lock = some (.ok master) → ¬Stale c lock log →
    Proves c (s.backends.get b).contents master

theorem Current.serve [Crypto.Lawful] {v : Vault} (current : Current c b log s)
    (member : OpenedAs c b v) (r : Request) :
    Current c b (⟨v, r, ((v.serve r).runOn s).1⟩ :: log) ((v.serve r).runOn s).2 := by
  obtain ⟨c, b, own⟩ := v
  obtain ⟨rfl, rfl⟩ := member
  obtain ⟨works, used, proves⟩ := current
  obtain ⟨serves, works, others⟩ := serve_served ⟨c, b, own⟩ r works
  revert serves works others
  generalize ((serve ⟨c, b, own⟩ r).runOn s).1 = reply
  generalize ((serve ⟨c, b, own⟩ r).runOn s).2 = t
  intro serves works others
  have usedNow (lock : Nat) (unlocked : t.locks.get lock ≠ none) :
      ∃ x ∈ ⟨⟨c, b, own⟩, r, reply⟩ :: log, x.vault.lock = lock := by
    by_cases same : lock = own
    · exact ⟨_, List.mem_cons_self, same.symm⟩
    · rw [others lock same] at unlocked
      obtain ⟨x, member, here⟩ := used lock unlocked
      exact ⟨x, List.mem_cons_of_mem _ member, here⟩
  refine ⟨works, usedNow, fun lock m opened current => ?_⟩
  -- Were this turn to take the check record away, every lock in use would be stale after it.
  have intact : ¬Turn.Voids c ⟨⟨c, b, own⟩, r, reply⟩ := fun voids =>
    current (.inl ⟨voids, usedNow lock (by rw [opened]; exact Option.some_ne_none _)⟩)
  have before : ¬Stale c lock log := fun stale => current (.inr stale)
  rcases serves.cases with ⟨e, _, locked, unlocks⟩ |
    ⟨master, between, left, answer, rfl, locked, unlocks, responds⟩
  · have other : lock ≠ own := by
      rintro rfl
      rw [opened] at locked
      cases locked
    rw [others lock other] at opened
    exact unlocks.keeps_proof (proves lock m opened before)
  · have proved : Proves c between m := by
      by_cases own' : lock = own
      · subst own'
        rw [opened] at locked
        cases locked
        cases held : s.locks.get lock with
        | none =>
          rw [held] at unlocks
          exact unlocks.proves
        | some result =>
          rw [held] at unlocks
          cases unlocks
          exact proves lock m held before
      · rw [others lock own'] at opened
        exact unlocks.keeps_proof (proves lock m opened before)
    refine responds.keeps_proof ?_ ?_ proved
    · rintro rfl
      exact intact ⟨.inl rfl, rfl⟩
    · rintro rfl
      exact intact ⟨.inr rfl, rfl⟩

theorem current_of_run [Crypto.Lawful] (works : (s.backends.get b).Works)
    (unused : ∀ lock, s.locks.get lock = none) (run : Run (OpenedAs c b) s log u) :
    Current c b log u := by
  induction run with
  | start =>
    refine ⟨works, fun lock used => absurd (unused lock) used, fun lock master opened _ => ?_⟩
    rw [unused lock] at opened
    cases opened
  | turn run member r ih => exact ih.serve member r
  | elsewhere run n ih => exact ⟨ih.works, ih.used, ih.proves⟩

/-! ### Records that were put -/

/-- A vault is unlocked with a master key that opens a record of a kind as a plaintext. -/
def Holds (h : Vault) (s : Site) (kind : RecordKind) (key plaintext : Bytes) : Prop :=
  ∃ master, s.locks.get h.lock = some (.ok master) ∧
    (key, plaintext) ∈ listing master (h.config.front kind) (h.contents s)

theorem Served.holds [Crypto.Lawful]
    (served : h.Served (.put kind plaintext) s (.ok (.key key)) t) : Holds h t kind key plaintext := by
  rcases served.serves.cases with ⟨e, failed, _⟩ |
    ⟨master, between, left, answer, answered, locked, _, responds⟩
  · cases failed
  · cases answered
    refine ⟨master, locked, mem_listing.mpr ?_⟩
    obtain ⟨given, stored⟩ := responds.of_put
    cases given
    rw [stored]
    refine ⟨front_storageKey _ _ _, nextRecord master left plaintext, ?_, ?_⟩
    · rw [Contents.get?_insert, if_pos rfl]
    · exact openRecord?_sealRecord _ _ _ _

theorem Served.holds_of_spared {v : Vault} {r : Request} {reply : Except VaultError Reply}
    (served : v.Served r s reply t) (alike : v.config = h.config) (beside : v.backend = h.backend)
    (unput : reply ≠ .ok (.key key)) (undeleted : r ≠ .delete key)
    (unwiped : r = .wipe → ∃ e, reply = .error e) (holds : Holds h s kind key plaintext) :
    Holds h t kind key plaintext := by
  obtain ⟨master, unlocked, listed⟩ := holds
  obtain ⟨inside, record, stored, opens⟩ := mem_listing.mp listed
  have other : key ≠ v.config.checkKey := by
    rw [alike]
    exact ne_checkKey_of_front inside
  have same (s : Site) : v.contents s = h.contents s := by simp only [contents, beside]
  have still : t.locks.get h.lock = some (.ok master) := by
    by_cases own : h.lock = v.lock
    · have serves := served.serves
      rw [← own, unlocked] at serves
      exact serves.lock_eq
    · rw [served.others h.lock own, unlocked]
  refine ⟨master, still, mem_listing.mpr ⟨inside, record, ?_, opens⟩⟩
  rw [← same] at stored ⊢
  rcases served.serves.cases with ⟨e, _, _, unlocks⟩ |
    ⟨m, between, left, answer, rfl, _, unlocks, responds⟩
  · rw [unlocks.get?_of_ne other, stored]
  · rw [responds.get?_of_spared (fun same => unput (same ▸ rfl)) undeleted ?_,
      unlocks.get?_of_ne other, stored]
    intro wiping
    obtain ⟨e, failed⟩ := unwiped wiping
    cases failed

theorem holds_of_run [Crypto.Lawful] (works : (s.backends.get b).Works)
    (unused : ∀ lock, s.locks.get lock = none) (run : Run (OpenedAs c b) s log u)
    (split : log = later ++ ⟨h, .put kind plaintext, .ok (.key key)⟩ :: before)
    (current : ¬Stale c h.lock log) (undeleted : ∀ x ∈ later, x.request ≠ .delete key)
    (unput : ∀ x ∈ later, x.reply ≠ .ok (.key key)) :
    OpenedAs c b h ∧ Holds h u kind key plaintext := by
  induction run generalizing later with
  | start =>
    have := congrArg List.length split
    simp at this
  | turn run member r ih =>
    next log t v =>
    have served := serve_served v r (member.2 ▸ (current_of_run works unused run).works)
    cases later with
    | nil =>
      obtain ⟨here, rfl⟩ := List.cons.inj split
      injection here with same request reply
      subst same request
      rw [reply] at served
      exact ⟨member, served.holds⟩
    | cons x later =>
      obtain ⟨rfl, rfl⟩ := List.cons.inj split
      obtain ⟨undeletedHere, undeleted⟩ := List.forall_mem_cons.mp undeleted
      obtain ⟨unputHere, unput⟩ := List.forall_mem_cons.mp unput
      obtain ⟨opened, holds⟩ := ih rfl (fun stale => current (.inr stale)) undeleted unput
      refine ⟨opened, served.holds_of_spared (member.1.trans opened.1.symm)
        (member.2.trans opened.2.symm) unputHere undeletedHere (fun wiping => ?_) holds⟩
      cases reply : ((v.serve r).runOn t).1 with
      | error e => exact ⟨e, rfl⟩
      | ok answer =>
        let put : Turn := ⟨h, .put kind plaintext, .ok (.key key)⟩
        have used : put ∈ ⟨v, r, ((v.serve r).runOn t).1⟩ :: (later ++ put :: before) := by simp
        -- The put used the lock before, so a wipe would have made it stale.
        exact absurd (.inl ⟨⟨.inl wiping, congrArg Except.isOk reply⟩, put, used, rfl⟩) current
  | elsewhere run n ih => exact ih split current undeleted unput

/-! ### Vaults that are opened later -/

omit [Crypto] in
theorem make_answers (b : Nat) (c : Config) (s : Site) :
    (make b c : SiteWork VaultError Vault).Answers s fun v t =>
      OpenedAs c b v ∧ t.locks.get v.lock = none ∧ t.backends = s.backends := by
  have locked : (Site.addLock : SiteWork VaultError Nat).Answers s fun lock t =>
      t.locks.get lock = none ∧ t.backends = s.backends :=
    Ends.ofStep ⟨Slots.get_set_self _ _ _, rfl⟩
  refine locked.bind fun lock t ⟨unused, same⟩ => ?_
  exact Ends.pure ⟨⟨rfl, rfl⟩, unused, same⟩

/-- A vault that is opened later lists what is held under the master key that is proved. -/
theorem lists_of_proves {v : Vault} (works : (s.backends.get v.backend).Works)
    (unused : s.locks.get v.lock = none) (proves : Proves v.config (v.contents s) master) :
    (v.serve (.records kind)).Answers s fun reply _ =>
      reply = .records (listing master (v.config.front kind) (v.contents s)) := by
  obtain ⟨record, stored, checks⟩ := proves
  have unlocked {result : Except VaultError SealingKey} {after : Contents} {rest : Entropy}
      (unlocks : Unlocks v.config (v.contents s) s.entropy none result after rest) :
      result = .ok master ∧ after = v.contents s := by
    cases unlocks with
    | checked found =>
      rw [stored] at found
      cases found
      exact ⟨checks, rfl⟩
    | refused absent _ => rw [stored] at absent; cases absent
    | created absent _ => rw [stored] at absent; cases absent
  refine (serve_ends v (.records kind) works).mono ?_ ?_
  · intro reply t served
    have serves := served.serves
    rw [unused] at serves
    rcases serves.cases with ⟨e, failed, _⟩ | ⟨m, between, left, answer, answered, _, unlocks, responds⟩
    · cases failed
    · cases answered
      obtain ⟨same, rfl⟩ := unlocked unlocks
      cases same
      exact responds.of_records
  · intro e t served
    have serves := served.serves
    rw [unused] at serves
    rcases serves.cases with ⟨e, _, _, unlocks⟩ | ⟨_, _, _, _, answered, _⟩
    · obtain ⟨failed, _⟩ := unlocked unlocks
      cases failed
    · cases answered

/-- What a vault that is not stale put is listed by every vault that is opened afterwards, until its
key is deleted or put again. -/
theorem durable_of_run [Crypto.Lawful] (works : (s.backends.get b).Works)
    (unused : ∀ lock, s.locks.get lock = none)
    (run : Run (OpenedAs c b) s (later ++ ⟨h, .put kind plaintext, .ok (.key key)⟩ :: before) u)
    (current : ¬Stale c h.lock (later ++ ⟨h, .put kind plaintext, .ok (.key key)⟩ :: before))
    (undeleted : ∀ x ∈ later, x.request ≠ .delete key)
    (unput : ∀ x ∈ later, x.reply ≠ .ok (.key key)) :
    (make b c >>= fun v => v.serve (.records kind)).Answers u fun reply _ =>
      ∃ items, reply = .records items ∧ (key, plaintext) ∈ items := by
  obtain ⟨opened, master, unlocked, listed⟩ :=
    holds_of_run works unused run rfl current undeleted unput
  have now := current_of_run works unused run
  have proves := now.proves h.lock master unlocked current
  refine (make_answers b c u).bind fun v t ⟨alike, fresh, same⟩ => ?_
  obtain ⟨c, b, own⟩ := v
  obtain ⟨rfl, rfl⟩ := alike
  obtain ⟨config, beside⟩ := opened
  have contents : (Vault.mk c b own).contents t = h.contents u := by
    simp only [Vault.contents, same, beside]
  have works : (t.backends.get b).Works := same ▸ now.works
  have proves : Proves c ((Vault.mk c b own).contents t) master := by
    rw [contents, Vault.contents, beside]
    exact proves
  refine (lists_of_proves works fresh proves).mono ?_ fun _ _ => id
  rintro reply _ rfl
  refine ⟨_, rfl, ?_⟩
  rw [contents]
  rwa [config] at listed

end General

section Handles

open Crypto

attribute [local instance] keyed

def shared : Config := ⟨"vault", "pass", 1⟩

/-- Two vaults that were opened separately over one backend. -/
def handleA : Vault := ⟨shared, 0, 0⟩

def handleB : Vault := ⟨shared, 0, 1⟩

theorem run_serveAll (requests : List (Vault × Request))
    (members : ∀ x ∈ requests, OpenedAs shared 0 x.1) :
    Run (OpenedAs shared 0) blank (serveAll requests [] blank).1 (serveAll requests [] blank).2 :=
  Run.start.serveAll members

/-- After one vault wiped what it had unlocked, another is first used and puts a text. Then the first
puts one too, under the key that it kept. -/
def putsAfterWipe : List (Vault × Request) :=
  [(handleB, .ready), (handleB, .wipe), (handleA, .put .read [7]), (handleB, .put .read [8])]

def firstKey : Bytes := Bytes.ofText "vault_read_ou7xNwwF0mlBPG5PhBMHEjDP9L/tVT7iKkZCjDKe7ts="

def secondKey : Bytes := Bytes.ofText "vault_read_4m4G+BtTLMU+82XCho61hFZ7xpIbgCHZkXcFEmTu3DU="

theorem durable_of_run_putsAfterWipe :
    let after := (serveAll putsAfterWipe [] blank).2
    let put : Turn := ⟨handleA, .put .read [7], .ok (.key firstKey)⟩
    let later : List Turn := [⟨handleB, .put .read [8], .ok (.key secondKey)⟩]
    let before : List Turn := [⟨handleB, .wipe, .ok .done⟩, ⟨handleB, .ready, .ok .done⟩]
    ((blank.backends.get 0).Works ∧ (∀ lock, blank.locks.get lock = none) ∧
      Run (OpenedAs shared 0) blank (later ++ put :: before) after ∧
      ¬Stale shared handleA.lock (later ++ put :: before) ∧
      (∀ x ∈ later, x.request ≠ .delete firstKey) ∧ ∀ x ∈ later, x.reply ≠ .ok (.key firstKey)) ∧
    (make 0 shared >>= fun v => v.serve (.records .read)).Answers after fun reply _ =>
      ∃ items, reply = .records items ∧ (firstKey, [7]) ∈ items := by
  intro after put later before
  have works : (blank.backends.get 0).Works := Backend.works_empty
  have unused (lock : Nat) : blank.locks.get lock = none := rfl
  have log : (serveAll putsAfterWipe [] blank).1 = later ++ put :: before := by decide +kernel
  have run : Run (OpenedAs shared 0) blank (later ++ put :: before) after :=
    log ▸ run_serveAll putsAfterWipe (by decide)
  have current : ¬Stale shared handleA.lock (later ++ put :: before) := by decide +kernel
  have undeleted : ∀ x ∈ later, x.request ≠ .delete firstKey := by decide +kernel
  have unput : ∀ x ∈ later, x.reply ≠ .ok (.key firstKey) := by decide +kernel
  have lawful : Lawful := keyed_lawful
  exact ⟨⟨works, unused, run, current, undeleted, unput⟩,
    durable_of_run works unused run current undeleted unput⟩

/-- One vault is unlocked, the other wipes, and the first puts a text. -/
def putAfterWipe : List (Vault × Request) :=
  [(handleA, .ready), (handleB, .wipe), (handleA, .put .read [7])]

/-- One vault puts a text, and the other deletes the check record. -/
def putThenUnproved : List (Vault × Request) :=
  [(handleA, .put .read [7]), (handleB, .delete shared.checkKey)]

def lostKey : Bytes := Bytes.ofText "vault_read_4m4G+BtTLMU+82XCho61hKLu8TcMBdJpQTxuT4QTBxI="

/-- Both times the put is answered, nothing is wiped after it, and its key is not deleted; and yet a
vault that is opened afterwards does not list it. -/
theorem stale_put_lost :
    (∃ after, Run (OpenedAs shared 0) blank [⟨handleA, .put .read [7], .ok (.key lostKey)⟩,
        ⟨handleB, .wipe, .ok .done⟩, ⟨handleA, .ready, .ok .done⟩] after ∧
      ((make 0 shared >>= fun v => v.serve (.records .read)).runOn after).1 = .ok (.records [])) ∧
    lostKey ≠ shared.checkKey ∧
    ∃ after, Run (OpenedAs shared 0) blank
        [⟨handleB, .delete shared.checkKey, .ok (.removed true)⟩,
        ⟨handleA, .put .read [7], .ok (.key lostKey)⟩] after ∧
      ((make 0 shared >>= fun v => v.serve (.records .read)).runOn after).1 = .ok (.records []) := by
  refine ⟨⟨(serveAll putAfterWipe [] blank).2, ?_, by decide +kernel⟩, by decide +kernel,
    (serveAll putThenUnproved [] blank).2, ?_, by decide +kernel⟩
  · have log : (serveAll putAfterWipe [] blank).1 = [⟨handleA, .put .read [7], .ok (.key lostKey)⟩,
        ⟨handleB, .wipe, .ok .done⟩, ⟨handleA, .ready, .ok .done⟩] := by decide +kernel
    exact log ▸ run_serveAll putAfterWipe (by decide)
  · have log : (serveAll putThenUnproved [] blank).1 =
        [⟨handleB, .delete shared.checkKey, .ok (.removed true)⟩,
        ⟨handleA, .put .read [7], .ok (.key lostKey)⟩] := by decide +kernel
    exact log ▸ run_serveAll putThenUnproved (by decide)

end Handles

end Vault

end DocumentShare
