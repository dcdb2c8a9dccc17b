import DocumentShare.Proofs.Storage.Backend
import DocumentShare.Vault.Basic

/-!
# Unlocking a vault

On a backend that works every operation of a vault is determined by the lock, the contents and the
entropy. `State.Stands` names the three, and `Unlocks` says what the master key comes to. Whatever is
asked of a vault that is still locked comes to what it comes to after the unlocking (`Unlocking`).
-/

namespace DocumentShare

open Work

/-! ### Entropy -/

namespace Entropy

/-- The bytes that are drawn next. -/
def ahead (e : Entropy) (n : Nat) : Block n :=
  ⟨(List.range n).map (fun i => e.stream (e.position + i)), by simp⟩

def past (e : Entropy) (n : Nat) : Entropy := { e with position := e.position + n }

end Entropy

/-! ### Contents -/

namespace Contents

def eraseAll (contents : Contents) (keys : List Bytes) : Contents := keys.foldl erase contents

theorem get?_eraseAll (contents : Contents) (keys : List Bytes) (key : Bytes) :
    (contents.eraseAll keys).get? key = if key ∈ keys then none else contents.get? key := by
  induction keys generalizing contents with
  | nil => simp [eraseAll]
  | cons k keys ih =>
    have step : contents.eraseAll (k :: keys) = (contents.erase k).eraseAll keys := rfl
    rw [step, ih, get?_erase]
    by_cases later : key ∈ keys
    · simp [later]
    · by_cases here : key = k
      · simp [here]
      · simp [later, here]

end Contents

namespace Vault

/-- The backend works, and these are the lock, the contents and the entropy. -/
structure State.Stands (st : State) (lock : Option (Except VaultError SealingKey))
    (contents : Contents) (entropy : Entropy) : Prop where
  works : st.backend.Works
  locked : st.lock = lock
  holds : st.backend.contents = contents
  draws : st.entropy = entropy

section Parts

variable {st : State} {lock : Option (Except VaultError SealingKey)} {contents : Contents}
  {entropy : Entropy}

theorem onBackend_answers {α : Type} {w : BackendWork α} {a : α} {after : Contents}
    (stands : st.Stands lock contents entropy) (does : Backend.Does w st.backend a after) :
    (onBackend w).Answers st fun v u => v = a ∧ u.Stands lock after entropy := by
  obtain ⟨works, locked, holds, draws⟩ := stands
  refine Ends.reporting (Ends.onPart (does.mono ?_ ?_))
  · rintro v b ⟨same, became, still⟩
    exact ⟨same, still works, locked, became, draws⟩
  · rintro e b ⟨_, broken⟩
    exact broken works

theorem get_answers (stands : st.Stands lock contents entropy) (key : Bytes) :
    (onBackend (Backend.get key)).Answers st fun o u =>
      o = contents.get? key ∧ u.Stands lock contents entropy := by
  have does := Backend.does_get st.backend key
  rw [stands.holds] at does
  exact onBackend_answers stands does

theorem set_answers (stands : st.Stands lock contents entropy) (key value : Bytes) :
    (onBackend (Backend.set key value)).Answers st fun _ u =>
      u.Stands lock (contents.insert key value) entropy := by
  have does := Backend.does_set st.backend key value
  rw [stands.holds] at does
  exact (onBackend_answers stands does).mono (fun _ _ h => h.2) fun _ _ => id

theorem erase_answers (stands : st.Stands lock contents entropy) (key : Bytes) :
    (onBackend (Backend.delete key)).Answers st fun removed u =>
      removed = (contents.get? key).isSome ∧ u.Stands lock (contents.erase key) entropy := by
  have does := Backend.does_delete st.backend key
  rw [stands.holds] at does
  exact onBackend_answers stands does

theorem askItem_answers (stands : st.Stands lock contents entropy) :
    askItem.Answers st fun _ u => u.Stands lock contents entropy := by
  have does := Backend.does_ask st.backend .scan
  rw [stands.holds] at does
  exact (onBackend_answers stands does).mono (fun _ _ h => h.2) fun _ _ => id

theorem scan_answers (stands : st.Stands lock contents entropy) (range : KeyRange) :
    (scan range).Answers st fun items u =>
      items = contents.within range ∧ u.Stands lock contents entropy := by
  have does := Backend.does_scan st.backend range .ascending
  rw [stands.holds] at does
  exact onBackend_answers stands does

theorem draw_answers (stands : st.Stands lock contents entropy) (n : Nat) :
    (draw n).Answers st fun block u =>
      block = entropy.ahead n ∧ u.Stands lock contents (entropy.past n) := by
  obtain ⟨works, locked, holds, draws⟩ := stands
  subst draws
  refine Ends.onPart (show (Entropy.draw n).Ends st.entropy _ _ from Ends.ofStep ⟨rfl, ?_⟩)
  exact ⟨works, locked, holds, rfl⟩

end Parts

variable [Crypto] {c : Config} {st : State} {lock : Option (Except VaultError SealingKey)}
  {contents : Contents} {entropy : Entropy} {master : SealingKey}

/-! ### Unlocking -/

/-- The record that proves a master key: the salt that it was stretched with, and a known text sealed
under it. -/
def checkRecord (salt : Salt) (master : SealingKey) (nonce : Nonce) : Bytes :=
  salt.bytes ++ sealText master nonce checkText

/-- What unlocking comes to, and the contents and the entropy after it. -/
inductive Unlocks (c : Config) (contents : Contents) (entropy : Entropy) :
    Option (Except VaultError SealingKey) → Except VaultError SealingKey → Contents → Entropy → Prop
  | again {result : Except VaultError SealingKey} :
      Unlocks c contents entropy (some result) result contents entropy
  | checked {record : Bytes} (found : contents.get? c.checkKey = some record) :
      Unlocks c contents entropy none (checkMaster c record) contents entropy
  | refused (absent : contents.get? c.checkKey = none) (rounds : c.rounds = 0) :
      Unlocks c contents entropy none (.error .noRounds) contents (entropy.past 16)
  | created {master : SealingKey} (absent : contents.get? c.checkKey = none)
      (stretched : stretch c (entropy.ahead 16) = .ok master) :
      Unlocks c contents entropy none (.ok master)
        (contents.insert c.checkKey
          (checkRecord (entropy.ahead 16) master ((entropy.past 16).ahead 12)))
        ((entropy.past 16).past 12)

theorem Unlocks.get?_of_ne {result : Except VaultError SealingKey} {after : Contents} {rest : Entropy}
    {key : Bytes} (unlocks : Unlocks c contents entropy lock result after rest)
    (other : key ≠ c.checkKey) : after.get? key = contents.get? key := by
  cases unlocks with
  | again => rfl
  | checked _ => rfl
  | refused _ _ => rfl
  | created _ _ => exact Contents.get?_insert_of_ne other

theorem unlock_unlocks (stands : st.Stands none contents entropy) :
    (unlock c).Ends st
      (fun m u => ∃ after rest, Unlocks c contents entropy none (.ok m) after rest ∧
        u.Stands none after rest)
      (fun e u => ∃ after rest, Unlocks c contents entropy none (.error e) after rest ∧
        u.Stands none after rest) := by
  refine (get_answers stands c.checkKey).bind ?_
  rintro found u ⟨rfl, stands⟩
  cases there : contents.get? c.checkKey with
  | some record =>
    refine Ends.check (fun m passed => ⟨_, _, ?_, stands⟩) fun e failed => ⟨_, _, ?_, stands⟩
    · rw [← passed]
      exact .checked there
    · have checked : Unlocks c contents entropy none (checkMaster c record) contents entropy :=
        .checked there
      rwa [failed] at checked
  | none =>
    refine (draw_answers stands 16).bind ?_
    rintro salt u ⟨rfl, stands⟩
    have stretching : (Work.check id (stretch c (entropy.ahead 16)) : VaultWork SealingKey).Ends u
        (fun m v => stretch c (entropy.ahead 16) = .ok m ∧ v.Stands none contents (entropy.past 16))
        (fun e v => ∃ after rest, Unlocks c contents entropy none (.error e) after rest ∧
          v.Stands none after rest) := by
      refine Ends.check (fun m stretched => ⟨stretched, stands⟩) fun e failed => ?_
      unfold stretch at failed
      split at failed
      · next rounds =>
        cases failed
        exact ⟨_, _, .refused there rounds, stands⟩
      · cases failed
    refine stretching.bind fun m u ⟨stretched, stands⟩ => ?_
    refine (draw_answers stands 12).bind ?_
    rintro nonce u ⟨rfl, stands⟩
    refine (set_answers stands _ _).bind fun _ u stands => ?_
    exact Ends.pure ⟨_, _, .created there stretched, stands⟩

/-- The master key is what unlocking comes to, and this stays in the lock. -/
theorem masterKey_unlocks (c : Config) (stands : st.Stands lock contents entropy) :
    (masterKey c).Ends st
      (fun m u => ∃ after rest, Unlocks c contents entropy lock (.ok m) after rest ∧
        u.Stands (some (.ok m)) after rest)
      (fun e u => ∃ after rest, Unlocks c contents entropy lock (.error e) after rest ∧
        u.Stands (some (.error e)) after rest) := by
  refine Ends.ofStep ?_
  cases locked : st.lock with
  | some result =>
    obtain rfl := stands.locked
    rw [locked] at stands ⊢
    cases result with
    | ok m => exact ⟨_, _, .again, stands⟩
    | error e => exact ⟨_, _, .again, stands⟩
  | none =>
    obtain rfl := stands.locked
    rw [locked] at stands ⊢
    rcases (unlock_unlocks (c := c) stands).cases with
      ⟨m, answer, after, rest, unlocks, works, _, holds, draws⟩ |
      ⟨e, failure, after, rest, unlocks, works, _, holds, draws⟩
    · dsimp only
      rw [answer]
      exact ⟨after, rest, unlocks, works, rfl, holds, draws⟩
    · dsimp only
      rw [failure]
      exact ⟨after, rest, unlocks, works, rfl, holds, draws⟩

theorem runOn_masterKey_of_lock {result : Except VaultError SealingKey}
    (locked : st.lock = some result) : (masterKey c).runOn st = (result, st) := by
  obtain ⟨backend, lock, entropy⟩ := st
  obtain rfl : lock = some result := locked
  rfl

theorem runOn_masterKey (unlocked : st.lock = some (.ok master)) :
    (masterKey c).runOn st = (.ok master, st) := runOn_masterKey_of_lock unlocked

theorem lock_masterKey (c : Config) (st : State) :
    ((masterKey c).runOn st).2.lock = some ((masterKey c).runOn st).1 := by
  obtain ⟨backend, lock, entropy⟩ := st
  cases lock with
  | some result => rfl
  | none => rfl

/-- Work that begins by unlocking the vault: it fails as the unlocking does, or it comes to what it
comes to once the vault is unlocked. -/
def Unlocking {ε α : Type} (c : Config) (report : VaultError → ε) (w : Work State ε α) : Prop :=
  ∀ st, w.runOn st = match (masterKey c).runOn st with
    | (.ok _, u) => w.runOn u
    | (.error e, u) => (.error (report e), u)

namespace Unlocking

variable {ε ε' α β : Type} {report : VaultError → ε}

theorem masterKey (f : SealingKey → VaultWork α) : Unlocking c id (masterKey c >>= f) := by
  intro st
  have locked := lock_masterKey c st
  rcases ran : (Vault.masterKey c).runOn st with ⟨e | m, u⟩
  · rw [runOn_bind_error ran]
    rfl
  · rw [ran] at locked
    rw [runOn_bind_ok ran]
    dsimp only
    rw [runOn_bind_ok (runOn_masterKey locked)]

theorem bind {w : Work State ε α} (unlocking : Unlocking c report w) (f : α → Work State ε β) :
    Unlocking c report (w >>= f) := by
  intro st
  rw [runOn_bind, unlocking st]
  rcases (Vault.masterKey c).runOn st with ⟨e | m, u⟩
  · rfl
  · exact runOn_bind.symm

theorem map {w : Work State ε α} (unlocking : Unlocking c report w) (g : α → β) :
    Unlocking c report (g <$> w) := by
  rw [← bind_pure_comp]
  exact unlocking.bind _

theorem reporting {w : Work State ε α} (unlocking : Unlocking c report w) (further : ε → ε') :
    Unlocking c (fun e => further (report e)) (w.reporting further) := by
  intro st
  have run (st : State) : (w.reporting further).runOn st
      = ((w.runOn st).1.mapError further, (w.runOn st).2) := rfl
  rw [run, unlocking st]
  rcases (Vault.masterKey c).runOn st with ⟨e | m, u⟩
  · rfl
  · exact (run u).symm

theorem runOn_of_ok {w : Work State ε α} (unlocking : Unlocking c report w)
    (opened : ((Vault.masterKey c).runOn st).1 = .ok master) :
    w.runOn st = w.runOn ((Vault.masterKey c).runOn st).2 := by
  rw [unlocking st]
  rcases ran : (Vault.masterKey c).runOn st with ⟨e | m, u⟩
  · rw [ran] at opened
    cases opened
  · rfl

theorem runOn_of_error {w : Work State ε α} {e : VaultError} (unlocking : Unlocking c report w)
    (refused : ((Vault.masterKey c).runOn st).1 = .error e) :
    w.runOn st = (.error (report e), ((Vault.masterKey c).runOn st).2) := by
  rw [unlocking st]
  rcases ran : (Vault.masterKey c).runOn st with ⟨e | m, u⟩
  · rw [ran] at refused
    cases refused
    rfl
  · rw [ran] at refused
    cases refused

/-- What the master key comes to decides how the work ends. -/
theorem after {w : Work State ε α} {unlocked : SealingKey → State → Prop}
    {refused : VaultError → State → Prop} {answers : α → State → Prop} {fails : ε → State → Prop}
    (unlocking : Unlocking c report w) (first : (Vault.masterKey c).Ends st unlocked refused)
    (answered : ∀ m u, unlocked m u → w.Ends u answers fails)
    (failed : ∀ e u, refused e u → fails (report e) u) : w.Ends st answers fails := by
  unfold Ends
  rcases first.cases with ⟨m, opened, holds⟩ | ⟨e, failure, holds⟩
  · rw [unlocking.runOn_of_ok opened]
    exact answered m _ holds
  · rw [unlocking.runOn_of_error failure]
    exact failed e _ holds

/-- The vault is found unlocked, or the work fails as the unlocking fails. -/
theorem ends {w : Work State ε α} {answers : α → State → Prop} {fails : ε → State → Prop}
    (unlocking : Unlocking c report w) (stands : st.Stands lock contents entropy)
    (unlocked : ∀ m after rest u, Unlocks c contents entropy lock (.ok m) after rest →
      u.Stands (some (.ok m)) after rest → w.Ends u answers fails)
    (refused : ∀ e after rest u, Unlocks c contents entropy lock (.error e) after rest →
      u.Stands (some (.error e)) after rest → fails (report e) u) : w.Ends st answers fails := by
  refine unlocking.after (masterKey_unlocks c stands) ?_ ?_
  · intro m u ⟨after, rest, unlocks, stands⟩
    exact unlocked m after rest u unlocks stands
  · intro e u ⟨after, rest, unlocks, stands⟩
    exact refused e after rest u unlocks stands

end Unlocking

end Vault

end DocumentShare
