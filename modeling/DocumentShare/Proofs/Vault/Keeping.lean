import DocumentShare.Proofs.Bytes.Text
import DocumentShare.Proofs.Storage.Backend
import DocumentShare.Vault.Basic

/-!
# What a vault keeps

A vault that has its backend to itself finds in it what was put there. `Vault.Keeping` says of a
property of plaintexts that every record was sealed, with such a plaintext, under the key that the
vault was unlocked with. All operations keep this, whether they answer or fail, and what `find` opens
has the property (`find_ends`).
-/

namespace DocumentShare

open Work

namespace Vault

namespace Config

variable {c : Config} {kind kind' : RecordKind} {rest rest' : Bytes}

theorem front_append (c : Config) (kind : RecordKind) (rest : Bytes) :
    c.front kind ++ rest = Bytes.ofText c.name ++
      (Bytes.ofText "_" ++ (Bytes.ofText kind.name ++ (Bytes.ofText "_" ++ rest))) := by
  simp only [front, Bytes.ofText_append, List.append_assoc]

/-- Kinds of record have keys of their own: their names differ in the first letter. -/
theorem front_inj (same : c.front kind ++ rest = c.front kind' ++ rest') : kind = kind' := by
  rw [front_append, front_append, List.append_cancel_left_eq, List.append_cancel_left_eq] at same
  have letter := congrArg List.head? same
  cases kind <;> cases kind' <;> first | rfl | cases letter

theorem checkKey_ne (c : Config) (kind : RecordKind) (rest : Bytes) :
    c.front kind ++ rest ≠ c.checkKey := by
  intro same
  rw [front_append, checkKey, Bytes.ofText_append, List.append_cancel_left_eq] at same
  have letter := congrArg (fun b => b.tail.head?) same
  cases kind <;> cases letter

end Config

/-- A record that was sealed under a master key with a plaintext that is good for its kind. -/
def Sealed [Crypto] (good : RecordKind → Bytes → Prop) (master : SealingKey) (kind : RecordKind)
    (record : Bytes) : Prop :=
  ∃ salt nonce plaintext, record = sealRecord master salt nonce plaintext ∧ good kind plaintext

/-- Every record of the vault was sealed, with a good plaintext, under the key in its lock. -/
def Keeping [Crypto] (c : Config) (good : RecordKind → Bytes → Prop)
    (lock : Option (Except VaultError SealingKey)) (contents : Contents) : Prop :=
  ∀ kind rest record, contents.get? (c.front kind ++ rest) = some record →
    ∃ master, lock = some (.ok master) ∧ Sealed good master kind record

abbrev State.Keeps [Crypto] (c : Config) (good : RecordKind → Bytes → Prop) (st : State) : Prop :=
  Keeping c good st.lock st.backend.contents

variable [Crypto] {c : Config} {good : RecordKind → Bytes → Prop}
  {lock : Option (Except VaultError SealingKey)} {contents : Contents} {master : SealingKey}
  {kind : RecordKind} {st : State}

namespace Keeping

theorem empty : Keeping c good lock .empty := by
  intro kind rest record stored
  rw [Contents.get?_empty] at stored
  cases stored

/-- While nothing has been unlocked there are no records. -/
theorem relock (keeping : Keeping c good none contents) : Keeping c good lock contents := by
  intro kind rest record stored
  obtain ⟨master, unlocked, _⟩ := keeping kind rest record stored
  cases unlocked

theorem insert_check (keeping : Keeping c good lock contents) (value : Bytes) :
    Keeping c good lock (contents.insert c.checkKey value) := by
  intro kind rest record stored
  rw [Contents.get?_insert, if_neg (c.checkKey_ne kind rest)] at stored
  exact keeping kind rest record stored

theorem insert (keeping : Keeping c good (some (.ok master)) contents) {record : Bytes}
    (isGood : Sealed good master kind record) :
    Keeping c good (some (.ok master)) (contents.insert (storageKey c kind record) record) := by
  intro kind' rest record' stored
  rw [Contents.get?_insert] at stored
  split at stored
  · next same =>
    cases stored
    rw [storageKey] at same
    exact ⟨master, rfl, Config.front_inj same ▸ isGood⟩
  · exact keeping kind' rest record' stored

theorem erase (keeping : Keeping c good lock contents) (key : Bytes) :
    Keeping c good lock (contents.erase key) := by
  intro kind rest record stored
  rw [Contents.get?_erase] at stored
  split at stored
  · cases stored
  · exact keeping kind rest record stored

end Keeping

/-! ### Unlocking -/

section Parts

variable (inv : Option (Except VaultError SealingKey) → Contents → Prop)

omit [Crypto] in
theorem onBackend_keeps {α : Type} {w : Work Backend StorageError α}
    (h : ∀ lock, w.Keeps fun b => inv lock b.contents) :
    (onBackend w).Keeps fun st => inv st.lock st.backend.contents :=
  Keeps.reporting fun st held => Ends.onPart (h st.lock st.backend held)

omit [Crypto] in
theorem draw_keeps (n : Nat) : (draw n).Keeps fun st => inv st.lock st.backend.contents :=
  fun st held => Ends.onPart (show (Entropy.draw n).Ends st.entropy _ _ from Ends.ofStep held)

end Parts

/-- The vault was not unlocked yet. -/
def Locked (c : Config) (good : RecordKind → Bytes → Prop)
    (lock : Option (Except VaultError SealingKey)) (contents : Contents) : Prop :=
  lock = none ∧ Keeping c good none contents

/-- Unlocking writes a check record at most and leaves the lock to its caller. -/
theorem unlock_keeps : (unlock c).Keeps fun st => Locked c good st.lock st.backend.contents := by
  refine (onBackend_keeps (Locked c good) fun lock => Backend.keeps_get _).bind fun found => ?_
  cases found with
  | some record => exact Keeps.check
  | none =>
    refine (draw_keeps (Locked c good) 16).bind fun salt => ?_
    refine Keeps.check.bind fun key => ?_
    refine (draw_keeps (Locked c good) 12).bind fun nonce => ?_
    refine Keeps.bind (onBackend_keeps (Locked c good) fun lock => ?_) fun _ => Keeps.pure
    refine Backend.keeps_set _ fun contents ⟨locked, keeping⟩ => ?_
    exact ⟨locked, keeping.insert_check _⟩

theorem masterKey_ends (keeping : st.Keeps c good) :
    (masterKey c).Ends st (fun m u => u.lock = some (.ok m) ∧ u.Keeps c good)
      fun _ u => u.Keeps c good := by
  refine Ends.ofStep ?_
  cases locked : st.lock with
  | some result =>
    cases result with
    | ok m => exact ⟨locked, keeping⟩
    | error e => exact keeping
  | none =>
    rw [State.Keeps, locked] at keeping
    rcases (unlock_keeps st ⟨locked, keeping⟩).cases with
      ⟨m, answer, _, keeping⟩ | ⟨e, failure, _, keeping⟩
    · dsimp only
      rw [answer]
      exact ⟨rfl, keeping.relock⟩
    · dsimp only
      rw [failure]
      exact keeping.relock

/-! ### Records -/

/-- The vault is unlocked with a master key and keeps good records. -/
def Open (c : Config) (good : RecordKind → Bytes → Prop) (master : SealingKey)
    (lock : Option (Except VaultError SealingKey)) (contents : Contents) : Prop :=
  lock = some (.ok master) ∧ Keeping c good lock contents

theorem putUnder_keeps {plaintext : Bytes} (isGood : good kind plaintext) :
    (putUnder c master kind plaintext).Keeps fun st =>
      Open c good master st.lock st.backend.contents := by
  refine (draw_keeps (Open c good master) 16).bind fun salt => ?_
  refine (draw_keeps (Open c good master) 12).bind fun nonce => ?_
  refine Keeps.bind (onBackend_keeps (Open c good master) fun lock => ?_) fun _ => Keeps.pure
  refine Backend.keeps_set _ fun contents ⟨unlocked, keeping⟩ => ⟨unlocked, ?_⟩
  subst unlocked
  exact keeping.insert ⟨salt, nonce, plaintext, rfl, isGood⟩

theorem put_keeps {plaintext : Bytes} (isGood : good kind plaintext) :
    (put c kind plaintext).Keeps (State.Keeps c good) := by
  intro st keeping
  refine (masterKey_ends keeping).bind fun m st held => ?_
  exact (putUnder_keeps isGood st held).mono (fun _ _ h => h.2) fun _ _ h => h.2

theorem askItem_keeps : askItem.Keeps (State.Keeps c good) :=
  onBackend_keeps (Keeping c good) fun _ => Backend.keeps_ask _ .scan

theorem scan_ends (held : Open c good master st.lock st.backend.contents) (kind : RecordKind) :
    (scan (.startingWith (c.front kind))).Ends st
      (fun items u => (∀ x ∈ items, Sealed good master kind x.2) ∧ u.Keeps c good)
      fun _ u => u.Keeps c good := by
  obtain ⟨unlocked, keeping⟩ := held
  have does := Backend.does_scan st.backend (.startingWith (c.front kind)) .ascending
  refine Ends.reporting (Ends.onPart ((does.ends keeping keeping).mono ?_ fun _ _ => id))
  rintro items b ⟨rfl, keeps⟩
  refine ⟨fun x member => ?_, keeps⟩
  obtain ⟨key, record⟩ := x
  obtain ⟨stored, inside⟩ := Contents.mem_within.mp member
  obtain ⟨rest, rfl⟩ := KeyRange.contains_startingWith.mp inside
  obtain ⟨m, unlocked', sealed⟩ := keeping kind rest record stored
  rw [unlocked] at unlocked'
  cases unlocked'
  exact sealed

theorem Sealed.opens [Crypto.Lawful] {record plaintext : Bytes}
    (sealed : Sealed good master kind record) (opened : openRecord? master record = some plaintext) :
    good kind plaintext := by
  obtain ⟨salt, nonce, plaintext', rfl, isGood⟩ := sealed
  rw [openRecord?_sealRecord] at opened
  cases opened
  exact isGood

theorem find_visited {α : Type} {visit : Bytes → VaultWork (Option α)} (found : α → Prop)
    (step : ∀ plaintext u, (visit plaintext).Ends u (fun o _ => ∀ x ∈ o, found x) fun _ _ => True) :
    (find c kind visit).Ends st (fun o _ => ∀ x ∈ o, found x) fun _ _ => True := by
  refine (Ends.any _ _).bind fun m st _ => (Ends.any _ _).bind fun items st _ => ?_
  refine (Ends.findSomeM? (fun _ _ => True) (fun x _ => found x) trivial ?_).mono ?_ fun _ _ => id
  · rintro ⟨key, record⟩ rest u _
    refine (Ends.any _ _).bind fun _ u _ => ?_
    split
    · refine (step _ u).mono ?_ fun _ _ => id
      intro o v answer
      cases o with
      | none => trivial
      | some x => exact answer x rfl
    · exact Ends.pure trivial
  · rintro o u h x member
    cases member
    exact h

theorem find_ends [Crypto.Lawful] {α : Type} {visit : Bytes → VaultWork (Option α)}
    (found : α → Prop) (keeping : st.Keeps c good)
    (step : ∀ plaintext u, good kind plaintext → u.Keeps c good →
      (visit plaintext).Ends u (fun o v => (∀ x ∈ o, found x) ∧ v.Keeps c good)
        fun _ v => v.Keeps c good) :
    (find c kind visit).Ends st (fun o u => (∀ x ∈ o, found x) ∧ u.Keeps c good)
      fun _ u => u.Keeps c good := by
  refine (masterKey_ends keeping).bind fun m st held => ?_
  refine (scan_ends held kind).bind fun items st start => ?_
  refine (Ends.findSomeM? (fun rest u => (∀ x ∈ rest, Sealed good m kind x.2) ∧ u.Keeps c good)
    (fun x u => found x ∧ u.Keeps c good) start ?_).mono ?_ fun _ _ => id
  · rintro ⟨key, record⟩ rest u ⟨sealed, keeping⟩
    obtain ⟨here, later⟩ := List.forall_mem_cons.mp sealed
    refine (askItem_keeps u keeping).bind fun _ u keeping => ?_
    split
    · next plaintext opened =>
      refine (step plaintext u (here.opens opened) keeping).mono ?_ fun _ _ => id
      rintro o v ⟨answer, keeping⟩
      cases o with
      | none => exact ⟨later, keeping⟩
      | some x => exact ⟨answer x rfl, keeping⟩
    · exact Ends.pure ⟨later, keeping⟩
  · intro o u h
    cases o with
    | none => exact ⟨by rintro x ⟨⟩, h.2⟩
    | some x =>
      refine ⟨?_, h.2⟩
      rintro _ ⟨⟩
      exact h.1

theorem records_keeps : (records c kind).Keeps (State.Keeps c good) := by
  intro st keeping
  refine (masterKey_ends keeping).bind fun m st held => ?_
  refine (scan_ends held kind).bind fun items st ⟨_, keeping⟩ => ?_
  refine Keeps.filterMapM (fun x => ?_) st keeping
  exact askItem_keeps.bind fun _ => Keeps.pure

theorem delete_keeps (key : Bytes) :
    (onBackend (Backend.delete key)).Keeps (State.Keeps c good) :=
  onBackend_keeps (Keeping c good) fun _ => Backend.keeps_delete _ fun _ keeping => keeping.erase key

theorem wipe_keeps : (wipe c).Keeps (State.Keeps c good) := by
  refine Keeps.bind (Keeps.forM fun kind => ?_) fun _ => (delete_keeps c.checkKey).bind fun _ => .pure
  refine records_keeps.bind fun items => Keeps.forM fun x => ?_
  exact (delete_keeps x.1).bind fun _ => .pure

end Vault

end DocumentShare
