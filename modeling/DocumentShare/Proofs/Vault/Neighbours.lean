import DocumentShare.Proofs.Vault.Independence

/-!
# Runs of neighbours

Vaults of different names may share a backend although the fronts of one can begin the keys of another.
Whatever is stored was there at first or was sealed by one of them (`Origin`), so under its fronts a
vault opens its own records alone, and every point of a run is `Orderly`: what a vault lists is what
it keeps of what it put.
-/

namespace DocumentShare.Vault

variable [Crypto] {used : Vault → Prop} {b : Nat} {first contents : Contents} {s t u final : Site}
  {log : List Turn} {v w : Vault} {r : Request} {reply : Except VaultError Reply} {kind : RecordKind}
  {key : Bytes} {m master : SealingKey}

/-- Vaults on one backend, each opened once, under a name of its own. -/
structure Neighbours (used : Vault → Prop) (b : Nat) : Prop where
  beside : ∀ v, used v → v.backend = b
  named : ∀ v w, used v → used w → v.config.name = w.config.name → v = w
  locked : ∀ v w, used v → used w → v.lock = w.lock → v = w

/-- The master keys that vaults were unlocked with open what these vaults sealed, and nothing else. -/
structure Separate (used : Vault → Prop) (first : Contents) (final : Site) : Prop where
  apart : ∀ v w, used v → used w → v ≠ w → ∀ m m', final.locks.get v.lock = some (.ok m) →
    final.locks.get w.lock = some (.ok m') → KeysApart m m'
  /-- It is so for what the backend held at first. -/
  discreet : ∀ v, used v → ∀ m, final.locks.get v.lock = some (.ok m) → Discreet v.config m first

/-- The keys that a vault was told. -/
def Turn.keys (x : Turn) : List Bytes :=
  match x.reply with
  | .ok (.key key) => [key]
  | .ok (.records items) => items.map Prod.fst
  | _ => []

/-- Vaults were only asked to delete keys that they had told themselves. -/
def DeletesTold : List Turn → Prop
  | [] => True
  | x :: log => (∀ key, x.request = .delete key → ∃ y ∈ log, y.vault = x.vault ∧ key ∈ y.keys) ∧
    DeletesTold log

/-- No two puts were given one key, and none a key that was there at first: keys of one vault and kind
are the same only if the digests are (`storageKey_eq_iff`). -/
def PutsFresh (first : Contents) : List Turn → Prop
  | [] => True
  | x :: log => (∀ key, x.reply = .ok (.key key) → first.get? key = none ∧
      ∀ y ∈ log, y.reply ≠ .ok (.key key)) ∧ PutsFresh first log

/-- What a turn leaves of the records of a kind, each given as its key and text. -/
def Turn.leaves (x : Turn) (kind : RecordKind) (before : List (Bytes × Bytes)) :
    List (Bytes × Bytes) :=
  match x.request, x.reply with
  | .put kind' plaintext, .ok (.key key) =>
    if kind' = kind then (key, plaintext) :: before else before
  | .delete key, .ok _ => before.filter fun y => y.1 ≠ key
  | .wipe, .ok _ => []
  | _, _ => before

/-- The records of a kind that a vault keeps: those that were there at first and those that it put,
but for those that it deleted or wiped. -/
def kept (v : Vault) (kind : RecordKind) (first : List (Bytes × Bytes)) :
    List Turn → List (Bytes × Bytes)
  | [] => first
  | x :: log => if x.vault = v then x.leaves kind (kept v kind first log) else kept v kind first log

/-! ### Locks -/

/-- Whatever was unlocked stays so. -/
def Leads (used : Vault → Prop) (s t : Site) : Prop :=
  ∀ v, used v → ∀ result, s.locks.get v.lock = some result → t.locks.get v.lock = some result

omit [Crypto] in
theorem Leads.trans (first : Leads used s t) (second : Leads used t u) : Leads used s u :=
  fun v member result locked => second v member result (first v member result locked)

theorem Served.leads (served : v.Served r s reply t) : Leads used s t := by
  intro w _ result locked
  by_cases own : w.lock = v.lock
  · have serves := served.serves
    rw [← own, locked] at serves
    exact serves.lock_eq
  · rw [served.others w.lock own, locked]

theorem Served.locked (served : v.Served r s reply t) : t.locks.get v.lock ≠ none := by
  rcases served.serves.cases with ⟨_, _, locked, _⟩ | ⟨_, _, _, _, _, locked, _⟩
  · rw [locked]
    exact Option.some_ne_none _
  · rw [locked]
    exact Option.some_ne_none _

/-! ### Where records come from -/

/-- What is stored was there at first or was sealed by an unlocked vault, under a key of its own. -/
def Origin (used : Vault → Prop) (first : Contents) (t : Site) (contents : Contents) : Prop :=
  ∀ key record, contents.get? key = some record → first.get? key = some record ∨
    ∃ w, used w ∧ ∃ m, t.locks.get w.lock = some (.ok m) ∧
      ((key = w.config.checkKey ∧ ∃ salt nonce, record = checkRecord salt m nonce) ∨
        ∃ kind salt nonce plaintext, key = storageKey w.config kind record ∧
          record = sealRecord m salt nonce plaintext)

namespace Origin

theorem leads (origin : Origin used first s contents) (leads : Leads used s t) :
    Origin used first t contents := by
  intro key record stored
  refine (origin key record stored).imp_right ?_
  rintro ⟨w, member, m, locked, sealed⟩
  exact ⟨w, member, m, leads w member _ locked, sealed⟩

/-- A master key opens, under the fronts of its vault, the vault's own records alone. -/
theorem discreet [Crypto.Exclusive] (origin : Origin used first t contents)
    (separate : Separate used first final) (leads : Leads used t final) (member : used v)
    (locked : final.locks.get v.lock = some (.ok m)) : Discreet v.config m contents := by
  rintro kind ⟨key, plaintext⟩ listed
  obtain ⟨inside, record, stored, opens⟩ := mem_listing.mp listed
  obtain before | ⟨w, member', m', locked', sealed⟩ := origin key record stored
  · exact separate.discreet v member m locked kind (key, plaintext)
      (mem_listing.mpr ⟨inside, record, before, opens⟩)
  · by_cases same : w = v
    · subst same
      obtain ⟨rfl, _⟩ | ⟨kind', _, _, _, rfl, _⟩ := sealed
      · exact absurd rfl (ne_checkKey_of_front inside)
      · obtain rfl := kind_of_front inside
        exact w.config.owns_storageKey kind record
    · have apart := separate.apart v w member member' (Ne.symm same) m m' locked
        (leads w member' _ locked')
      obtain ⟨_, _, _, rfl⟩ | ⟨_, _, _, _, _, rfl⟩ := sealed
      · rw [apart.checkRecord] at opens
        cases opens
      · rw [apart.sealRecord] at opens
        cases opens

theorem served (origin : Origin used first s (v.contents s)) (member : used v)
    (served : v.Served r s reply t) : Origin used first t (v.contents t) := by
  have unlocked {result : Except VaultError SealingKey} {between : Contents} {left : Entropy}
      (unlocks : Unlocks v.config (v.contents s) s.entropy (s.locks.get v.lock) result between left)
      (locked : t.locks.get v.lock = some result) : Origin used first t between := by
    have leads : Leads used s t := served.leads
    have before := origin.leads leads
    generalize s.locks.get v.lock = lock at unlocks
    cases unlocks with
    | again => exact before
    | checked _ => exact before
    | refused _ _ => exact before
    | created _ _ =>
      intro key record stored
      rw [Contents.get?_insert] at stored
      split at stored
      · next check =>
        cases stored
        exact .inr ⟨v, member, _, locked, .inl ⟨check, _, _, rfl⟩⟩
      · exact before key record stored
  rcases served.serves.cases with ⟨e, _, locked, unlocks⟩ |
    ⟨m, between, left, answer, _, locked, unlocks, responds⟩
  · exact unlocked unlocks locked
  · have before := unlocked unlocks locked
    generalize v.contents t = after at responds
    generalize t.entropy = rest at responds
    cases responds with
    | ready => exact before
    | put stored =>
      intro key record there
      rw [Contents.get?_insert] at there
      split at there
      · next same =>
        cases there
        exact .inr ⟨v, member, m, locked, .inr ⟨_, _, _, _, same.trans stored, rfl⟩⟩
      · exact before key record there
    | records => exact before
    | delete =>
      intro key record there
      rw [Contents.get?_erase] at there
      split at there
      · cases there
      · exact before key record there
    | wipe =>
      intro key record there
      exact before key record (get?_wiped.mp there).1

end Origin

/-! ### What a vault keeps -/

omit [Crypto] in
theorem key_of_kept {l : List (Bytes × Bytes)} {x : Bytes × Bytes} (member : x ∈ kept v kind l log) :
    x ∈ l ∨ ∃ y ∈ log, y.reply = .ok (.key x.1) := by
  induction log with
  | nil => exact .inl member
  | cons y log ih =>
    have later (member : x ∈ kept v kind l log) : x ∈ l ∨ ∃ z ∈ y :: log, z.reply = .ok (.key x.1) := by
      refine (ih member).imp_right ?_
      rintro ⟨z, there, told⟩
      exact ⟨z, List.mem_cons_of_mem _ there, told⟩
    rw [kept] at member
    split at member
    · unfold Turn.leaves at member
      split at member
      · next kind' plaintext key request reply =>
        split at member
        · obtain rfl | member := List.mem_cons.mp member
          · exact .inr ⟨y, List.mem_cons_self, reply⟩
          · exact later member
        · exact later member
      · exact later (List.mem_filter.mp member).1
      · cases member
      · exact later member
    · exact later member

/-- A key that is given to a put is new to what a vault keeps. -/
theorem PutsFresh.ne_of_kept {turn : Turn} (fresh : PutsFresh first (turn :: log))
    (given : turn.reply = .ok (.key key)) {x : Bytes × Bytes} {front : Bytes}
    (member : x ∈ kept v kind (listing m front first) log) : x.1 ≠ key := by
  obtain ⟨absent, unput⟩ := fresh.1 key given
  rintro rfl
  obtain before | ⟨y, there, told⟩ := key_of_kept member
  · obtain ⟨_, record, stored, _⟩ := mem_listing.mp before
    rw [absent] at stored
    cases stored
  · exact unput y there told

/-- What is listed after a turn of an unlocked vault is what the turn leaves. -/
theorem Responds.leaves [Crypto.Lawful] {c : Config} {after : Contents} {entropy rest : Entropy}
    {answer : Reply} (responds : Responds c master contents entropy r answer after rest)
    {before : List (Bytes × Bytes)}
    (listed : ∀ x, x ∈ listing master (c.front kind) contents ↔ x ∈ before)
    (fresh : ∀ key, answer = .key key → ∀ x ∈ before, x.1 ≠ key) (v : Vault) (x : Bytes × Bytes) :
    x ∈ listing master (c.front kind) after ↔
      x ∈ Turn.leaves ⟨v, r, .ok answer⟩ kind before := by
  cases responds with
  | ready => exact listed x
  | @put kind' plaintext key stored =>
    subst stored
    obtain ⟨k, opened⟩ := x
    have opens : openRecord? master (nextRecord master entropy plaintext) = some plaintext :=
      openRecord?_sealRecord _ _ _ _
    have still : k ≠ storageKey c kind' (nextRecord master entropy plaintext) ∧ (k, opened) ∈ before
        ↔ (k, opened) ∈ before := and_iff_right_of_imp (fresh _ rfl (k, opened))
    rw [mem_listing_insert opens, listed, still, Turn.leaves]
    by_cases here : kind' = kind
    · simp [here]
    · simp [here, Ne.symm here]
  | records => exact listed x
  | delete =>
    rw [mem_listing_erase, listed, Turn.leaves, List.mem_filter]
    simp
  | wipe => exact ⟨fun member => absurd member (notMem_listing_wiped x), fun member => by cases member⟩

/-! ### Runs -/

/-- The vault can be unlocked: with the check record that is there, or by writing one. -/
structure Config.Usable (c : Config) (contents : Contents) : Prop where
  sets : contents.get? c.checkKey = none → c.rounds ≠ 0
  checks : ∀ record, contents.get? c.checkKey = some record →
    ∃ master, checkMaster c record = .ok master

/-- What is so at every point of a run. -/
structure Orderly (used : Vault → Prop) (b : Nat) (first : Contents) (final : Site)
    (log : List Turn) (t : Site) : Prop where
  works : (t.backends.get b).Works
  origin : Origin used first t (t.backends.get b).contents
  told : ∀ x ∈ log, ∀ key ∈ x.keys, ∃ kind, x.vault.config.Owns kind key
  untouched : ∀ v, used v → t.locks.get v.lock = none → ∀ key, v.config.Own key →
    (t.backends.get b).contents.get? key = first.get? key
  usable : ∀ v, used v → v.config.Usable first → ∀ e, t.locks.get v.lock ≠ some (.error e)
  listed : PutsFresh first log → ∀ v, used v → ∀ m, final.locks.get v.lock = some (.ok m) →
    ∀ kind x, x ∈ listing m (v.config.front kind) (t.backends.get b).contents ↔
      x ∈ kept v kind (listing m (v.config.front kind) first) log

/-- A turn that continues an orderly run. -/
structure Continues (used : Vault → Prop) (b : Nat) (first : Contents) (final : Site)
    (log : List Turn) (s : Site) (turn : Turn) (t : Site) : Prop where
  orderly : Orderly used b first final log s
  neighbours : Neighbours used b
  separate : Separate used first final
  leads : Leads used t final
  member : used turn.vault
  served : turn.vault.Served turn.request s turn.reply t
  told : ∀ key, turn.request = .delete key → ∃ y ∈ log, y.vault = turn.vault ∧ key ∈ y.keys

namespace Continues

variable {turn : Turn}

theorem beside (next : Continues used b first final log s turn t) (s : Site) :
    turn.vault.contents s = (s.backends.get b).contents := by
  rw [contents, next.neighbours.beside _ next.member]

theorem deletes_own (next : Continues used b first final log s turn t) (key : Bytes)
    (deleted : turn.request = .delete key) : turn.vault.config.Own key := by
  obtain ⟨y, there, same, given⟩ := next.told key deleted
  obtain ⟨kind, owns⟩ := next.orderly.told y there key given
  exact .inr ⟨kind, same ▸ owns⟩

theorem lock_ne (next : Continues used b first final log s turn t) (member : used w)
    (other : w ≠ turn.vault) : w.lock ≠ turn.vault.lock :=
  fun same => other (next.neighbours.locked w _ member next.member same)

theorem origin (next : Continues used b first final log s turn t) :
    Origin used first t (t.backends.get b).contents := by
  have origin := next.orderly.origin
  rw [← next.beside] at origin ⊢
  exact origin.served next.member next.served

section Exclusive

variable [Crypto.Exclusive]

theorem discreet (next : Continues used b first final log s turn t) (m : SealingKey)
    (locked : t.locks.get turn.vault.lock = some (.ok m)) :
    Discreet turn.vault.config m (turn.vault.contents s) := by
  rw [next.beside s]
  exact next.orderly.origin.discreet next.separate (next.served.leads.trans next.leads) next.member
    (next.leads _ next.member _ locked)

theorem get?_of_foreign (next : Continues used b first final log s turn t)
    (foreign : ¬turn.vault.config.Own key) :
    (t.backends.get b).contents.get? key = (s.backends.get b).contents.get? key := by
  have same := next.served.serves.get?_of_foreign next.discreet next.deletes_own foreign
  rwa [next.beside, next.beside] at same

theorem get?_of_other (next : Continues used b first final log s turn t) (member : used w)
    (other : w ≠ turn.vault) (own : w.config.Own key) :
    (t.backends.get b).contents.get? key = (s.backends.get b).contents.get? key := by
  refine next.get?_of_foreign fun own' => other ?_
  exact next.neighbours.named w _ member next.member (own.name own')

theorem told_own (next : Continues used b first final log s turn t) (key : Bytes)
    (given : key ∈ turn.keys) : ∃ kind, turn.vault.config.Owns kind key := by
  rcases next.served.serves.cases with ⟨e, failed, _⟩ |
    ⟨m, between, left, answer, answered, locked, unlocks, responds⟩
  · simp [Turn.keys, failed] at given
  · have discreet := (next.discreet m locked).unlocks unlocks
    generalize turn.vault.contents t = after at responds
    generalize t.entropy = rest at responds
    generalize turn.request = r at responds
    cases responds with
    | put stored =>
      simp only [Turn.keys, answered, List.mem_singleton] at given
      subst given
      exact ⟨_, stored ▸ Config.owns_storageKey _ _ _⟩
    | records =>
      simp only [Turn.keys, answered, List.mem_map] at given
      obtain ⟨x, listed, rfl⟩ := given
      exact ⟨_, discreet _ x listed⟩
    | _ => simp [Turn.keys, answered] at given

theorem untouched (next : Continues used b first final log s turn t) (member : used w)
    (unused : t.locks.get w.lock = none) (own : w.config.Own key) :
    (t.backends.get b).contents.get? key = first.get? key := by
  have other : w ≠ turn.vault := by
    rintro rfl
    exact next.served.locked unused
  rw [next.get?_of_other member other own]
  rw [next.served.others w.lock (next.lock_ne member other)] at unused
  exact next.orderly.untouched w member unused key own

omit [Crypto.Exclusive] in
theorem usable (next : Continues used b first final log s turn t) (member : used w)
    (usable : w.config.Usable first) (e : VaultError) : t.locks.get w.lock ≠ some (.error e) := by
  intro failed
  by_cases same : w = turn.vault
  · subst same
    rcases next.served.serves.cases with ⟨e', _, locked, unlocks⟩ | ⟨_, _, _, _, _, locked, _⟩
    · cases before : s.locks.get turn.vault.lock with
      | some result =>
        refine next.orderly.usable _ member usable e ?_
        rw [← failed, before]
        exact (next.served.leads _ member result before).symm
      | none =>
        -- A vault that is still locked finds its check record as it was at first.
        have check := next.orderly.untouched _ member before _ (.inl rfl)
        rw [← next.beside] at check
        rw [before] at unlocks
        generalize turn.vault.contents t = after at unlocks
        generalize t.entropy = rest at unlocks
        generalize failure : (Except.error e' : Except VaultError SealingKey) = result at unlocks
        cases unlocks with
        | checked found =>
          obtain ⟨m, passed⟩ := usable.checks _ (check.symm.trans found)
          rw [passed] at failure
          cases failure
        | refused absent rounds => exact usable.sets (check.symm.trans absent) rounds
        | created _ _ => cases failure
    · rw [locked] at failed
      cases failed
  · rw [next.served.others w.lock (next.lock_ne member same)] at failed
    exact next.orderly.usable w member usable e failed

theorem discreet_after (next : Continues used b first final log s turn t) (member : used w)
    (locked : final.locks.get w.lock = some (.ok m)) :
    Discreet w.config m (t.backends.get b).contents :=
  next.origin.discreet next.separate next.leads member locked

theorem discreet_before (next : Continues used b first final log s turn t) (member : used w)
    (locked : final.locks.get w.lock = some (.ok m)) :
    Discreet w.config m (s.backends.get b).contents :=
  next.orderly.origin.discreet next.separate (next.served.leads.trans next.leads) member locked

theorem listed [Crypto.Lawful] (next : Continues used b first final log s turn t)
    (fresh : PutsFresh first (turn :: log)) (member : used w)
    (locked : final.locks.get w.lock = some (.ok m)) (x : Bytes × Bytes) :
    x ∈ listing m (w.config.front kind) (t.backends.get b).contents ↔
      x ∈ kept w kind (listing m (w.config.front kind) first) (turn :: log) := by
  have before := next.orderly.listed fresh.2 w member m locked kind
  by_cases same : turn.vault = w
  · subst same
    rcases next.served.serves.cases with ⟨e, _, failed, _⟩ |
      ⟨m', between, left, answer, answered, locked', unlocks, responds⟩
    · rw [next.leads _ member _ failed] at locked
      cases locked
    · rw [next.leads _ member _ locked'] at locked
      cases locked
      rw [next.beside] at unlocks responds
      have leaves := responds.leaves (fun x => unlocks.mem_listing_iff.trans (before x))
        (fun key given x => fresh.ne_of_kept (given ▸ answered)) turn.vault x
      rw [kept, if_pos rfl, leaves, ← answered]
  · -- The turn leaves the vault's own keys alone, and it lists no others.
    rw [kept, if_neg same, ← before]
    have agree : Agree w.config (t.backends.get b).contents (s.backends.get b).contents :=
      fun key own => next.get?_of_other member (Ne.symm same) own
    rw [agree.listing_eq (next.discreet_after member locked) (next.discreet_before member locked)]

theorem orderly_after [Crypto.Lawful] (next : Continues used b first final log s turn t) :
    Orderly used b first final (turn :: log) t where
  works := by
    have works := next.served.works
    rwa [next.neighbours.beside _ next.member] at works
  origin := next.origin
  told := List.forall_mem_cons.mpr ⟨next.told_own, next.orderly.told⟩
  untouched := fun _ member unused _ own => next.untouched member unused own
  usable := fun _ member usable e => next.usable member usable e
  listed := fun fresh _ member _ locked _ x => next.listed fresh member locked x

end Exclusive

end Continues

theorem works_of_run (neighbours : Neighbours used b) (works : (s.backends.get b).Works)
    (run : Run used s log t) : (t.backends.get b).Works := by
  induction run with
  | start => exact works
  | turn run member r ih =>
    rw [← neighbours.beside _ member] at ih ⊢
    exact (serve_served _ r ih).works
  | elsewhere run n ih => exact ih

theorem served_of_run (neighbours : Neighbours used b) (works : (s.backends.get b).Works)
    (run : Run used s log t) (member : used v) (r : Request) :
    v.Served r t ((v.serve r).runOn t).1 ((v.serve r).runOn t).2 := by
  have worked := works_of_run neighbours works run
  rw [← neighbours.beside _ member] at worked
  exact serve_served v r worked

/-- Every point of a run is orderly, as seen from where it leads. -/
theorem orderly_of_run [Crypto.Lawful] [Crypto.Exclusive] (neighbours : Neighbours used b)
    (works : (s.backends.get b).Works) (unused : ∀ v, used v → s.locks.get v.lock = none)
    (run : Run used s log t) (separate : Separate used (s.backends.get b).contents final)
    (leads : Leads used t final) (told : DeletesTold log) :
    Orderly used b (s.backends.get b).contents final log t := by
  -- The last site stays fixed: what is stored early may be met by a vault that is unlocked late.
  induction run with
  | start =>
    refine ⟨works, fun _ _ stored => .inl stored, by simp, fun _ _ _ _ _ => rfl, ?_, ?_⟩
    · intro v member _ e failed
      rw [unused v member] at failed
      cases failed
    · intro _ _ _ _ _ _ x
      exact Iff.rfl
  | turn run member r ih =>
    have served := served_of_run neighbours works run member r
    have orderly := ih (served.leads.trans leads) told.2
    exact Continues.orderly_after ⟨orderly, neighbours, separate, leads, member, served, told.1⟩
  | elsewhere run n ih =>
    obtain ⟨works, origin, told, untouched, usable, listed⟩ := ih leads told
    exact ⟨works, origin, told, untouched, usable, listed⟩

end DocumentShare.Vault
