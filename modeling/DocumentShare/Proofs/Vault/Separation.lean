import DocumentShare.Proofs.Vault.Neighbours

/-!
# Vaults beside each other

However the requests of vaults that share a backend are interleaved, each vault gets the replies that
it would get alone, lists exactly what it put and neither deleted nor wiped, and wipes that and its
check record and nothing else (`undisturbed_of_run`).
-/

namespace DocumentShare

open Work

namespace Vault

section General

variable [Crypto] {used : Vault → Prop} {b : Nat} {first : Contents} {s t u final : Site}
  {log : List Turn} {v : Vault} {r : Request} {reply : Except VaultError Reply} {kind : RecordKind}
  {key : Bytes} {m : SealingKey}

/-! ### Each vault for itself -/

/-- At the second site the vault is alone: its own keys hold the same, and the others what they held
at first. -/
structure Alike (v : Vault) (b : Nat) (first : Contents) (t a : Site) : Prop where
  lock : a.locks.get v.lock = t.locks.get v.lock
  entropy : a.entropy = t.entropy
  works : (a.backends.get b).Works
  own : Agree v.config (t.backends.get b).contents (a.backends.get b).contents
  foreign : ∀ key, ¬v.config.Own key → (a.backends.get b).contents.get? key = first.get? key

theorem Alike.discreet {a : Site} (alike : Alike v b first t a) (before : Discreet v.config m first)
    (beside : Discreet v.config m (t.backends.get b).contents) :
    Discreet v.config m (a.backends.get b).contents := by
  rintro kind ⟨key, plaintext⟩ listed
  obtain ⟨inside, record, stored, opens⟩ := mem_listing.mp listed
  by_cases own : v.config.Own key
  · rw [← alike.own key own] at stored
    exact beside kind _ (mem_listing.mpr ⟨inside, record, stored, opens⟩)
  · rw [alike.foreign key own] at stored
    exact before kind _ (mem_listing.mpr ⟨inside, record, stored, opens⟩)

/-- A turn of the vault itself comes to the same where it is alone. -/
theorem Alike.serve [Crypto.Exclusive] {turn : Turn} {a : Site}
    (alike : Alike turn.vault b first s a) (next : Continues used b first final log s turn t) :
    ((turn.vault.serve turn.request).runOn a).1 = turn.reply ∧
      Alike turn.vault b first t ((turn.vault.serve turn.request).runOn a).2 := by
  have beside := next.neighbours.beside _ next.member
  have works := alike.works
  rw [← beside] at works
  obtain ⟨serves, works, others⟩ := serve_served turn.vault turn.request works
  have agree := alike.own
  have atA (a : Site) : turn.vault.contents a = (a.backends.get b).contents := next.beside a
  have shut (m : SealingKey) (locked : t.locks.get turn.vault.lock = some (.ok m)) :
      Discreet turn.vault.config m (turn.vault.contents a) := by
    have final := next.leads _ next.member _ locked
    rw [atA]
    exact alike.discreet (next.separate.discreet _ next.member m final)
      (next.discreet_before next.member final)
  rw [← atA, ← atA] at agree
  have there := next.served.serves
  rw [alike.lock, alike.entropy] at serves
  obtain ⟨same, locked, drawn, agree⟩ :=
    there.agrees serves agree next.discreet shut next.deletes_own
  refine ⟨same, locked, drawn, beside ▸ works, ?_, fun key foreign => ?_⟩
  · rwa [atA, atA] at agree
  · have still := serves.get?_of_foreign (fun m opened => shut m (locked ▸ opened)) next.deletes_own
      foreign
    rw [atA, atA] at still
    rw [still, alike.foreign key foreign]

/-- A turn of another vault only draws bytes. -/
theorem Alike.other [Crypto.Exclusive] {turn : Turn} {a : Site} (alike : Alike v b first s a)
    (next : Continues used b first final log s turn t) (member : used v) (other : v ≠ turn.vault) :
    ∃ n, Alike v b first t { a with entropy := a.entropy.past n } := by
  obtain ⟨n, drawn⟩ := next.served.serves.draws
  refine ⟨n, ?_, ?_, alike.works, fun key own => ?_, alike.foreign⟩
  · rw [alike.lock, next.served.others v.lock (next.lock_ne member other)]
  · rw [drawn, ← alike.entropy]
  · rw [next.get?_of_other member other own]
    exact alike.own key own

/-- Each vault has its turns, with the same replies, in a run of its own. -/
theorem alone_of_run [Crypto.Lawful] [Crypto.Exclusive] (neighbours : Neighbours used b)
    (works : (s.backends.get b).Works) (unused : ∀ v, used v → s.locks.get v.lock = none)
    (run : Run used s log t) (separate : Separate used (s.backends.get b).contents final)
    (leads : Leads used t final) (told : DeletesTold log) (member : used v) :
    ∃ a, Run (· = v) s (log.filter fun x => x.vault = v) a ∧
      Alike v b (s.backends.get b).contents t a := by
  induction run with
  | start => exact ⟨s, .start, rfl, rfl, works, fun _ _ => rfl, fun _ _ => rfl⟩
  | @turn log t run w member' r ih =>
    have served := served_of_run neighbours works run member' r
    have before := served.leads.trans leads
    have next : Continues used b (s.backends.get b).contents final log t
        ⟨w, r, ((w.serve r).runOn t).1⟩ ((w.serve r).runOn t).2 :=
      ⟨orderly_of_run neighbours works unused run separate before told.2, neighbours, separate, leads,
        member', served, told.1⟩
    obtain ⟨a, alone, alike⟩ := ih before told.2
    by_cases same : w = v
    · subst same
      obtain ⟨replied, alike⟩ := alike.serve next
      refine ⟨_, ?_, alike⟩
      rw [List.filter_cons_of_pos (by simp)]
      have further := alone.turn rfl r
      rwa [show ((w.serve r).runOn a).1 = ((w.serve r).runOn t).1 from replied] at further
    · -- The turn falls away, but for the bytes that it drew.
      obtain ⟨n, alike⟩ := alike.other next member (Ne.symm same)
      refine ⟨_, ?_, alike⟩
      rw [List.filter_cons_of_neg (by simpa using same)]
      exact alone.elsewhere n
  | elsewhere run n ih =>
    obtain ⟨a, alone, lock, entropy, works, own, foreign⟩ := ih leads told
    refine ⟨_, alone.elsewhere n, lock, ?_, works, own, foreign⟩
    rw [entropy]

/-! ### What a turn comes to beside others -/

theorem owns_of_run (neighbours : Neighbours used b) (works : (s.backends.get b).Works)
    (run : Run used s log t) : ∀ x ∈ log, used x.vault ∧ ∀ kind plaintext key,
      x.request = .put kind plaintext → x.reply = .ok (.key key) → x.vault.config.Owns kind key := by
  induction run with
  | start => simp
  | @turn log t run v member r ih =>
    refine List.forall_mem_cons.mpr ⟨⟨member, ?_⟩, ih⟩
    have served := served_of_run neighbours works run member r
    intro kind plaintext key asked told
    rcases served.serves.cases with ⟨e, failed, _⟩ |
      ⟨m, between, left, answer, answered, _, _, responds⟩
    · rw [failed] at told
      cases told
    · obtain rfl : answer = .key key := Except.ok.inj (answered.symm.trans told)
      obtain rfl : r = .put kind plaintext := asked
      rw [Reply.key.inj responds.of_put.1]
      exact v.config.owns_storageKey _ _
  | elsewhere run n ih => exact ih

/-- A key under which there is something of a vault: its check record, or a record that it keeps. -/
def Occupies (v : Vault) (master : SealingKey) (first : Contents) (log : List Turn) (key : Bytes) :
    Prop :=
  key = v.config.checkKey ∨ ∃ kind plaintext,
    (key, plaintext) ∈ kept v kind (listing master (v.config.front kind) first) log

/-- What the last turn of a run, from a site over a log and a second site to a third, has to do with
the vaults beside it. -/
structure Undisturbed (used : Vault → Prop) (b : Nat) (s : Site) (log : List Turn) (t : Site)
    (turn : Turn) (u : Site) : Prop where
  /-- Every vault has its turns, with the same replies, in a run of its own. -/
  alone : ∀ v, used v → ∃ a, Run (· = v) s ((turn :: log).filter fun x => x.vault = v) a
  /-- A vault that can be unlocked answers. -/
  answers : turn.vault.config.Usable (s.backends.get b).contents → ∃ answer, turn.reply = .ok answer
  /-- The vault lists exactly what it keeps, once each and in key order. -/
  lists : PutsFresh (s.backends.get b).contents (turn :: log) → ∀ kind items,
    turn.request = .records kind → turn.reply = .ok (.records items) →
    ∃ master, u.locks.get turn.vault.lock = some (.ok master) ∧
      items.Pairwise (fun x y => x.1 < y.1) ∧ ∀ x, x ∈ items ↔ x ∈ kept turn.vault kind
        (listing master (turn.vault.config.front kind) (s.backends.get b).contents) log
  /-- A wipe removes what the vault keeps and its check record, and nothing else. -/
  wipes : PutsFresh (s.backends.get b).contents (turn :: log) → turn.request = .wipe →
    turn.reply = .ok .done → ∃ master, u.locks.get turn.vault.lock = some (.ok master) ∧
      ∀ key, (turn.vault.Occupies master (s.backends.get b).contents log key →
          (u.backends.get b).contents.get? key = none) ∧
        (¬turn.vault.Occupies master (s.backends.get b).contents log key →
          (u.backends.get b).contents.get? key = (t.backends.get b).contents.get? key)
  /-- Different vaults, and puts of different kinds, never give one key, nor that of a check record. -/
  keyed : ∀ x ∈ turn :: log, ∀ kind plaintext key, x.request = .put kind plaintext →
    x.reply = .ok (.key key) → (∀ v, used v → key ≠ v.config.checkKey) ∧
    ∀ y ∈ turn :: log, ∀ kind' plaintext', y.request = .put kind' plaintext' →
      y.reply = .ok (.key key) → y.vault = x.vault ∧ kind' = kind

namespace Continues

variable {turn : Turn}

theorem lists (next : Continues used b first final log s turn t) (fresh : PutsFresh first log)
    {items : List (Bytes × Bytes)} (asked : turn.request = .records kind)
    (replied : turn.reply = .ok (.records items)) :
    ∃ master, t.locks.get turn.vault.lock = some (.ok master) ∧
      items.Pairwise (fun x y => x.1 < y.1) ∧ ∀ x, x ∈ items ↔ x ∈ kept turn.vault kind
        (listing master (turn.vault.config.front kind) first) log := by
  rcases next.served.serves.cases with ⟨e, failed, _⟩ |
    ⟨m, between, left, answer, answered, locked, unlocks, responds⟩
  · rw [failed] at replied
    cases replied
  · rw [answered] at replied
    cases replied
    rw [asked] at responds
    obtain rfl := Reply.records.inj responds.of_records
    refine ⟨m, locked, sorted_listing _ _ _, fun x => unlocks.mem_listing_iff.trans ?_⟩
    rw [next.beside]
    exact next.orderly.listed fresh _ next.member m (next.leads _ next.member _ locked) kind x

theorem wipes (next : Continues used b first final log s turn t) (fresh : PutsFresh first log)
    (asked : turn.request = .wipe) (replied : turn.reply = .ok .done) :
    ∃ master, t.locks.get turn.vault.lock = some (.ok master) ∧
      ∀ key, (turn.vault.Occupies master first log key →
          (t.backends.get b).contents.get? key = none) ∧
        (¬turn.vault.Occupies master first log key →
          (t.backends.get b).contents.get? key = (s.backends.get b).contents.get? key) := by
  rcases next.served.serves.cases with ⟨e, failed, _⟩ |
    ⟨m, between, left, answer, answered, locked, unlocks, responds⟩
  · rw [failed] at replied
    cases replied
  · have listed := next.orderly.listed fresh _ next.member m (next.leads _ next.member _ locked)
    rw [asked, next.beside] at responds
    rw [next.beside] at unlocks
    rw [responds.of_wipe]
    refine ⟨m, locked, fun key => ⟨fun occupied => ?_, fun vacant => ?_⟩⟩
    · refine Option.eq_none_iff_forall_not_mem.mpr fun record stays => ?_
      obtain ⟨stored, other, shut⟩ := get?_wiped.mp stays
      obtain rfl | ⟨kind, plaintext, keeps⟩ := occupied
      · exact other rfl
      · rw [← listed, ← unlocks.mem_listing_iff] at keeps
        obtain ⟨inside, record', stored', opens⟩ := mem_listing.mp keeps
        rw [stored] at stored'
        cases stored'
        rw [shut kind inside] at opens
        cases opens
    · have other : key ≠ turn.vault.config.checkKey := fun same => vacant (.inl same)
      rw [← unlocks.get?_of_ne other]
      refine Option.ext fun record => get?_wiped.trans ⟨fun stays => stays.1, fun stored => ?_⟩
      refine ⟨stored, other, fun kind inside => ?_⟩
      refine Option.eq_none_iff_forall_not_mem.mpr fun plaintext opens => vacant (.inr ?_)
      refine ⟨kind, plaintext, ?_⟩
      rw [← listed, ← unlocks.mem_listing_iff]
      exact mem_listing.mpr ⟨inside, record, stored, opens⟩

end Continues

/-- Vaults of different names do not disturb each other on one backend, as long as every master key
opens only what its vault sealed. -/
theorem undisturbed_of_run [Crypto.Lawful] [Crypto.Exclusive] (neighbours : Neighbours used b)
    (works : (s.backends.get b).Works) (unused : ∀ v, used v → s.locks.get v.lock = none)
    (run : Run used s log t) (member : used v) (ran : (v.serve r).runOn t = (reply, u))
    (separate : Separate used (s.backends.get b).contents u)
    (told : DeletesTold (⟨v, r, reply⟩ :: log)) :
    Undisturbed used b s log t ⟨v, r, reply⟩ u := by
  have further : Run used s (⟨v, r, reply⟩ :: log) u := by
    have further := run.turn member r
    rwa [ran] at further
  have served : v.Served r t reply u := by
    have served := served_of_run neighbours works run member r
    rwa [ran] at served
  have still : Leads used u u := fun _ _ _ => id
  have orderly := orderly_of_run neighbours works unused run separate served.leads told.2
  have next : Continues used b (s.backends.get b).contents u log t ⟨v, r, reply⟩ u :=
    ⟨orderly, neighbours, separate, still, member, served, told.1⟩
  refine ⟨fun w member => ?_, fun usable => ?_, fun fresh _ _ => next.lists fresh.2,
    fun fresh => next.wipes fresh.2, ?_⟩
  · obtain ⟨a, alone, _⟩ := alone_of_run neighbours works unused further separate still told member
    exact ⟨a, alone⟩
  · cases reply with
    | ok answer => exact ⟨answer, rfl⟩
    | error e =>
      rcases served.serves.cases with ⟨_, _, locked, _⟩ | ⟨_, _, _, _, answered, _⟩
      · exact absurd locked (next.usable member usable _)
      · cases answered
  · intro x there kind plaintext key asked replied
    have owning := owns_of_run neighbours works further
    have owns := (owning x there).2 kind plaintext key asked replied
    refine ⟨fun w _ => owns.ne_checkKey w.config, fun y there' kind' plaintext' asked' replied' => ?_⟩
    obtain ⟨names, kinds⟩ := ((owning y there').2 kind' plaintext' key asked' replied').unique owns
    exact ⟨neighbours.named _ _ (owning y there').1 (owning x there).1 names, kinds⟩

end General

section Overlap

open Crypto

attribute [local instance] keyed

/-- Master keys that differ in their first half are apart: this half begins what is expanded from
them. -/
theorem keysApart_of_take {m m' : SealingKey} (other : m.bytes.take 16 ≠ m'.bytes.take 16) :
    KeysApart m m' := by
  have half (m : SealingKey) : (m.bytes.take 16).length = 16 := by
    rw [List.length_take, m.length_bytes]
    rfl
  have expanded (m : SealingKey) (salt : Salt) :
      (recordKey m salt).bytes.take 16 = m.bytes.take 16 := by
    show (Bytes.resize 32 (m.bytes.take 16 ++ salt.bytes ++ recordPurpose)).take 16 = _
    rw [Bytes.resize, List.append_assoc, List.take_append_of_le_length, List.take_take,
      List.take_append_of_le_length]
    · exact List.take_take ..
    · simp [half]
    · simp [half]
  intro salt
  constructor
  · intro same
    rw [← expanded m salt, ← expanded m' salt, same] at other
    exact other rfl
  · intro same
    rw [← expanded m salt, same] at other
    exact other rfl

/-- The keys of the second vault begin like read capabilities of the first. -/
def vaultA : Vault := ⟨⟨"a", "pass", 1⟩, 0, 0⟩

def vaultARead : Vault := ⟨⟨"a_read", "pass", 1⟩, 0, 1⟩

def putsAndListing : List (Vault × Request) :=
  [(vaultA, .put .read [1]), (vaultARead, .put .identityKeypair [2]), (vaultA, .records .read)]

def masterAt (s : Site) (lock : Nat) : SealingKey :=
  match s.locks.get lock with
  | some (.ok master) => master
  | _ => .zero 32

theorem undisturbed_of_run_overlapping :
    let used (v : Vault) := v ∈ [vaultA, vaultARead]
    let before := serveAll putsAndListing [] blank
    let after := (vaultA.serve .wipe).runOn before.2
    (Neighbours used 0 ∧ (blank.backends.get 0).Works ∧
      (∀ v, used v → blank.locks.get v.lock = none) ∧ Run used blank before.1 before.2 ∧ used vaultA ∧
      Separate used (blank.backends.get 0).contents after.2 ∧
      DeletesTold (⟨vaultA, .wipe, after.1⟩ :: before.1)) ∧
    Undisturbed used 0 blank before.1 before.2 ⟨vaultA, .wipe, after.1⟩ after.2 ∧
    ((before.2.backends.get 0).contents.within (.startingWith (vaultA.config.front .read))).length
      = 3 ∧
    (after.2.backends.get 0).contents.size = 2 := by
  intro used before after
  have neighbours : Neighbours used 0 :=
    ⟨by decide, fun v w here there =>
        (by decide : ∀ v ∈ [vaultA, vaultARead], ∀ w ∈ [vaultA, vaultARead],
          v.config.name = w.config.name → v = w) v here w there,
      fun v w here there => (by decide : ∀ v ∈ [vaultA, vaultARead], ∀ w ∈ [vaultA, vaultARead],
          v.lock = w.lock → v = w) v here w there⟩
  have works : (blank.backends.get 0).Works := Backend.works_empty
  have unused (v : Vault) (_ : used v) : blank.locks.get v.lock = none := rfl
  have run : Run used blank before.1 before.2 := Run.start.serveAll (by decide)
  have member : used vaultA := List.mem_cons_self
  have unlocked : after.2.locks.get 0 = some (.ok (masterAt after.2 0)) ∧
      after.2.locks.get 1 = some (.ok (masterAt after.2 1)) := by decide +kernel
  have halves : (masterAt after.2 0).bytes.take 16 ≠ (masterAt after.2 1).bytes.take 16 := by
    decide +kernel
  have separate : Separate used (blank.backends.get 0).contents after.2 := by
    refine ⟨fun v w here there other m m' => ?_, fun v _ m _ kind x member => by cases member⟩
    simp only [used, List.mem_cons, List.not_mem_nil, or_false] at here there
    obtain rfl | rfl := here
    · obtain rfl | rfl := there
      · exact absurd rfl other
      · show after.2.locks.get 0 = _ → after.2.locks.get 1 = _ → _
        rw [unlocked.1, unlocked.2]
        rintro ⟨⟩ ⟨⟩
        exact keysApart_of_take halves
    · obtain rfl | rfl := there
      · show after.2.locks.get 1 = _ → after.2.locks.get 0 = _ → _
        rw [unlocked.1, unlocked.2]
        rintro ⟨⟩ ⟨⟩
        exact keysApart_of_take (Ne.symm halves)
      · exact absurd rfl other
  have told : DeletesTold (⟨vaultA, .wipe, after.1⟩ :: before.1) := by
    simp [DeletesTold, before, serveAll, putsAndListing]
  have lawful := keyed_lawful
  have exclusive := keyed_exclusive
  exact ⟨⟨neighbours, works, unused, run, member, separate, told⟩,
    undisturbed_of_run neighbours works unused run member rfl separate told,
    by decide +kernel, by decide +kernel⟩

end Overlap

end Vault

end DocumentShare
