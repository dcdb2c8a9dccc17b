import DocumentShare.Proofs.Credentials.Requesting

/-!
# Which capability is chosen

A vault that has only ever been used for credentials holds, as its write capabilities, exactly the
packs that were stored, each valid and with the keypair of its receiver beside it. So `authorise`
makes a token if and only if one of them covers the entry (`authorise_iff_of_run`).
-/

namespace DocumentShare

open Work

namespace Credentials

section General

variable [Crypto] {c : Vault.Config} {st u : Vault.State} {master : SealingKey}
  {contents after : Contents} {entropy : Entropy} {lock : Option (Except VaultError SealingKey)}
  {log : List Exchange} {packs : List Pack}

/-! ### What is held -/

/-- Nothing is stored but the check record and records under their storage keys. -/
def Filed (c : Vault.Config) (contents : Contents) : Prop :=
  ∀ key record, contents.get? key = some record →
    key = c.checkKey ∨ ∃ kind, key = Vault.storageKey c kind record

theorem Filed.empty (c : Vault.Config) : Filed c .empty := by
  intro key record stored
  rw [Contents.get?_empty] at stored
  cases stored

theorem Filed.unlocks {result : Except VaultError SealingKey} {rest : Entropy}
    (filed : Filed c contents) (unlocks : Vault.Unlocks c contents entropy lock result after rest) :
    Filed c after := by
  intro key record stored
  by_cases check : key = c.checkKey
  · exact .inl check
  · rw [unlocks.get?_of_ne check] at stored
    exact filed key record stored

theorem Filed.adds {kind : Vault.RecordKind} {plaintext : Bytes} (filed : Filed c contents)
    (adds : Adds c master contents kind plaintext after) : Filed c after := by
  obtain ⟨record, _, rfl⟩ := adds
  intro key record' stored
  rw [Contents.get?_insert] at stored
  split at stored
  · next here =>
    cases stored
    exact .inr ⟨kind, here⟩
  · exact filed key record' stored

/-- What a master key opens are the packs that were stored, as far as write capabilities go, and all
of these can be used. -/
structure Stocked (c : Vault.Config) (master : SealingKey) (contents : Contents) (packs : List Pack) :
    Prop where
  filed : Filed c contents
  known : ∀ x ∈ Vault.listing master (c.front .write) contents,
    ∃ p ∈ packs, p.mode = .write ∧ x.2 = p.encode
  valid : ∀ p ∈ packs, p.isValid
  held : ∀ p ∈ packs, (keypairAmong c master contents p.receiver).isSome
  listed : ∀ p ∈ packs, ∃ key, (key, p.encode) ∈
    Vault.listing master (c.front p.mode.recordKind) contents

/-- Whatever was listed still is. -/
def Grows (c : Vault.Config) (master : SealingKey) (contents after : Contents) : Prop :=
  ∀ kind, ∀ x ∈ Vault.listing master (c.front kind) contents,
    x ∈ Vault.listing master (c.front kind) after

/-- A record that is added takes the place of no other, as it would have the digest of the other. -/
theorem Adds.grows {before : Contents} {kind : Vault.RecordKind} {plaintext : Bytes}
    (adds : Adds c master contents kind plaintext after) (filed : Filed c contents)
    (same : ∀ kind key, c.front kind <+: key → contents.get? key = before.get? key)
    (distinct : Distinct before after) : Grows c master contents after := by
  obtain ⟨record, _, rfl⟩ := adds
  rintro kind' ⟨key, text⟩ member
  obtain ⟨inside, record', stored, opens⟩ := Vault.mem_listing.mp member
  refine Vault.mem_listing.mpr ⟨inside, record', ?_, opens⟩
  rw [Contents.get?_insert]
  split
  · next here =>
    obtain check | ⟨kind'', there⟩ := filed key record' stored
    · exact absurd check (Vault.ne_checkKey_of_front inside)
    · obtain ⟨_, _, digests⟩ := Vault.storageKey_eq_iff.mp (there.symm.trans here)
      have old := Contents.get?_eq_some_iff.mp ((same kind' key inside).symm.trans stored)
      have new : (contents.insert (Vault.storageKey c kind record) record).get?
          (Vault.storageKey c kind record) = some record := by
        rw [Contents.get?_insert, if_pos rfl]
      exact congrArg some (distinct _ old _ (Contents.get?_eq_some_iff.mp new) digests).symm
  · exact stored

theorem Changes.grows {before : Contents} {pack? : Option Pack}
    (changes : Changes c master contents pack? after) (filed : Filed c contents)
    (same : ∀ kind key, c.front kind <+: key → contents.get? key = before.get? key)
    (distinct : Distinct before after) : Grows c master contents after := by
  cases changes with
  | nothing => exact fun _ _ => id
  | keypair adds => exact adds.grows filed same distinct
  | again _ _ _ => exact fun _ _ => id
  | pack _ _ adds => exact adds.grows filed same distinct

theorem Grows.keypairAmong {r : Role} {name : Identifier r} (grows : Grows c master contents after)
    (held : (keypairAmong c master contents name).isSome) :
    (Credentials.keypairAmong c master after name).isSome := by
  unfold Credentials.keypairAmong at held ⊢
  rw [List.findSome?_isSome_iff] at held ⊢
  obtain ⟨x, member, found⟩ := held
  exact ⟨x, grows _ x member, found⟩

theorem Stocked.empty (master : SealingKey) (filed : Filed c contents)
    (vacant : ∀ kind key, c.front kind <+: key → contents.get? key = none) :
    Stocked c master contents [] := by
  refine ⟨filed, fun x member => ?_, by simp, by simp, by simp⟩
  obtain ⟨inside, record, stored, _⟩ := Vault.mem_listing.mp member
  rw [vacant _ _ inside] at stored
  cases stored

omit [Crypto] in
theorem keypairKind_ne_write (r : Role) : keypairKind r ≠ .write := by
  cases r with
  | identity => decide
  | share => decide

/-- A text that was added is listed, and only under its own kind. -/
theorem Adds.known {kind kind' : Vault.RecordKind} {plaintext : Bytes} {x : Bytes × Bytes}
    (adds : Adds c master contents kind plaintext after)
    (member : x ∈ Vault.listing master (c.front kind') after) :
    kind' = kind ∧ x.2 = plaintext ∨ x ∈ Vault.listing master (c.front kind') contents := by
  obtain ⟨record, opens, rfl⟩ := adds
  obtain ⟨key, text⟩ := x
  obtain ⟨same, _, encoded⟩ | ⟨_, before⟩ := (Vault.mem_listing_insert opens).mp member
  · exact .inl ⟨same, encoded⟩
  · exact .inr before

theorem Adds.listed {kind : Vault.RecordKind} {plaintext : Bytes}
    (adds : Adds c master contents kind plaintext after) :
    ∃ key, (key, plaintext) ∈ Vault.listing master (c.front kind) after := by
  obtain ⟨record, opens, rfl⟩ := adds
  exact ⟨_, (Vault.mem_listing_insert opens).mpr (.inl ⟨rfl, rfl, rfl⟩)⟩

theorem Stocked.changes {pack? : Option Pack} (stocked : Stocked c master contents packs)
    (grows : Grows c master contents after) (changes : Changes c master contents pack? after) :
    Stocked c master after (pack?.toList ++ packs) := by
  obtain ⟨filed, known, valid, held, listed⟩ := stocked
  have heldStill (p : Pack) (member : p ∈ packs) := grows.keypairAmong (held p member)
  have listedStill (p : Pack) (member : p ∈ packs) :
      ∃ key, (key, p.encode) ∈ Vault.listing master (c.front p.mode.recordKind) after := by
    obtain ⟨key, before⟩ := listed p member
    exact ⟨key, grows _ _ before⟩
  cases changes with
  | nothing => exact ⟨filed, known, valid, held, listed⟩
  | keypair adds =>
    refine ⟨filed.adds adds, fun x member => ?_, valid, heldStill, listedStill⟩
    obtain ⟨same, _⟩ | before := adds.known member
    · exact absurd same.symm (keypairKind_ne_write _)
    · exact known x before
  | @again pack validHere heldHere listedHere =>
    refine ⟨filed, fun x member => ?_, List.forall_mem_cons.mpr ⟨validHere, valid⟩,
      List.forall_mem_cons.mpr ⟨heldHere, held⟩, List.forall_mem_cons.mpr ⟨listedHere, listed⟩⟩
    obtain ⟨p, stored, here⟩ := known x member
    exact ⟨p, List.mem_cons_of_mem _ stored, here⟩
  | @pack pack _ validHere heldHere adds =>
    refine ⟨filed.adds adds, fun x member => ?_, List.forall_mem_cons.mpr ⟨validHere, valid⟩,
      List.forall_mem_cons.mpr ⟨grows.keypairAmong heldHere, heldStill⟩,
      List.forall_mem_cons.mpr ⟨adds.listed, listedStill⟩⟩
    obtain ⟨same, encoded⟩ | before := adds.known member
    · refine ⟨pack, List.mem_cons_self, ?_, encoded⟩
      cases mode : pack.mode with
      | read => rw [mode] at same; cases same
      | write => rfl
    · obtain ⟨p, stored, here⟩ := known x before
      exact ⟨p, List.mem_cons_of_mem _ stored, here⟩

/-! ### The choice -/

/-- A valid pack that covers an entry is read back: every range on its way includes the time of the
entry, so none of them is inverted. -/
theorem decode_of_covering {p : Pack} (valid : p.isValid) {e : Entry}
    (covers : (covering e).selects p) : Pack.decode p.encode = .ok p := by
  have checked := (Pack.capability_of_isValid valid).2
  have inside := (selects_covering.mp covers).2
  exact (Pack.reads_decoder p).runAll.1 (Capability.upright_of_isValid checked inside)

/-- A token is made exactly if a write capability that was stored covers the entry, and it proves
the entry. -/
theorem Stocked.chooses [Crypto.Lawful] (stocked : Stocked c master contents packs) (e : Entry) :
    let chosen := (Vault.listing master (c.front .write) contents).findSome?
      fun x => tokenIn c master contents e x.2
    (chosen.isSome ↔ ∃ p ∈ packs, p.mode = .write ∧ (covering e).selects p) ∧
      ∀ t ∈ chosen, t.authorises e := by
  obtain ⟨_, known, valid, held, listed⟩ := stocked
  intro chosen
  have sound (t : Token) (found : chosen = some t) : t.authorises e ∧
      ∃ p ∈ packs, p.mode = .write ∧ (covering e).selects p := by
    obtain ⟨x, member, made⟩ := List.exists_of_findSome?_eq_some found
    obtain ⟨p, stored, mode, encoded⟩ := known x member
    obtain ⟨pack, selected, signed⟩ := Option.bind_eq_some_iff.mp made
    obtain ⟨read, covers⟩ := Option.filter_eq_some_iff.mp selected
    rw [encoded] at read
    obtain rfl := Pack.eq_of_decode_encode (Pack.decode_of_toOption read)
    obtain ⟨k, among, rfl⟩ := Option.map_eq_some_iff.mp signed
    exact ⟨authorises_of_covering mode (valid pack stored) covers (id_of_keypairAmong among),
      pack, stored, mode, covers⟩
  refine ⟨⟨fun made => ?_, ?_⟩, fun t found => (sound t found).1⟩
  · obtain ⟨t, found⟩ := Option.isSome_iff_exists.mp made
    exact (sound t found).2
  · rintro ⟨p, stored, mode, covers⟩
    obtain ⟨key, member⟩ := listed p stored
    rw [mode] at member
    refine List.findSome?_isSome_iff.mpr ⟨_, member, ?_⟩
    have read : (Pack.decode p.encode).toOption = some p := by
      rw [decode_of_covering (valid p stored) covers]
      rfl
    obtain ⟨k, among⟩ := Option.isSome_iff_exists.mp (held p stored)
    simp [tokenIn, read, Option.filter, covers, among]

/-! ### Runs -/

/-- A vault that is still locked holds nothing, and one that is unlocked is stocked. -/
inductive Stock (c : Vault.Config) : List Pack → Vault.State → Prop
  | locked {st : Vault.State} {entropy : Entropy} (stands : st.Stands none .empty entropy) :
      Stock c [] st
  | refused {st : Vault.State} {e : VaultError} {contents : Contents} {entropy : Entropy}
      (stands : st.Stands (some (.error e)) contents entropy) (rounds : c.rounds = 0) : Stock c [] st
  | opened {st : Vault.State} {master : SealingKey} {contents : Contents} {entropy : Entropy}
      {packs : List Pack} (stands : st.Stands (some (.ok master)) contents entropy)
      (stocked : Stocked c master contents packs) : Stock c packs st

/-- The first unlocking on an empty backend leaves nothing to list. Only without rounds it fails. -/
theorem masterKey_of_empty (stands : st.Stands none .empty entropy) :
    (Vault.masterKey c).Ends st
      (fun master u => ∃ contents rest, u.Stands (some (.ok master)) contents rest ∧
        Filed c contents ∧ ∀ kind key, c.front kind <+: key → contents.get? key = none)
      (fun e u => c.rounds = 0 ∧ ∃ contents rest, u.Stands (some (.error e)) contents rest) := by
  refine (Vault.masterKey_unlocks c stands).mono ?_ ?_
  · intro master u ⟨contents, rest, unlocks, stands⟩
    refine ⟨contents, rest, stands, (Filed.empty c).unlocks unlocks, fun kind key inside => ?_⟩
    rw [unlocks.get?_of_ne (Vault.ne_checkKey_of_front inside), Contents.get?_empty]
  · intro e u ⟨contents, rest, unlocks, stands⟩
    generalize failure : (Except.error e : Except VaultError SealingKey) = result at unlocks
    cases unlocks with
    | checked found => cases found
    | refused _ rounds =>
      cases failure
      exact ⟨rounds, _, _, stands⟩
    | created _ _ => cases failure

theorem Stock.ends {ε α : Type} {report : VaultError → ε} {w : Work Vault.State ε α}
    {answers : α → Vault.State → Prop} {fails : ε → Vault.State → Prop} (stock : Stock c packs st)
    (unlocking : Vault.Unlocking c report w)
    (opened : ∀ master contents entropy u, u.Stands (some (.ok master)) contents entropy →
      Stocked c master contents packs →
      (∀ kind key, c.front kind <+: key → contents.get? key = st.backend.contents.get? key) →
      w.Ends u answers fails)
    (refused : packs = [] → c.rounds = 0 → ∀ e contents entropy u,
      u.Stands (some (.error e)) contents entropy → fails (report e) u) :
    w.Ends st answers fails := by
  cases stock with
  | locked stands =>
    refine unlocking.after (masterKey_of_empty stands) ?_ ?_
    · intro master u ⟨after, rest, stands', filed, vacant⟩
      refine opened master after rest u stands' (.empty master filed vacant) ?_
      intro kind key inside
      rw [stands.holds, Contents.get?_empty]
      exact vacant kind key inside
    · intro e u ⟨rounds, after, rest, stands⟩
      exact refused rfl rounds e after rest u stands
  | refused stands rounds =>
    refine unlocking.ends stands ?_ ?_
    · intro master after rest u unlocks _
      cases unlocks
    · intro e after rest u _ stands
      exact refused rfl rounds e after rest u stands
  | opened stands stocked =>
    refine unlocking.ends stands ?_ ?_
    · intro master after rest u unlocks stands'
      cases unlocks
      exact opened _ _ _ u stands' stocked fun _ _ _ => by rw [stands.holds]
    · intro e after rest u unlocks _
      cases unlocks

theorem stored_cons (x : Exchange) (log : List Exchange) :
    stored (x :: log) = x.stored?.toList ++ stored log := by
  unfold stored
  rw [List.filterMap_cons]
  cases x.stored? with
  | none => rfl
  | some pack => rfl

theorem Stock.perform [Crypto.Lawful] (stock : Stock c (stored log) st) (r : Request)
    (distinct : Distinct st.backend.contents
      ((Credentials.perform c r).runOn st).2.backend.contents) :
    Stock c (stored (⟨r, ((Credentials.perform c r).runOn st).1⟩ :: log))
      ((Credentials.perform c r).runOn st).2 := by
  rw [stored_cons]
  obtain unlocking | ⟨reply, none, same⟩ := unlocking_perform c r
  · -- Whether digests collide can be said of the last state only, so it is a premise of the answer.
    have ends : (Credentials.perform c r).Ends st
        (fun reply u => Distinct st.backend.contents u.backend.contents →
          Stock c ((Exchange.stored? ⟨r, .ok reply⟩).toList ++ stored log) u)
        fun e u => Stock c ((Exchange.stored? ⟨r, .error e⟩).toList ++ stored log) u := by
      have failing (e : AuthError) : Exchange.stored? ⟨r, .error e⟩ = none := by
        cases r with
        | mint share user mode persist => cases persist <;> rfl
        | _ => rfl
      refine stock.ends unlocking ?_ ?_
      · intro master contents entropy u stands stocked same
        refine (perform_changes stands r).mono ?_ ?_
        · rintro reply v ⟨after, rest, changes, stands⟩ distinct
          rw [stands.holds] at distinct
          exact .opened stands (stocked.changes (changes.grows stocked.filed same distinct) changes)
        · intro e v stands
          rw [failing]
          exact .opened stands stocked
      · intro nothing rounds e contents entropy u stands
        rw [failing, nothing]
        exact .refused stands rounds
    rcases ends.cases with ⟨reply, answer, holds⟩ | ⟨e, failure, holds⟩
    · rw [answer]
      exact holds distinct
    · rw [failure]
      exact holds
  · rw [same, none]
    exact stock

theorem stock_of_run [Crypto.Lawful] {s : Vault.State} (start : Stock c [] s)
    (run : Run c s log st) : Stock c (stored log) st := by
  induction run with
  | start => exact start
  | request run r distinct ih => exact ih.perform r distinct

/-- A token for an entry is made iff a write pack for its share was stored whose area includes the
entry, and the token proves the entry. -/
theorem authorise_iff_of_run [Crypto.Lawful] {b : Backend} (works : b.Works)
    (vacant : b.contents = .empty) (run : Run c ⟨b, none, entropy⟩ log st) (e : Entry) :
    ((∃ t, ((authorise c e).runOn st).1 = .ok (some t)) ↔
      ∃ p ∈ stored log, p.mode = .write ∧ p.share = e.share ∧
        p.area.includes e.identity e.path e.timestamp) ∧
    (∀ t, ((authorise c e).runOn st).1 = .ok (some t) → t.authorises e) ∧
    (c.rounds ≠ 0 → ∃ o, ((authorise c e).runOn st).1 = .ok o) := by
  have stock := stock_of_run (.locked ⟨works, rfl, vacant, rfl⟩) run
  have covers (p : Pack) : (covering e).selects p ↔
      p.share = e.share ∧ p.area.includes e.identity e.path e.timestamp := by
    simp [covering, CapabilityQuery.selects]
  have ends : (authorise c e).Ends st
      (fun o _ => (o.isSome ↔ ∃ p ∈ stored log, p.mode = .write ∧ (covering e).selects p) ∧
        ∀ t ∈ o, t.authorises e)
      fun _ _ => stored log = [] ∧ c.rounds = 0 := by
    have unlocking : Vault.Unlocking c .vault (authorise c e) :=
      (Vault.Unlocking.masterKey _).reporting AuthError.vault
    refine stock.ends unlocking ?_ ?_
    · intro master contents entropy u stands stocked _
      refine (authorise_answers stands e).mono ?_ fun _ _ => False.elim
      rintro o v rfl
      exact stocked.chooses e
    · intro nothing rounds _ _ _ _ _
      exact ⟨nothing, rounds⟩
  simp only [covers] at ends
  rcases ends.cases with ⟨o, answer, made, proofs⟩ | ⟨error, failure, nothing, rounds⟩
  · rw [answer]
    refine ⟨?_, fun t found => proofs t (Except.ok.inj found), fun _ => ⟨o, rfl⟩⟩
    rw [← made, Option.isSome_iff_exists]
    simp
  · rw [failure, nothing]
    simp [rounds]

end General

section Grant

open Crypto.Transparent

attribute [local instance] Crypto.transparent

def vaultConfig : Vault.Config := ⟨"vaultConfig", "pass", 1⟩

def emptyVault : Vault.State := ⟨.empty, none, .scattered⟩

/-- An identity is granted its part of a communal share and the whole of an owned one. -/
def twoGrants : List Request :=
  [.addIdentity (keypair .identity 1), .addShare (keypair .share 2),
    .mint (share 1) (identity 1) .write true, .mint (share 2) (identity 1) .write true]

/-- What another identity writes in a share. -/
def foreignEntry (s : Share) : Entry := ⟨s, identity 3, path 7, 8, 1, Crypto.digest [1]⟩

theorem authorise_iff_of_run_twoGrants :
    let after := performAll vaultConfig twoGrants [] emptyVault
    (emptyVault.backend.Works ∧ emptyVault.backend.contents = .empty ∧
      Run vaultConfig emptyVault after.1 after.2 ∧ (stored after.1).length = 2) ∧
    (∃ t, ((authorise vaultConfig (foreignEntry (share 2))).runOn after.2).1 = .ok (some t) ∧
      t.authorises (foreignEntry (share 2))) ∧
    ¬∃ t, ((authorise vaultConfig (foreignEntry (share 1))).runOn after.2).1 = .ok (some t) := by
  intro after
  have works : emptyVault.backend.Works := Backend.works_empty
  have run : Run vaultConfig emptyVault after.1 after.2 := by
    have first :=
      Run.start.request (c := vaultConfig) (s := emptyVault) twoGrants[0] (by decide +kernel)
    have second := first.request twoGrants[1] (by decide +kernel)
    have third := second.request twoGrants[2] (by decide +kernel)
    exact third.request twoGrants[3] (by decide +kernel)
  have lawful := Crypto.transparent_lawful
  have covered := authorise_iff_of_run works rfl run (foreignEntry (share 2))
  have uncovered := authorise_iff_of_run works rfl run (foreignEntry (share 1))
  refine ⟨⟨works, rfl, run, by decide +kernel⟩, ?_, ?_⟩
  · obtain ⟨t, made⟩ := covered.1.mpr (by decide +kernel)
    exact ⟨t, made, covered.2.1 t made⟩
  · rw [uncovered.1]
    decide +kernel

end Grant

end Credentials

end DocumentShare
