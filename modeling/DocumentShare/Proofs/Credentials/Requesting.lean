import DocumentShare.Proofs.Credentials.Entitlement
import DocumentShare.Proofs.Vault.Keys

/-!
# Requests to credentials

A `Request` is asked of an unlocked vault. What it finds is what its master key opens, and what it leaves
is that and the records that it added (`perform_changes`). Most requests begin by unlocking the vault, and
one that does not stores nothing (`unlocking_perform`).
-/

namespace DocumentShare

open Work

namespace Credentials

section General

variable [Crypto]

/-- What can be asked of credentials that changes what they hold. -/
inductive Request
  | addIdentity (keypair : IdentityKeypair)
  | addShare (keypair : ShareKeypair)
  | mint (share : Share) (user : Identity) (mode : AccessMode) (persist : Bool)
  | keep (pack : Pack)

/-- Answers the pack that was minted, if one was asked for. -/
def perform (c : Vault.Config) : Request → CredentialWork (Option Pack)
  | .addIdentity keypair => (fun _ => none) <$> addKeypair c keypair
  | .addShare keypair => (fun _ => none) <$> addKeypair c keypair
  | .mint share user mode persist => some <$> mint c share user mode persist
  | .keep pack => (fun _ => none) <$> store c pack

/-- A request and what it came to. -/
structure Exchange where
  request : Request
  reply : Except AuthError (Option Pack)

/-- The pack that was stored. -/
def Exchange.stored? (x : Exchange) : Option Pack :=
  match x.request, x.reply with
  | .keep pack, .ok _ => some pack
  | .mint _ _ _ true, .ok minted => minted
  | _, _ => none

def stored (log : List Exchange) : List Pack := log.filterMap Exchange.stored?

/-- No two records that differ, one stored before and one after, have ciphertexts of one digest. -/
def Distinct (before after : Contents) : Prop :=
  ∀ x ∈ before.pairs, ∀ y ∈ after.pairs,
    Vault.recordDigest x.2 = Vault.recordDigest y.2 → x.2 = y.2

instance (before after : Contents) : Decidable (Distinct before after) :=
  inferInstanceAs (Decidable (∀ x ∈ before.pairs, ∀ y ∈ after.pairs,
    Vault.recordDigest x.2 = Vault.recordDigest y.2 → x.2 = y.2))

/-- From a state to a state by requests, the last first, as long as digests do not collide. -/
inductive Run (c : Vault.Config) (s : Vault.State) : List Exchange → Vault.State → Prop
  | start : Run c s [] s
  | request {log : List Exchange} {t : Vault.State} (run : Run c s log t) (r : Request)
      (distinct : Distinct t.backend.contents ((perform c r).runOn t).2.backend.contents) :
      Run c s (⟨r, ((perform c r).runOn t).1⟩ :: log) ((perform c r).runOn t).2

def performAll (c : Vault.Config) : List Request → List Exchange → Vault.State →
    List Exchange × Vault.State
  | [], log, t => (log, t)
  | r :: requests, log, t =>
    performAll c requests (⟨r, ((perform c r).runOn t).1⟩ :: log) ((perform c r).runOn t).2

variable {c : Vault.Config} {st : Vault.State} {master : SealingKey} {contents after : Contents}
  {entropy : Entropy}

/-! ### What is found -/

/-- The keypair of an identifier, if a text encodes it. -/
def keypairIn {r : Role} (id : Identifier r) (plaintext : Bytes) : Option (Keypair r) :=
  match Keypair.decode r plaintext with
  | .ok k => if k.id = id then some k else none
  | .error _ => none

theorem id_of_keypairIn {r : Role} {id : Identifier r} {plaintext : Bytes} {k : Keypair r}
    (found : keypairIn id plaintext = some k) : k.id = id := by
  unfold keypairIn at found
  split at found
  · split at found
    · next same =>
      cases found
      exact same
    · cases found
  · cases found

/-- The first keypair of an identifier that a master key opens. -/
def keypairAmong {r : Role} (c : Vault.Config) (master : SealingKey) (contents : Contents)
    (id : Identifier r) : Option (Keypair r) :=
  (Vault.listing master (c.front (keypairKind r)) contents).findSome? fun x => keypairIn id x.2

theorem id_of_keypairAmong {r : Role} {id : Identifier r} {k : Keypair r}
    (found : keypairAmong c master contents id = some k) : k.id = id := by
  obtain ⟨x, _, found⟩ := List.exists_of_findSome?_eq_some found
  exact id_of_keypairIn found

/-- The token that a text yields: of a pack that covers the entry, by its receiver's keypair. -/
def tokenIn (c : Vault.Config) (master : SealingKey) (contents : Contents) (e : Entry)
    (plaintext : Bytes) : Option Token :=
  ((Pack.decode plaintext).toOption.filter (covering e).selects).bind fun pack =>
    (keypairAmong c master contents pack.receiver).map fun k => ⟨pack.capability, k.sign e.encode⟩

section Unlocked

variable (stands : st.Stands (some (.ok master)) contents entropy)

include stands

theorem keypair?_answers {r : Role} (id : Identifier r) : (keypair? c id).Answers st fun o u =>
    o = keypairAmong c master contents id ∧ u.Stands (some (.ok master)) contents entropy :=
  Vault.find_answers stands (keypairIn id) _ fun _ _ stands => Ends.pure ⟨rfl, stands⟩

theorem holds_answers (p : Pack) : (holds c p).Answers st fun held u =>
    (held = true ↔ ∃ key, (key, p.encode) ∈
      Vault.listing master (c.front p.mode.recordKind) contents) ∧
      u.Stands (some (.ok master)) contents entropy := by
  let same (plaintext : Bytes) : Option Unit := if plaintext = p.encode then some () else none
  refine (Vault.find_answers stands same p.mode.recordKind fun _ _ stands =>
    Ends.pure ⟨rfl, stands⟩).bind ?_
  rintro o u ⟨rfl, stands⟩
  refine Ends.pure ⟨?_, stands⟩
  rw [List.findSome?_isSome_iff]
  constructor
  · rintro ⟨⟨key, plaintext⟩, member, here⟩
    by_cases encoded : plaintext = p.encode
    · exact ⟨key, encoded ▸ member⟩
    · simp [same, encoded] at here
  · rintro ⟨key, member⟩
    exact ⟨(key, p.encode), member, by simp [same]⟩

theorem heldKeypair_finds (id : Identity) : (heldKeypair c id).Ends st
    (fun k u => keypairAmong c master contents id = some k ∧
      u.Stands (some (.ok master)) contents entropy)
    fun _ u => u.Stands (some (.ok master)) contents entropy := by
  have asked : ((keypair? c id).reporting AuthError.vault).Answers st fun o u =>
      o = keypairAmong c master contents id ∧ u.Stands (some (.ok master)) contents entropy :=
    Ends.reporting (keypair?_answers stands id)
  refine asked.bind ?_
  rintro o u ⟨found, stands⟩
  cases o with
  | none => exact Ends.throw stands
  | some k => exact Ends.pure ⟨found.symm, stands⟩

theorem authorise_answers (e : Entry) : (authorise c e).Answers st fun o _ =>
    o = (Vault.listing master (c.front .write) contents).findSome?
      fun x => tokenIn c master contents e x.2 := by
  refine Ends.reporting ((Vault.find_answers stands (tokenIn c master contents e) .write ?_).mono
    (fun _ _ h => h.1) fun _ _ => id)
  intro plaintext u stands
  unfold tokenIn
  cases (Pack.decode plaintext).toOption.filter (covering e).selects with
  | none => exact Ends.pure ⟨rfl, stands⟩
  | some pack =>
    refine (keypair?_answers stands pack.receiver).bind ?_
    rintro o u ⟨rfl, stands⟩
    exact Ends.pure ⟨rfl, stands⟩

end Unlocked

/-! ### What requests change -/

/-- A record of a kind was added that opens as a text. -/
def Adds (c : Vault.Config) (master : SealingKey) (contents : Contents) (kind : Vault.RecordKind)
    (plaintext : Bytes) (after : Contents) : Prop :=
  ∃ record, Vault.openRecord? master record = some plaintext ∧
    after = contents.insert (Vault.storageKey c kind record) record

/-- A text was added unless what it keeps was held already. -/
inductive Ensures (c : Vault.Config) (master : SealingKey) (contents : Contents)
    (kind : Vault.RecordKind) (plaintext : Bytes) (held : Prop) : Contents → Prop
  | already (here : held) : Ensures c master contents kind plaintext held contents
  | added {after : Contents} (absent : ¬held) (adds : Adds c master contents kind plaintext after) :
      Ensures c master contents kind plaintext held after

/-- What a request that stores a pack, or none, does to the contents. -/
inductive Changes (c : Vault.Config) (master : SealingKey) (contents : Contents) :
    Option Pack → Contents → Prop
  | nothing : Changes c master contents none contents
  | keypair {r : Role} {plaintext : Bytes} {after : Contents}
      (adds : Adds c master contents (keypairKind r) plaintext after) :
      Changes c master contents none after
  | again {pack : Pack} (valid : pack.isValid)
      (held : (keypairAmong c master contents pack.receiver).isSome)
      (listed : ∃ key, (key, pack.encode) ∈
        Vault.listing master (c.front pack.mode.recordKind) contents) :
      Changes c master contents (some pack) contents
  | pack {pack : Pack} {after : Contents} (valid : pack.isValid)
      (held : (keypairAmong c master contents pack.receiver).isSome)
      (adds : Adds c master contents pack.mode.recordKind pack.encode after) :
      Changes c master contents (some pack) after

section Unlocked

variable [Crypto.Lawful] (stands : st.Stands (some (.ok master)) contents entropy)

include stands

theorem put_adds (kind : Vault.RecordKind) (plaintext : Bytes) :
    (Vault.put c kind plaintext).Answers st fun _ u => ∃ after rest,
      Adds c master contents kind plaintext after ∧ u.Stands (some (.ok master)) after rest := by
  refine (Vault.put_answers stands kind plaintext).mono ?_ fun _ _ => id
  rintro key u ⟨rfl, stands⟩
  exact ⟨_, _, ⟨_, Vault.openRecord?_sealRecord _ _ _ _, rfl⟩, stands⟩

theorem addKeypair_ensures {r : Role} (k : Keypair r) : (addKeypair c k).Answers st fun _ u =>
    ∃ after rest, Ensures c master contents (keypairKind r) k.encode
      (keypairAmong c master contents k.id).isSome after ∧
        u.Stands (some (.ok master)) after rest := by
  refine Ends.reporting ((keypair?_answers stands k.id).bind ?_)
  rintro o u ⟨rfl, stands⟩
  cases found : keypairAmong c master contents k.id with
  | none =>
    refine (put_adds stands (keypairKind r) k.encode).bind ?_
    rintro _ u ⟨after, rest, adds, stands⟩
    exact Ends.pure ⟨after, rest, .added (by simp) adds, stands⟩
  | some _ => exact Ends.pure ⟨contents, entropy, .already rfl, stands⟩

theorem addKeypair_changes {r : Role} (k : Keypair r) : (addKeypair c k).Answers st fun _ u =>
    ∃ after rest, Changes c master contents none after ∧ u.Stands (some (.ok master)) after rest := by
  refine (addKeypair_ensures stands k).mono ?_ fun _ _ => id
  rintro _ u ⟨after, rest, ensures, stands⟩
  cases ensures with
  | already _ => exact ⟨contents, rest, .nothing, stands⟩
  | added _ adds => exact ⟨after, rest, .keypair adds, stands⟩

theorem store_ensures (p : Pack) : (store c p).Ends st
    (fun _ u => p.isValid ∧ (keypairAmong c master contents p.receiver).isSome ∧
      ∃ after rest, Ensures c master contents p.mode.recordKind p.encode
        (∃ key, (key, p.encode) ∈ Vault.listing master (c.front p.mode.recordKind) contents) after ∧
        u.Stands (some (.ok master)) after rest)
    fun _ u => u.Stands (some (.ok master)) contents entropy := by
  refine (heldKeypair_finds stands p.receiver).bind fun k u ⟨found, stands⟩ => ?_
  have held : (keypairAmong c master contents p.receiver).isSome := by rw [found]; rfl
  by_cases valid : p.isValid
  · rw [valid]
    refine Ends.reporting ((holds_answers stands p).bind fun there u ⟨listed, stands⟩ => ?_)
    cases there with
    | true => exact Ends.pure ⟨rfl, held, contents, entropy, .already (listed.mp rfl), stands⟩
    | false =>
      have absent := mt listed.mpr Bool.false_ne_true
      refine (put_adds stands p.mode.recordKind p.encode).bind ?_
      rintro _ u ⟨after, rest, adds, stands⟩
      exact Ends.pure ⟨rfl, held, after, rest, .added absent adds, stands⟩
  · rw [Bool.eq_false_iff.mpr valid]
    exact Ends.throw stands

theorem store_changes (p : Pack) : (store c p).Ends st
    (fun _ u => ∃ after rest, Changes c master contents (some p) after ∧
      u.Stands (some (.ok master)) after rest)
    fun _ u => u.Stands (some (.ok master)) contents entropy := by
  refine (store_ensures stands p).mono ?_ fun _ _ => id
  rintro _ u ⟨valid, held, after, rest, ensures, stands⟩
  cases ensures with
  | already listed => exact ⟨contents, rest, .again valid held listed, stands⟩
  | added _ adds => exact ⟨after, rest, .pack valid held adds, stands⟩

omit [Crypto.Lawful] in
theorem issue_finds (share : Share) (user : Identity) (mode : AccessMode) :
    (issue c share user mode).Ends st (fun _ u => u.Stands (some (.ok master)) contents entropy)
      fun _ u => u.Stands (some (.ok master)) contents entropy := by
  unfold issue
  split
  · have checked : (Work.check AuthError.validation (Capability.ofCommunal share user mode) :
        CredentialWork Capability).Ends st (fun _ u => u.Stands (some (.ok master)) contents entropy)
        fun _ u => u.Stands (some (.ok master)) contents entropy :=
      Ends.check (fun _ _ => stands) fun _ _ => stands
    exact checked.bind fun _ u stands => Ends.check (fun _ _ => stands) fun _ _ => stands
  · have asked : ((keypair? c share).reporting AuthError.vault).Answers st fun _ u =>
        u.Stands (some (.ok master)) contents entropy :=
      Ends.reporting ((keypair?_answers stands share).mono (fun _ _ h => h.2) fun _ _ => id)
    refine asked.bind fun o u stands => ?_
    cases o with
    | none => exact Ends.throw stands
    | some k => exact Ends.check (fun _ _ => stands) fun _ _ => stands

omit [Crypto.Lawful] in
/-- What a request comes to, by what the adding of a keypair and the storing of a pack come to. -/
theorem perform_ends (good : Option Pack → Vault.State → Prop)
    (kept : ∀ u, u.Stands (some (.ok master)) contents entropy → good none u)
    (added : ∀ (role : Role) (k : Keypair role), (addKeypair c k).Answers st fun _ u => good none u)
    (stored : ∀ p u, u.Stands (some (.ok master)) contents entropy → (store c p).Ends u
      (fun _ v => good (some p) v) fun _ v => v.Stands (some (.ok master)) contents entropy)
    (r : Request) : (perform c r).Ends st
      (fun reply u => good (Exchange.stored? ⟨r, .ok reply⟩) u)
      fun _ u => u.Stands (some (.ok master)) contents entropy := by
  cases r with
  | addIdentity keypair =>
    exact Ends.map ((added .identity keypair).mono (fun _ _ => id) fun _ _ => False.elim)
      fun _ _ => id
  | addShare keypair =>
    exact Ends.map ((added .share keypair).mono (fun _ _ => id) fun _ _ => False.elim) fun _ _ => id
  | mint share user mode persist =>
    refine Ends.map ((issue_finds stands share user mode).bind (fun p u stands => ?_)) fun _ _ => id
    cases persist with
    | false => exact Ends.pure (kept u stands)
    | true => exact (stored p u stands).bind fun _ v here => Ends.pure here
  | keep pack => exact Ends.map (stored pack st stands) fun _ _ => id

theorem perform_changes (r : Request) : (perform c r).Ends st
    (fun reply u => ∃ after rest, Changes c master contents (Exchange.stored? ⟨r, .ok reply⟩) after ∧
      u.Stands (some (.ok master)) after rest)
    fun _ u => u.Stands (some (.ok master)) contents entropy :=
  perform_ends stands
    (fun pack? u => ∃ after rest, Changes c master contents pack? after ∧
      u.Stands (some (.ok master)) after rest)
    (fun _ stands => ⟨contents, entropy, .nothing, stands⟩)
    (fun _ k => addKeypair_changes stands k) (fun p _ stands => store_changes stands p) r

end Unlocked

theorem unlocking_keypair? {r : Role} (name : Identifier r) :
    Vault.Unlocking c .vault ((keypair? c name).reporting AuthError.vault) :=
  (Vault.Unlocking.masterKey _).reporting AuthError.vault

theorem unlocking_addKeypair {r : Role} (k : Keypair r) :
    Vault.Unlocking c .vault (addKeypair c k) :=
  ((Vault.Unlocking.masterKey _).bind _).reporting AuthError.vault

theorem unlocking_store (p : Pack) : Vault.Unlocking c .vault (store c p) :=
  ((unlocking_keypair? p.receiver).bind _).bind _

theorem unlocking_issue {share : Share} (owned : ¬share.isCommunal) (user : Identity)
    (mode : AccessMode) : Vault.Unlocking c .vault (issue c share user mode) := by
  rw [issue, if_neg owned]
  exact (unlocking_keypair? share).bind _

theorem issue_communal {share : Share} (communal : share.isCommunal) (user : Identity)
    (mode : AccessMode) : issue c share user mode = Work.check .validation
      (do Pack.ofCapability (← Capability.ofCommunal share user mode) none) := by
  rw [issue, if_pos communal]
  cases Capability.ofCommunal share user mode with
  | error e => rfl
  | ok capability => rfl

/-- A request begins by unlocking the vault, or it stores nothing and comes to the same whatever the
vault holds. -/
theorem unlocking_perform (c : Vault.Config) (r : Request) :
    Vault.Unlocking c .vault (perform c r) ∨
      ∃ reply, Exchange.stored? ⟨r, reply⟩ = none ∧ ∀ st, (perform c r).runOn st = (reply, st) := by
  cases r with
  | addIdentity keypair => exact .inl ((unlocking_addKeypair keypair).map _)
  | addShare keypair => exact .inl ((unlocking_addKeypair keypair).map _)
  | keep pack => exact .inl ((unlocking_store pack).map _)
  | mint share user mode persist =>
    by_cases communal : share.isCommunal
    · have issued := issue_communal (c := c) communal user mode
      cases made : (do Pack.ofCapability (← Capability.ofCommunal share user mode) none) with
      | error e =>
        refine .inr ⟨.error (.validation e), by cases persist <;> rfl, fun st => ?_⟩
        rw [perform, mint, issued, made]
        rfl
      | ok pack =>
        cases persist with
        | false =>
          refine .inr ⟨.ok (some pack), rfl, fun st => ?_⟩
          rw [perform, mint, issued, made]
          rfl
        | true =>
          have minted : mint c share user mode true = store c pack >>= fun _ => pure pack := by
            rw [mint, issued, made]
            rfl
          refine .inl (Vault.Unlocking.map ?_ _)
          rw [minted]
          exact (unlocking_store pack).bind _
    · exact .inl (((unlocking_issue communal user mode).bind _).map _)

end General

end Credentials

end DocumentShare
