import DocumentShare.Proofs.Credentials.Serving

/-!
# What credentials hold

Records are sealed under fresh salts, so one text can be under many keys: nothing but the look at what
is held, before a text is put, keeps it from being stored twice. However credentials are used from an
empty backend on, that look suffices (`inOrder_of_served`).

That the receiver of a stored pack is held is another matter: a record whose ciphertext has the digest
of another's takes the place of that one. So it is only said of runs in which digests do not collide.
-/

namespace DocumentShare

open Work

namespace Credentials

section General

variable [Crypto] {c : Vault.Config} {st u : Vault.State} {master : SealingKey}
  {contents : Contents} {entropy : Entropy} {kind : Vault.RecordKind} {plaintext : Bytes} {log : List Turn}
  {sure : Prop}

/-! ### What is answered -/

/-- A text is among the records of a kind. -/
def Listed (c : Vault.Config) (st : Vault.State) (kind : Vault.RecordKind) (plaintext : Bytes) :
    Prop :=
  ∃ items, ((Vault.records c kind).runOn st).1 = .ok items ∧ plaintext ∈ items.map Prod.snd

/-- What credentials answer about what they hold. -/
structure InOrder (c : Vault.Config) (st : Vault.State) : Prop where
  /-- Every keypair that is stored is listed, and no two have one identifier. -/
  distinct_ids : ∀ (r : Role) ks, ((keypairs c r).runOn st).1 = .ok ks → (ks.map Keypair.id).Nodup ∧
    ∃ items, ((Vault.records c (keypairKind r)).runOn st).1 = .ok items ∧
      items.map Prod.snd = ks.map Keypair.encode
  /-- What is stored under a mode are valid packs of this mode, and no two are the same. -/
  distinct_packs : ∀ (mode : AccessMode) items,
    ((Vault.records c mode.recordKind).runOn st).1 = .ok items →
      ∃ ps : List Pack, items.map Prod.snd = ps.map Pack.encode ∧ (ps.map Pack.encode).Nodup ∧
        ∀ p ∈ ps, p.mode = mode ∧ p.isValid
  selected : ∀ q ps, ((capabilities c q).runOn st).1 = .ok ps → ps.Nodup ∧
    ∀ p ∈ ps, p.isValid ∧ (∀ mode ∈ q.mode, p.mode = mode) ∧
      ∀ mode : AccessMode, Listed c st mode.recordKind p.encode ↔ p.mode = mode
  /-- A keypair whose identifier is held is not stored again. -/
  keypair_again : ∀ {r : Role} (k : Keypair r) ks, ((keypairs c r).runOn st).1 = .ok ks →
    k.id ∈ ks.map Keypair.id → ((addKeypair c k).runOn st).1 = .ok () ∧
      ((addKeypair c k).runOn st).2.backend.contents = st.backend.contents
  /-- A pack that is held is not stored again. -/
  pack_again : ∀ p : Pack, Listed c st p.mode.recordKind p.encode →
    ((store c p).runOn st).2.backend.contents = st.backend.contents
  /-- Neither does a request store it again that stores the pack it mints. -/
  request_again : ∀ request p, Exchange.stored? ⟨request, ((perform c request).runOn st).1⟩ = some p →
    Listed c st p.mode.recordKind p.encode →
      ((perform c request).runOn st).2.backend.contents = st.backend.contents
  answers : c.rounds ≠ 0 → (∀ r : Role, ∃ ks, ((keypairs c r).runOn st).1 = .ok ks) ∧
    ∀ q, ∃ ps, ((capabilities c q).runOn st).1 = .ok ps

/-- The identity keypair of the receiver of every pack is held. -/
def Backed (c : Vault.Config) (st : Vault.State) : Prop :=
  ∀ q ps, ((capabilities c q).runOn st).1 = .ok ps →
    ∃ ks : List IdentityKeypair, ((keypairs c .identity).runOn st).1 = .ok ks ∧
      ∀ p ∈ ps, p.receiver ∈ ks.map Keypair.id

section Unlocked

variable (stands : st.Stands (some (.ok master)) contents entropy)

include stands

theorem keypairs_listed (r : Role) :
    ((keypairs c r).runOn st).1 = .ok (keypairsAmong c master contents r) := by
  obtain ⟨ks, answer, rfl, _⟩ := (keypairs_answers stands r).ran
  exact answer

theorem capabilities_listed (q : CapabilityQuery) :
    ((capabilities c q).runOn st).1 = .ok (packsAmong c master contents q) := by
  obtain ⟨ps, answer, rfl, _⟩ := (capabilities_answers stands q).ran
  exact answer

theorem contents_addKeypair [Crypto.Lawful] {r : Role} {k : Keypair r}
    (held : (keypairAmong c master contents k.id).isSome) : ((addKeypair c k).runOn st).1 = .ok () ∧
      ((addKeypair c k).runOn st).2.backend.contents = contents := by
  obtain ⟨_, answer, after, rest, ensures, stands⟩ := (addKeypair_ensures stands k).ran
  refine ⟨answer, ?_⟩
  rw [stands.holds]
  cases ensures with
  | already _ => rfl
  | added absent _ => exact absurd held absent

theorem store_leaves [Crypto.Lawful] (p : Pack) : (store c p).Ends st
    (fun _ u => p.encode ∈ (Vault.listing master (c.front p.mode.recordKind) contents).map Prod.snd →
      u.backend.contents = contents)
    fun _ u => u.Stands (some (.ok master)) contents entropy := by
  refine (store_ensures stands p).mono ?_ fun _ _ => id
  intro _ u ⟨_, _, after, rest, ensures, stands⟩ listed
  rw [stands.holds]
  cases ensures with
  | already _ => rfl
  | added absent _ =>
    obtain ⟨⟨key, text⟩, member, rfl⟩ := List.mem_map.mp listed
    exact absurd ⟨key, member⟩ absent

theorem perform_leaves [Crypto.Lawful] (r : Request) : (perform c r).Ends st
    (fun reply u => ∀ p ∈ Exchange.stored? ⟨r, .ok reply⟩,
      p.encode ∈ (Vault.listing master (c.front p.mode.recordKind) contents).map Prod.snd →
        u.backend.contents = contents)
    fun _ u => u.Stands (some (.ok master)) contents entropy := by
  refine perform_ends stands (fun pack? u => ∀ p ∈ pack?, p.encode ∈
    (Vault.listing master (c.front p.mode.recordKind) contents).map Prod.snd →
      u.backend.contents = contents) (by simp) ?_ ?_ r
  · intro _ k
    exact (addKeypair_ensures stands k).mono (by simp) fun _ _ => id
  · intro p u stands
    refine (store_leaves stands p).mono ?_ fun _ _ => id
    intro _ v leaves q same
    obtain rfl := Option.some.inj same
    exact leaves

end Unlocked

/-! ### Runs that began empty -/

/-- What the listings answer is what a master key opens of some contents. -/
structure Sees (c : Vault.Config) (st : Vault.State) (master : SealingKey) (contents : Contents) :
    Prop where
  records : ∀ kind,
    ((Vault.records c kind).runOn st).1 = .ok (Vault.listing master (c.front kind) contents)
  keypairs : ∀ r, ((keypairs c r).runOn st).1 = .ok (keypairsAmong c master contents r)
  capabilities : ∀ q, ((capabilities c q).runOn st).1 = .ok (packsAmong c master contents q)

namespace Sees

theorem of_unlocked (unlocked : ((Vault.masterKey c).runOn st).1 = .ok master)
    (stands : ((Vault.masterKey c).runOn st).2.Stands (some (.ok master)) contents entropy) :
    Sees c st master contents where
  records kind := by
    have unlocking : Vault.Unlocking c id (Vault.records c kind) := Vault.Unlocking.masterKey _
    rw [unlocking.runOn_of_ok unlocked]
    exact records_listed stands kind
  keypairs r := by
    rw [(unlocking_keypairs r).runOn_of_ok unlocked]
    exact keypairs_listed stands r
  capabilities q := by
    rw [(unlocking_capabilities q).runOn_of_ok unlocked]
    exact capabilities_listed stands q

variable (sees : Sees c st master contents)

include sees

theorem listed_iff : Listed c st kind plaintext ↔
    plaintext ∈ (Vault.listing master (c.front kind) contents).map Prod.snd := by
  unfold Listed
  rw [sees.records]
  simp

variable (orderly : Orderly c master contents sure)

include orderly

theorem distinct_ids {r : Role} {ks : List (Keypair r)}
    (listed : ((Credentials.keypairs c r).runOn st).1 = .ok ks) : (ks.map Keypair.id).Nodup ∧
      ∃ items, ((Vault.records c (keypairKind r)).runOn st).1 = .ok items ∧
        items.map Prod.snd = ks.map Keypair.encode := by
  rw [sees.keypairs] at listed
  cases listed
  exact ⟨orderly.nodup_ids r, _, sees.records _, orderly.map_encode_keypairs r⟩

theorem distinct_packs {mode : AccessMode} {items : List (Bytes × Bytes)}
    (listed : ((Vault.records c mode.recordKind).runOn st).1 = .ok items) :
    ∃ ps : List Pack, items.map Prod.snd = ps.map Pack.encode ∧ (ps.map Pack.encode).Nodup ∧
      ∀ p ∈ ps, p.mode = mode ∧ p.isValid := by
  rw [sees.records] at listed
  cases listed
  obtain ⟨ps, texts, all⟩ := orderly.exists_packs mode
  refine ⟨ps, texts, ?_, all⟩
  rw [← texts]
  exact orderly.nodup_texts mode

theorem selected {q : CapabilityQuery} {ps : List Pack}
    (selected : ((Credentials.capabilities c q).runOn st).1 = .ok ps) : ps.Nodup ∧
      ∀ p ∈ ps, p.isValid ∧ (∀ mode ∈ q.mode, p.mode = mode) ∧
        ∀ mode : AccessMode, Listed c st mode.recordKind p.encode ↔ p.mode = mode := by
  rw [sees.capabilities] at selected
  cases selected
  refine ⟨orderly.nodup_packsAmong q, fun p member => ?_⟩
  obtain ⟨valid, right, x, among, text, read⟩ := orderly.mem_packsAmong member
  refine ⟨valid, right, fun mode => ?_⟩
  rw [sees.listed_iff]
  constructor
  · intro listed
    obtain ⟨y, there, same⟩ := List.mem_map.mp listed
    rw [text, ← same] at read
    exact (orderly.of_decode there read).1
  · rintro rfl
    rw [← text]
    exact List.mem_map_of_mem among

theorem backed (here : sure) : Backed c st := by
  intro q ps selected
  rw [sees.capabilities] at selected
  cases selected
  refine ⟨_, sees.keypairs .identity, fun p member => ?_⟩
  exact orderly.mem_ids_iff.mpr (orderly.receiver_held here member)

end Sees

theorem Opens.contents_of_listed {before : Contents} (opens : Opens c sure before master contents u)
    (listed : plaintext ∈ (Vault.listing master (c.front kind) contents).map Prod.snd) :
    contents = before := by
  obtain ⟨x, member, _⟩ := List.mem_map.mp listed
  exact opens.still kind x member

theorem inOrder_of_opens [Crypto.Lawful] (unlocked : ((Vault.masterKey c).runOn st).1 = .ok master)
    (opens : Opens c sure st.backend.contents master contents ((Vault.masterKey c).runOn st).2) :
    InOrder c st ∧ (sure → Backed c st) := by
  obtain ⟨entropy, stands⟩ := opens.stands
  have orderly := opens.orderly
  have sees : Sees c st master contents := .of_unlocked unlocked stands
  refine ⟨⟨fun r ks => sees.distinct_ids orderly, fun mode items => sees.distinct_packs orderly,
    fun q ps => sees.selected orderly, ?_, ?_, ?_, ?_⟩, sees.backed orderly⟩
  · intro r k ks listed member
    rw [sees.keypairs] at listed
    cases listed
    have held := orderly.mem_ids_iff.mp member
    obtain ⟨x, among, _⟩ := orderly.keypairAmong_isSome_iff.mp held
    rw [(unlocking_addKeypair k).runOn_of_ok unlocked, ← opens.still _ x among]
    exact contents_addKeypair stands held
  · intro p listed
    have among := sees.listed_iff.mp listed
    rw [(unlocking_store p).runOn_of_ok unlocked, ← opens.contents_of_listed among]
    rcases (store_leaves stands p).cases with ⟨_, _, leaves⟩ | ⟨_, _, left⟩
    · exact leaves among
    · exact left.holds
  · intro request p stored listed
    have among := sees.listed_iff.mp listed
    obtain unlocking | ⟨reply, none, same⟩ := unlocking_perform c request
    · rw [unlocking.runOn_of_ok unlocked] at stored ⊢
      rw [← opens.contents_of_listed among]
      rcases (perform_leaves stands request).cases with ⟨reply, answer, leaves⟩ | ⟨_, _, left⟩
      · rw [answer] at stored
        exact leaves p stored among
      · exact left.holds
    · rw [same]
  · intro _
    exact ⟨fun r => ⟨_, sees.keypairs r⟩, fun q => ⟨_, sees.capabilities q⟩⟩

/-- A vault that cannot be unlocked lists nothing. -/
theorem inOrder_of_refused {e : VaultError} (refused : ((Vault.masterKey c).runOn st).1 = .error e)
    (rounds : c.rounds = 0) : InOrder c st ∧ Backed c st := by
  have silent {ε α : Type} {report : VaultError → ε} {w : Work Vault.State ε α} {x : α}
      (unlocking : Vault.Unlocking c report w) : (w.runOn st).1 ≠ .ok x := by
    rw [unlocking.runOn_of_error refused]
    simp
  have unlisted {kind : Vault.RecordKind} {plaintext : Bytes} :
      ¬Listed c st kind plaintext := by
    intro ⟨items, listed, _⟩
    exact silent (Vault.Unlocking.masterKey _) listed
  refine ⟨⟨?_, ?_, ?_, ?_, ?_, ?_, ?_⟩, ?_⟩
  · intro r ks listed
    exact absurd listed (silent (unlocking_keypairs r))
  · intro mode items listed
    exact absurd listed (silent (Vault.Unlocking.masterKey _))
  · intro q ps selected
    exact absurd selected (silent (unlocking_capabilities q))
  · intro r k ks listed _
    exact absurd listed (silent (unlocking_keypairs r))
  · intro p listed
    exact absurd listed unlisted
  · intro request p _ listed
    exact absurd listed unlisted
  · intro some
    exact absurd rounds some
  · intro q ps selected
    exact absurd selected (silent (unlocking_capabilities q))

/-- However credentials are used, nothing is stored twice and all packs are valid. Unless digests
collided, the receivers of what is yielded are held. -/
theorem inOrder_of_served [Crypto.Lawful] {b : Backend} (works : b.Works)
    (vacant : b.contents = .empty) (served : Served c ⟨b, none, entropy⟩ log st) :
    InOrder c st ∧ (Untangled log → Backed c st) := by
  have kept := kept_of_served (.locked ⟨works, rfl, vacant, rfl⟩) served
  rcases kept.unlock.cases with ⟨master, unlocked, contents, opens⟩ | ⟨e, refused, rounds, _⟩
  · exact inOrder_of_opens unlocked opens
  · obtain ⟨inOrder, backed⟩ := inOrder_of_refused refused rounds
    exact ⟨inOrder, fun _ => backed⟩

end General

section Sample

open Crypto.Transparent

attribute [local instance] Crypto.transparent

/-- What was granted is wiped, and an identity is granted its part of a share twice. -/
def mintsAroundWipe : List Operation :=
  [.ask (.addIdentity (keypair .identity 1)), .ask (.addShare (keypair .share 2)),
    .ask (.mint (share 2) (identity 1) .read true), .wipe,
    .ask (.addIdentity (keypair .identity 1)), .ask (.mint (share 1) (identity 1) .write true),
    .ask (.mint (share 1) (identity 1) .write true)]

theorem inOrder_of_served_mintsAroundWipe :
    let after := serveAll vaultConfig mintsAroundWipe [] emptyVault
    (emptyVault.backend.Works ∧ emptyVault.backend.contents = .empty ∧
      Served vaultConfig emptyVault after.1 after.2 ∧ Untangled after.1) ∧
    InOrder vaultConfig after.2 ∧
    ∃ p, ((capabilities vaultConfig ⟨none, some .write, none⟩).runOn after.2).1 = .ok [p] ∧ p.isValid ∧
      p.mode = .write ∧ ∃ ks : List IdentityKeypair,
        ((keypairs vaultConfig .identity).runOn after.2).1 = .ok ks ∧
          p.receiver ∈ ks.map Keypair.id := by
  intro after
  have works : emptyVault.backend.Works := Backend.works_empty
  have served : Served vaultConfig emptyVault after.1 after.2 := Served.start.all mintsAroundWipe
  have untangled : Untangled after.1 := by decide +kernel
  have lawful := Crypto.transparent_lawful
  obtain ⟨inOrder, backed⟩ := inOrder_of_served works rfl served
  refine ⟨⟨works, rfl, served, untangled⟩, inOrder, ?_⟩
  obtain ⟨ps, listed⟩ := (inOrder.answers (by decide)).2 ⟨none, some .write, none⟩
  have one : ((capabilities vaultConfig ⟨none, some .write, none⟩).runOn after.2).1.map List.length
      = .ok 1 := by decide +kernel
  rw [listed] at one
  obtain ⟨p, rfl⟩ := List.length_eq_one_iff.mp (Except.ok.inj one)
  obtain ⟨valid, mode, _⟩ := (inOrder.selected _ _ listed).2 p List.mem_cons_self
  obtain ⟨ks, held, receivers⟩ := backed untangled _ _ listed
  exact ⟨p, listed, valid, mode .write rfl, ks, held, receivers p List.mem_cons_self⟩

end Sample

end Credentials

end DocumentShare
