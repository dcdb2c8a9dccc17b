import DocumentShare.Credentials.Basic
import DocumentShare.Proofs.Authority.Encoding
import DocumentShare.Proofs.Authority.Handover
import DocumentShare.Proofs.Vault.Keeping

/-!
# What credentials entitle to

The write capabilities in a vault are valid, since only valid ones are stored, so a token that is
made by one of them proves the entry that it is made for (`Credentials.authorise_proves`).
-/

namespace DocumentShare

open Work

namespace Credentials

theorem selects_covering {p : Pack} {e : Entry} :
    (covering e).selects p ↔ p.share = e.share ∧ e.isIn p.area := by
  simp only [covering, CapabilityQuery.selects, Option.all_some, Bool.and_eq_true, decide_eq_true_eq]
  rfl

variable [Crypto] {c : Vault.Config} {st : Vault.State}

/-- What may be kept: as a write capability, only a valid one. -/
def Fit (kind : Vault.RecordKind) (plaintext : Bytes) : Prop :=
  kind = .write → ∃ p : Pack, plaintext = p.encode ∧ p.mode = .write ∧ p.isValid

abbrev Keeps (c : Vault.Config) (st : Vault.State) : Prop := st.Keeps c Fit

theorem fit_keypair {r : Role} (plaintext : Bytes) : Fit (keypairKind r) plaintext := by
  intro same
  cases r <;> cases same

theorem fit_pack {p : Pack} (valid : p.isValid) : Fit p.mode.recordKind p.encode := by
  intro same
  refine ⟨p, rfl, ?_, valid⟩
  cases mode : p.mode with
  | read => rw [mode] at same; cases same
  | write => rfl

theorem wipe_keeps : (wipe c).Keeps (Keeps c) := .reporting Vault.wipe_keeps

theorem ready_keeps : (ready c).Keeps (Keeps c) := by
  refine .reporting (Keeps.bind (fun st keeps => ?_) fun _ => .pure)
  exact (Vault.masterKey_ends keeps).mono (fun _ _ h => h.2) fun _ _ => id

variable [Crypto.Lawful]

theorem keypair?_ends {r : Role} (keeps : Keeps c st) (id : Identifier r) :
    (keypair? c id).Ends st (fun o u => (∀ k ∈ o, k.id = id) ∧ Keeps c u)
      fun _ u => Keeps c u := by
  refine Vault.find_ends _ keeps fun plaintext u _ keeps => Ends.pure ⟨fun k found => ?_, keeps⟩
  split at found
  · split at found
    · next same =>
      cases found
      exact same
    · cases found
  · cases found

theorem addKeypair_keeps {r : Role} (k : Keypair r) : (addKeypair c k).Keeps (Keeps c) := by
  refine Work.Keeps.reporting fun st keeps => ?_
  refine (keypair?_ends keeps k.id).bind fun o st ⟨_, keeps⟩ => ?_
  split
  · exact (Vault.put_keeps (fit_keypair _)).bind (fun _ => .pure) st keeps
  · exact Ends.pure keeps

theorem heldKeypair_ends (keeps : Keeps c st) (id : Identity) :
    (heldKeypair c id).Ends st (fun k u => k.id = id ∧ Keeps c u) fun _ u => Keeps c u := by
  have asked : ((keypair? c id).reporting AuthError.vault).Ends st
      (fun o u => (∀ k ∈ o, k.id = id) ∧ Keeps c u) fun _ u => Keeps c u :=
    Ends.reporting (keypair?_ends keeps id)
  refine asked.bind fun o st ⟨same, keeps⟩ => ?_
  cases o with
  | none => exact Ends.throw keeps
  | some k => exact Ends.pure ⟨same k rfl, keeps⟩

theorem holds_keeps (p : Pack) : (holds c p).Keeps (Keeps c) := by
  intro st keeps
  refine (Vault.find_ends (fun _ => True) keeps fun _ u _ keeps => ?_).bind
    fun o u ⟨_, keeps⟩ => Ends.pure keeps
  exact Ends.pure ⟨fun _ _ => trivial, keeps⟩

theorem store_keeps (p : Pack) : (store c p).Keeps (Keeps c) := by
  intro st keeps
  refine (heldKeypair_ends keeps p.receiver).bind fun _ st ⟨_, keeps⟩ => ?_
  split
  · exact Ends.throw keeps
  · next valid =>
    have fit : Fit p.mode.recordKind p.encode := fit_pack (by simpa using valid)
    refine Ends.reporting ((holds_keeps p st keeps).bind fun held st keeps => ?_)
    split
    · exact (Vault.put_keeps fit).bind (fun _ => .pure) st keeps
    · exact Ends.pure keeps

theorem issue_keeps (share : Share) (user : Identity) (mode : AccessMode) :
    (issue c share user mode).Keeps (Keeps c) := by
  unfold issue
  split
  · exact Keeps.check.bind fun _ => .check
  · intro st keeps
    have asked : ((keypair? c share).reporting AuthError.vault).Keeps (Keeps c) :=
      Work.Keeps.reporting fun st keeps =>
        (keypair?_ends keeps share).mono (fun _ _ h => h.2) fun _ _ => id
    refine asked.bind (fun o => ?_) st keeps
    cases o with
    | none => exact .throw
    | some k => exact .check

theorem mint_keeps (share : Share) (user : Identity) (mode : AccessMode) (persist : Bool) :
    (mint c share user mode persist).Keeps (Keeps c) := by
  refine (issue_keeps share user mode).bind fun p => ?_
  split
  · exact (store_keeps p).bind fun _ => .pure
  · exact .pure

theorem delegate_keeps (p : Pack) (recipient : Identity) (restriction : Restriction) :
    (delegate c p recipient restriction).Keeps (Keeps c) := by
  intro st keeps
  refine (heldKeypair_ends keeps p.receiver).bind fun k st ⟨_, keeps⟩ => ?_
  exact Work.Keeps.check st keeps

/-- The signature of a valid write capability's receiver proves any entry that the capability
covers. -/
theorem authorises_of_covering {p : Pack} (mode : p.mode = .write) (valid : p.isValid) {e : Entry}
    (covers : (covering e).selects p) {k : IdentityKeypair} (receiver : k.id = p.receiver) :
    Token.authorises ⟨p.capability, k.sign e.encode⟩ e := by
  obtain ⟨writes, checked⟩ := Pack.capability_of_isValid valid
  obtain ⟨share, inside⟩ := selects_covering.mp covers
  refine Token.authorises_iff.mpr ⟨writes.trans mode, share, inside, checked, ?_⟩
  have own : p.capability.receiver = k.id := receiver.symm
  rw [own]
  exact k.verify_sign _

theorem authorise_proves (keeps : Keeps c st) (e : Entry) :
    (authorise c e).Ends st (fun o u => (∀ t ∈ o, t.authorises e) ∧ Keeps c u)
      fun _ u => Keeps c u := by
  refine Ends.reporting (Vault.find_ends _ keeps fun plaintext u fit keeps => ?_)
  obtain ⟨p, rfl, mode, valid⟩ := fit rfl
  split
  · exact Ends.pure ⟨by rintro t ⟨⟩, keeps⟩
  · next pack selected =>
    obtain ⟨read, covers⟩ := Option.filter_eq_some_iff.mp selected
    have same : pack = p := Pack.eq_of_decode_encode (Pack.decode_of_toOption read)
    subst same
    refine (keypair?_ends keeps pack.receiver).bind fun o u ⟨receiver, keeps⟩ => Ends.pure ⟨?_, keeps⟩
    intro t made
    obtain ⟨k, held, rfl⟩ := Option.map_eq_some_iff.mp made
    exact authorises_of_covering mode valid covers (receiver k held)

end Credentials

end DocumentShare
