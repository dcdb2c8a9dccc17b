import DocumentShare.Proofs.Authority.Encoding
import DocumentShare.Proofs.Credentials.Minting

/-!
# Packs that are read back

Nothing on the way from minting to handing on keeps a time range from ending before it starts, and the
reader of packs refuses such a range. So a pack is read back from its encoding if and only if no
restriction on its way gave one (`reads_back_iff_of_handedOn`).
-/

namespace DocumentShare

/-! ### Uprightness along a chain -/

namespace Capability

variable {c c' : Capability} {d : Delegation Area}

/-- The receiver of an upright capability has an upright range: it is the last that was granted, or
all of time. -/
theorem Upright.area (upright : c.Upright) : c.area.times.Upright := by
  unfold Capability.area Chain.last?
  cases last : c.chain.steps.getLast? with
  | some d => exact upright d (List.mem_of_getLast? last)
  | none =>
    intro stop ends
    simp only [Option.map_none, Option.getD_none, rootArea] at ends
    split at ends
    · cases ends
    · cases ends

theorem upright_withStep (room : c.chain.length < Chain.limit) :
    (c.withStep d room).Upright ↔ c.Upright ∧ d.grant.times.Upright := by
  unfold Upright withStep Chain.push
  constructor
  · intro all
    constructor
    · intro e member
      exact all e (List.mem_append_left _ member)
    · exact all d (List.mem_append_right _ List.mem_cons_self)
  · intro ⟨before, last⟩ e member
    obtain member | member := List.mem_append.mp member
    · exact before e member
    · rw [List.mem_singleton.mp member]
      exact last

variable [Crypto]

/-- A step is upright unless its restriction gives a range that is not. -/
theorem upright_delegate {holder : IdentityKeypair} {recipient : Identity} {r : Restriction}
    (done : c.delegate holder recipient r = .ok c') :
    c'.Upright ↔ c.Upright ∧ ∀ times ∈ r.times, times.Upright := by
  obtain ⟨_, grant, room, restricted, rfl⟩ := delegate_eq_ok done
  rw [upright_withStep]
  apply and_congr_right
  intro upright
  have granted : grant.times = r.times.getD c.area.times :=
    congrArg Area.times (Area.restrict_eq_ok.mp restricted).2
  cases given : r.times with
  | none =>
    rw [given, Option.getD_none] at granted
    simp [granted, upright.area]
  | some times =>
    rw [given, Option.getD_some] at granted
    simp [granted]

end Capability

/-! ### Capabilities that a share granted -/

section

variable [Crypto]

/-- The restriction gives no time range that ends before it starts. -/
def Handover.Upright (h : Handover) : Prop := ∀ times ∈ h.restriction.times, times.Upright

namespace Capability

/-- A capability that a share granted and that was handed on, the last handover first. -/
inductive Issued : List Handover → Capability → Prop
  | communal {share : Share} {user : Identity} {mode : AccessMode} {c : Capability}
      (granted : ofCommunal share user mode = .ok c) : Issued [] c
  | owned {k : ShareKeypair} {user : Identity} {mode : AccessMode} {c : Capability}
      (granted : ofOwned k user mode = .ok c) : Issued [] c
  | step {log : List Handover} {c c' : Capability} (before : Issued log c) (h : Handover)
      (done : c.delegate h.holder h.recipient h.restriction = .ok c') : Issued (h :: log) c'

theorem Issued.upright_iff {log : List Handover} {c : Capability} (issued : c.Issued log) :
    c.Upright ↔ ∀ h ∈ log, h.Upright := by
  induction issued with
  | communal granted =>
    unfold ofCommunal at granted
    split at granted
    · cases granted
      simp [Upright, Chain.empty]
    · cases granted
  | owned granted =>
    unfold ofOwned at granted
    split at granted
    · cases granted
    · cases granted
      simp [Upright, Chain.empty]
  | step before h done ih =>
    rw [upright_delegate done, ih, List.forall_mem_cons, and_comm]
    rfl

end Capability

namespace Pack

variable {c : Capability} {s : Option SubspaceCapability} {p q : Pack} {log log' : List Handover}

omit [Crypto] in
theorem capability_of_ofCapability (made : ofCapability c s = .ok p) : p.capability = c := by
  unfold ofCapability at made
  split at made
  · split at made
    · cases made
    · cases made
      rfl
  · split at made
    · cases made
    · cases made
      rfl

theorem HandedOn.issued (handed : p.HandedOn log' q) (issued : p.capability.Issued log) :
    q.capability.Issued (log' ++ log) := by
  induction handed with
  | start => exact issued
  | step before h done ih => exact ih.step h (delegate_eq_ok done).2

end Pack

/-- A pack that was handed on is read back iff no restriction on the way gave a time range that ends
before it starts. -/
theorem reads_back_iff_of_handedOn {c : Capability} {s : Option SubspaceCapability} {p q : Pack}
    {log log' : List Handover} (issued : c.Issued log) (made : Pack.ofCapability c s = .ok p)
    (handed : p.HandedOn log' q) :
    (Pack.decode q.encode = .ok q ↔ ∀ h ∈ log' ++ log, h.Upright) ∧
    ((∃ h ∈ log' ++ log, ¬h.Upright) → ∃ e, Pack.decode q.encode = .error e) := by
  have begun : p.capability.Issued log := by
    rw [Pack.capability_of_ofCapability made]
    exact issued
  have upright := (handed.issued begun).upright_iff
  obtain ⟨reads, refuses⟩ := (Pack.reads_decoder q).runAll
  constructor
  · rw [← upright]
    exact ⟨Pack.upright_of_decode, reads⟩
  · intro ⟨h, member, inverted⟩
    apply refuses
    intro all
    exact inverted (upright.mp all h member)

end

section Deed

open Crypto.Transparent

attribute [local instance] Crypto.transparent

theorem readPack_issued : readPack.capability.Issued [] := by
  have granted :
      Capability.ofOwned (keypair .share 2) (identity 1) .read = .ok readPack.capability := by
    decide +kernel
  exact .owned granted

theorem invertedPack_handedOn : readPack.HandedOn [invertedHandover, plainHandover] invertedPack := by
  have first : readPack.HandedOn [plainHandover] handedPack :=
    .step .start plainHandover (by decide +kernel)
  exact first.step invertedHandover (by decide +kernel)

theorem reads_back_iff_of_handedOn_plain :
    (readPack.capability.Issued [] ∧
      Pack.ofCapability readPack.capability readPack.subspace? = .ok readPack ∧
      readPack.HandedOn [plainHandover] handedPack) ∧
    Pack.decode handedPack.encode = .ok handedPack := by
  have made : Pack.ofCapability readPack.capability readPack.subspace? = .ok readPack := by
    decide +kernel
  have handed : readPack.HandedOn [plainHandover] handedPack :=
    .step .start plainHandover (by decide +kernel)
  obtain ⟨reads, _⟩ := reads_back_iff_of_handedOn readPack_issued made handed
  refine ⟨⟨readPack_issued, made, handed⟩, reads.mpr ?_⟩
  intro h member times given
  obtain rfl := List.mem_singleton.mp member
  cases given

def receiverConfig : Vault.Config := ⟨"receiver", "pass", 1⟩

/-- A vault in which the keypair of the receiver is kept, and then the inverted pack is stored. -/
def receiverVault : Except AuthError Unit × Vault.State :=
  (do
    Credentials.addKeypair receiverConfig (keypair .identity 3)
    Credentials.store receiverConfig invertedPack : CredentialWork Unit).runOn
      ⟨.empty, none, .scattered⟩

/-- A restriction to a time range that ends before it starts makes a valid pack. A vault accepts it
and does not list it. -/
theorem invertedPack_not_read_back :
    (readPack.capability.Issued [] ∧
      Pack.ofCapability readPack.capability readPack.subspace? = .ok readPack ∧
      readPack.HandedOn [invertedHandover, plainHandover] invertedPack) ∧
    invertedPack.isValid ∧
    Pack.decode invertedPack.encode = .error (.invertedTimes 9 3) ∧
    receiverVault.1 = .ok () ∧
    ((Credentials.capabilities receiverConfig ⟨none, none, none⟩).runOn receiverVault.2).1
      = .ok [] := by
  have made : Pack.ofCapability readPack.capability readPack.subspace? = .ok readPack := by
    decide +kernel
  have valid : invertedPack.isValid := by decide +kernel
  have refused : Pack.decode invertedPack.encode = .error (.invertedTimes 9 3) := by decide +kernel
  have accepted : receiverVault.1 = .ok () := by decide +kernel
  have skipped : ((Credentials.capabilities receiverConfig ⟨none, none, none⟩).runOn
      receiverVault.2).1 = .ok [] := by decide +kernel
  exact ⟨⟨readPack_issued, made, invertedPack_handedOn⟩, valid, refused, accepted, skipped⟩

end Deed

end DocumentShare
