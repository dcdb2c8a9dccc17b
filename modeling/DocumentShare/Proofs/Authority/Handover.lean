import DocumentShare.Authority.Pack
import DocumentShare.Proofs.Authority.Attenuation
import DocumentShare.Proofs.Bytes.Reading

/-!
# Handing packs on

A pack is handed on from each receiver to the next, narrowed on the way. Handing on and checking read
a chain separately: `Capability.isValid_withStep` and its counterpart for subspace capabilities say
that a step checks which the receiver signed and which stays within its area. `Pack.Descends` is what
every pack that comes of a full one keeps, however often it is handed on.
-/

namespace DocumentShare

theorem Keypair.verify_sign [Crypto] [Crypto.Lawful] {r : Role} (k : Keypair r) (message : Bytes) :
    k.id.verify message (k.sign message) := by
  rw [Identifier.verify, Keypair.sign, ← k.publicKey_secret]
  exact Crypto.Lawful.verify_sign k.secret message

/-! ### Capabilities -/

namespace Capability

/-- The capability with one more step. -/
def withStep (c : Capability) (d : Delegation Area) (room : c.chain.length < Chain.limit) :
    Capability :=
  { c with
    chain := c.chain.push d
    length_chain := by rw [Chain.length_push]; exact room }

variable {c c' : Capability} {d : Delegation Area}

@[simp] theorem area_withStep (room : c.chain.length < Chain.limit) :
    (c.withStep d room).area = d.grant := by
  simp [area, withStep, Chain.push, Chain.last?]

@[simp] theorem receiver_withStep (room : c.chain.length < Chain.limit) :
    (c.withStep d room).receiver = d.user := by
  simp [receiver, withStep, Chain.push, Chain.receiver, Chain.last?]

variable [Crypto]

/-- Handing a capability on adds a step that its receiver signed within its area. -/
theorem delegate_eq_ok {holder : IdentityKeypair} {recipient : Identity} {r : Restriction}
    (done : c.delegate holder recipient r = .ok c') :
    holder.id = c.receiver ∧ ∃ grant room, c.area.restrict r = .ok grant ∧
      c' = c.withStep
        ⟨grant, recipient, holder.sign (handoverMessage c.previous grant recipient)⟩ room := by
  unfold delegate at done
  split at done
  · cases done
  · next own =>
    obtain ⟨⟨room⟩, _, done⟩ := Except.bind_eq_ok.mp done
    obtain ⟨grant, restricted, done⟩ := Except.bind_eq_ok.mp done
    cases done
    exact ⟨Decidable.not_not.mp own, grant, room, restricted, rfl⟩

/-- Steps and one more check if the steps do and their receiver signed the last within its area. -/
theorem stepsValid_append {area : Area} {holder : Identity} {previous : Bytes}
    {steps : List (Delegation Area)} :
    stepsValid area holder previous (steps ++ [d]) ↔
      stepsValid area holder previous steps ∧
      ((steps.getLast?.map (·.grant)).getD area).includesArea d.grant ∧
      ((steps.getLast?.map (·.user)).getD holder).verify
        (handoverMessage ((steps.getLast?.map (·.signature.bytes)).getD previous) d.grant d.user)
        d.signature := by
  induction steps generalizing area holder previous with
  | nil => simp [stepsValid]
  | cons e rest ih =>
    simp only [List.cons_append, stepsValid, Bool.and_eq_true, ih, and_assoc,
      Chain.getD_getLast?_cons]

theorem isValid_withStep (room : c.chain.length < Chain.limit) :
    (c.withStep d room).isValid ↔ c.isValid ∧ c.area.includesArea d.grant ∧
      c.receiver.verify (handoverMessage c.previous d.grant d.user) d.signature := by
  have root : (c.withStep d room).rootValid = c.rootValid := rfl
  have steps : stepsValid (c.withStep d room).rootArea (c.withStep d room).user
      (c.withStep d room).rootHandover (c.withStep d room).chain.steps
        = stepsValid c.rootArea c.user c.rootHandover (c.chain.steps ++ [d]) := rfl
  rw [isValid_iff, isValid_iff, root, steps, stepsValid_append, and_assoc]
  rfl

theorem isValid_delegate [Crypto.Lawful] {holder : IdentityKeypair} {recipient : Identity}
    {r : Restriction} (valid : c.isValid) (done : c.delegate holder recipient r = .ok c') :
    c'.isValid := by
  obtain ⟨own, grant, room, restricted, rfl⟩ := delegate_eq_ok done
  refine (isValid_withStep room).mpr ⟨valid, (Area.restrict_eq_ok.mp restricted).1, ?_⟩
  rw [← own]
  exact holder.verify_sign _

end Capability

/-! ### Subspace capabilities -/

namespace SubspaceCapability

/-- The subspace capability with one more step. -/
def withStep (c : SubspaceCapability) (d : Delegation Unit) (room : c.chain.length < Chain.limit) :
    SubspaceCapability :=
  { c with
    chain := c.chain.push d
    length_chain := by rw [Chain.length_push]; exact room }

variable {c c' : SubspaceCapability} {d : Delegation Unit}

@[simp] theorem receiver_withStep (room : c.chain.length < Chain.limit) :
    (c.withStep d room).receiver = d.user := by
  simp [receiver, withStep, Chain.push, Chain.receiver, Chain.last?]

variable [Crypto]

theorem delegate_eq_ok {holder : IdentityKeypair} {recipient : Identity}
    (done : c.delegate holder recipient = .ok c') :
    holder.id = c.receiver ∧ ∃ room, c' = c.withStep
      ⟨(), recipient, holder.sign (handoverMessage c.previous recipient)⟩ room := by
  unfold delegate at done
  split at done
  · cases done
  · next own =>
    obtain ⟨⟨room⟩, _, done⟩ := Except.bind_eq_ok.mp done
    cases done
    exact ⟨Decidable.not_not.mp own, room, rfl⟩

theorem stepsValid_append {holder : Identity} {previous : Signature} {steps : List (Delegation Unit)} :
    stepsValid holder previous (steps ++ [d]) ↔
      stepsValid holder previous steps ∧
      ((steps.getLast?.map (·.user)).getD holder).verify
        (handoverMessage ((steps.getLast?.map (·.signature)).getD previous) d.user) d.signature := by
  induction steps generalizing holder previous with
  | nil => simp [stepsValid]
  | cons e rest ih =>
    simp only [List.cons_append, stepsValid, Bool.and_eq_true, ih, and_assoc,
      Chain.getD_getLast?_cons]

theorem isValid_withStep (room : c.chain.length < Chain.limit) :
    (c.withStep d room).isValid ↔ c.isValid ∧
      c.receiver.verify (handoverMessage c.previous d.user) d.signature := by
  have steps : stepsValid (c.withStep d room).user (c.withStep d room).signature
      (c.withStep d room).chain.steps = stepsValid c.user c.signature (c.chain.steps ++ [d]) := rfl
  have root : (c.withStep d room).share.verify (rootMessage (c.withStep d room).user)
      (c.withStep d room).signature = c.share.verify (rootMessage c.user) c.signature := rfl
  have share : (c.withStep d room).share = c.share := rfl
  rw [isValid, isValid, steps, root, share, Bool.and_eq_true, Bool.and_eq_true (_ && _) (stepsValid _ _ _),
    stepsValid_append, and_assoc]
  rfl

theorem isValid_delegate [Crypto.Lawful] {holder : IdentityKeypair} {recipient : Identity}
    (valid : c.isValid) (done : c.delegate holder recipient = .ok c') : c'.isValid := by
  obtain ⟨own, room, rfl⟩ := delegate_eq_ok done
  refine (isValid_withStep room).mpr ⟨valid, ?_⟩
  rw [← own]
  exact holder.verify_sign _

end SubspaceCapability

/-! ### Packs -/

/-- One handing on of a pack. -/
structure Handover [Crypto] where
  holder : IdentityKeypair
  recipient : Identity
  restriction : Restriction

namespace Pack

variable [Crypto] {p q : Pack} {log : List Handover} {holder : IdentityKeypair}
  {recipient : Identity} {r : Restriction}

/-- The subspace capability is handed on if the area needs one and dropped if not. -/
theorem delegateSubspace_eq_ok {c : Capability} {s s' : Option SubspaceCapability} {a : Area}
    (done : delegateSubspace c s a holder recipient = .ok s') :
    (∃ t t', s = some t ∧ t.delegate holder recipient = .ok t' ∧ s' = some t') ∨
      (needsSubspace c a = false ∧ s' = none) := by
  unfold delegateSubspace at done
  split at done
  · cases s with
    | none => cases done
    | some t =>
      cases handed : t.delegate holder recipient with
      | error e => simp [handed, Except.map] at done
      | ok t' =>
        simp only [handed, Except.map, Except.ok.injEq] at done
        exact .inl ⟨t, t', rfl, handed, done.symm⟩
  · next spare =>
    cases done
    exact .inr ⟨by simpa using spare, rfl⟩

theorem write_delegate_eq_ok {c : Capability}
    (done : (write c).delegate holder recipient r = .ok q) :
    ∃ c', c.delegate holder recipient r = .ok c' ∧ q = write c' := by
  cases handed : c.delegate holder recipient r with
  | error e => simp [delegate, handed, Except.map] at done
  | ok c' =>
    simp only [delegate, handed, Except.map, Except.ok.injEq] at done
    exact ⟨c', rfl, done.symm⟩

theorem read_delegate_eq_ok {c : Capability} {s : Option SubspaceCapability}
    (done : (read c s).delegate holder recipient r = .ok q) :
    ∃ grant s' c', c.area.restrict r = .ok grant ∧
      delegateSubspace c s grant holder recipient = .ok s' ∧
      c.delegate holder recipient r = .ok c' ∧ q = read c' s' := by
  obtain ⟨grant, restricted, done⟩ := Except.bind_eq_ok.mp done
  obtain ⟨s', paired, done⟩ := Except.bind_eq_ok.mp done
  obtain ⟨c', handed, done⟩ := Except.bind_eq_ok.mp done
  cases done
  exact ⟨grant, s', c', restricted, paired, handed, rfl⟩

theorem delegate_eq_ok (done : p.delegate holder recipient r = .ok q) :
    q.mode = p.mode ∧ p.capability.delegate holder recipient r = .ok q.capability := by
  cases p with
  | write c =>
    obtain ⟨c', handed, rfl⟩ := write_delegate_eq_ok done
    exact ⟨rfl, handed⟩
  | read c s =>
    obtain ⟨_, s', c', _, _, handed, rfl⟩ := read_delegate_eq_ok done
    exact ⟨rfl, handed⟩

theorem isValid_delegate [Crypto.Lawful] (valid : p.isValid)
    (done : p.delegate holder recipient r = .ok q) : q.isValid := by
  cases p with
  | write c =>
    obtain ⟨c', handed, rfl⟩ := write_delegate_eq_ok done
    simp only [isValid, Bool.and_eq_true, decide_eq_true_eq] at valid ⊢
    obtain ⟨mode, checked⟩ := valid
    refine ⟨?_, Capability.isValid_delegate checked handed⟩
    obtain ⟨_, _, _, _, rfl⟩ := Capability.delegate_eq_ok handed
    exact mode
  | read c s =>
    obtain ⟨grant, s', c', restricted, paired, handed, rfl⟩ := read_delegate_eq_ok done
    simp only [isValid, Bool.and_eq_true, decide_eq_true_eq] at valid ⊢
    obtain ⟨⟨mode, checked⟩, companion⟩ := valid
    have checked' := Capability.isValid_delegate checked handed
    obtain ⟨_, grant', room, restricted', rfl⟩ := Capability.delegate_eq_ok handed
    cases restricted.symm.trans restricted'
    refine ⟨⟨mode, checked'⟩, ?_⟩
    rcases delegateSubspace_eq_ok paired with ⟨t, t', rfl, passed, rfl⟩ | ⟨spare, rfl⟩
    · simp only [Bool.and_eq_true, decide_eq_true_eq] at companion ⊢
      have passed' := SubspaceCapability.isValid_delegate companion.2 passed
      obtain ⟨_, subspaceRoom, rfl⟩ := SubspaceCapability.delegate_eq_ok passed
      refine ⟨⟨companion.1.1, ?_⟩, passed'⟩
      rw [SubspaceCapability.receiver_withStep, Capability.receiver_withStep]
    · show (!needsSubspace c (c.withStep _ room).area) = true
      rw [Capability.area_withStep, spare]
      rfl

theorem capability_of_isValid (valid : p.isValid) :
    p.capability.mode = p.mode ∧ p.capability.isValid := by
  cases p with
  | write c =>
    simp only [isValid, Bool.and_eq_true, decide_eq_true_eq] at valid
    exact valid
  | read c s =>
    simp only [isValid, Bool.and_eq_true, decide_eq_true_eq] at valid
    exact valid.1

/-- A valid pack to read every subspace of an owned share has a subspace capability. -/
theorem subspace_of_isValid (valid : p.isValid) (reads : p.mode = .read)
    (owned : ¬p.share.isCommunal) (everything : p.area.subspace = .any) :
    ∃ s, p.subspace? = some s ∧ s.share = p.share ∧ s.receiver = p.receiver := by
  cases p with
  | write c => cases reads
  | read c s =>
    simp only [isValid, Bool.and_eq_true, decide_eq_true_eq] at valid
    obtain ⟨⟨mode, checked⟩, companion⟩ := valid
    cases s with
    | some s =>
      simp only [Bool.and_eq_true, decide_eq_true_eq] at companion
      exact ⟨s, rfl, companion.1.1, companion.1.2⟩
    | none =>
      have ownedRoot : c.isCommunal = false := by
        obtain ⟨kind, -⟩ := Capability.isValid_iff.mp checked
        cases root : c.root with
        | communal =>
          rw [Capability.rootValid, root] at kind
          exact absurd kind owned
        | owned signature => simp [Capability.isCommunal, root]
      have subspace : c.area.subspace = .any := everything
      simp [needsSubspace, mode, ownedRoot, subspace] at companion

/-! ### Packs that were handed on -/

/-- From a pack to one that comes of it by handing on, the last handover first. -/
inductive HandedOn (p : Pack) : List Handover → Pack → Prop
  | start : HandedOn p [] p
  | step {log : List Handover} {q q' : Pack} (before : HandedOn p log q) (h : Handover)
      (done : q.delegate h.holder h.recipient h.restriction = .ok q') : HandedOn p (h :: log) q'

/-- What every pack keeps that comes of one over all that `user` can be granted in a share. -/
structure Descends (q : Pack) (share : Share) (user : Identity) (mode : AccessMode)
    (log : List Handover) : Prop where
  valid : q.isValid
  ofShare : q.share = share
  inMode : q.mode = mode
  firstUser : q.capability.user = user
  steps : q.capability.chain.length = log.length
  lastUser : q.receiver = (log.head?.map Handover.recipient).getD user
  /-- A pack to read every subspace of an owned share comes with a subspace capability. -/
  companion : mode = .read → ¬share.isCommunal → q.area.subspace = .any →
    ∃ s, q.subspace? = some s ∧ s.share = share ∧ s.receiver = q.receiver

theorem Descends.step [Crypto.Lawful] {share : Share} {user : Identity} {mode : AccessMode}
    (descends : p.Descends share user mode log) (h : Handover)
    (done : p.delegate h.holder h.recipient h.restriction = .ok q) :
    q.Descends share user mode (h :: log) := by
  have valid := isValid_delegate descends.valid done
  obtain ⟨sameMode, handed⟩ := delegate_eq_ok done
  obtain ⟨_, grant, room, _, next⟩ := Capability.delegate_eq_ok handed
  have ofShare : q.share = share := by
    rw [← descends.ofShare, Pack.share, next]
    rfl
  have inMode : q.mode = mode := sameMode.trans descends.inMode
  refine ⟨valid, ofShare, inMode, ?_, ?_, ?_, fun reads owned everything => ?_⟩
  · rw [← descends.firstUser, next]
    rfl
  · rw [next, List.length_cons, ← descends.steps]
    exact Chain.length_push _ _
  · rw [Pack.receiver, next, Capability.receiver_withStep]
    rfl
  · rw [← ofShare] at owned ⊢
    exact subspace_of_isValid valid (inMode.trans reads) owned everything

theorem HandedOn.subspace {identity : Identity} (handed : p.HandedOn log q)
    (narrow : p.area.subspace = .of identity) : q.area.subspace = .of identity := by
  induction handed with
  | start => exact narrow
  | @step log q q' before h done ih =>
    obtain ⟨_, handed⟩ := delegate_eq_ok done
    obtain ⟨_, grant, room, restricted, next⟩ := Capability.delegate_eq_ok handed
    have within : q.area.subspace.includesSubspace grant.subspace :=
      (Area.includesArea_iff.mp (Area.restrict_eq_ok.mp restricted).1).1
    rw [ih] at within
    have narrowed : q'.area = grant := by rw [Pack.area, next, Capability.area_withStep]
    rw [narrowed]
    cases granted : grant.subspace with
    | any => simp [granted, Subspace.includesSubspace] at within
    | of other =>
      have same : identity = other := by simpa [granted, Subspace.includesSubspace] using within
      rw [same]

end Pack

end DocumentShare
