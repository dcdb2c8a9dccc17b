import DocumentShare.Credentials.Basic
import DocumentShare.Proofs.Authority.Handover
import DocumentShare.Proofs.Crypto.Transparent
import DocumentShare.Proofs.Vault.Keeping
import Mathlib.Control.Monad.Basic

/-!
# Minted packs

A pack that credentials mint is over everything that its user can be granted in a share, and it is
valid. Whatever comes of it by handing on stays valid and keeps to what it was minted for
(`descends_of_minted`).
-/

namespace DocumentShare

open Work

section

variable [Crypto]

/-! ### Fresh packs -/

/-- A pack of a valid capability and a subspace capability that goes with it. -/
theorem Pack.isValid_of_ofCapability {c : Capability} {s : Option SubspaceCapability} {p : Pack}
    (made : Pack.ofCapability c s = .ok p) (checked : c.isValid)
    (companion : ∀ t ∈ s, t.share = c.share ∧ t.receiver = c.receiver ∧ t.isValid) :
    p.isValid ∧ p.mode = c.mode ∧ p.capability = c := by
  unfold ofCapability at made
  cases mode : c.mode with
  | write =>
    rw [mode] at made
    dsimp only at made
    split at made
    · cases made
    · cases made
      exact ⟨by simp [isValid, mode, checked], rfl, rfl⟩
  | read =>
    rw [mode] at made
    dsimp only at made
    split at made
    · cases made
    · next complete =>
      cases made
      refine ⟨?_, rfl, rfl⟩
      cases s with
      | none =>
        have spare : needsSubspace c c.area = false := by simpa using complete
        simp [isValid, mode, checked, spare]
      | some t =>
        obtain ⟨share, receiver, valid⟩ := companion t rfl
        simp [isValid, mode, checked, share, receiver, valid]

/-- A valid pack that has not been handed on. -/
theorem Pack.descends_of_unstepped {p : Pack} (valid : p.isValid)
    (unstepped : p.capability.chain = .empty) :
    p.Descends p.share p.capability.user p.mode [] where
  valid := valid
  ofShare := rfl
  inMode := rfl
  firstUser := rfl
  steps := by
    rw [unstepped]
    rfl
  lastUser := by
    rw [Pack.receiver, Capability.receiver, unstepped]
    rfl
  companion := subspace_of_isValid valid

theorem Pack.descends_of_ofCapability {c : Capability} {s : Option SubspaceCapability} {p : Pack}
    (made : Pack.ofCapability c s = .ok p) (checked : c.isValid)
    (companion : ∀ t ∈ s, t.share = c.share ∧ t.receiver = c.receiver ∧ t.isValid)
    (unstepped : c.chain = .empty) : p.Descends c.share c.user c.mode [] := by
  obtain ⟨valid, mode, rfl⟩ := isValid_of_ofCapability made checked companion
  rw [← mode]
  exact descends_of_unstepped valid unstepped

theorem Capability.ofCommunal_eq_ok {share : Share} {user : Identity} {mode : AccessMode}
    {c : Capability} (made : Capability.ofCommunal share user mode = .ok c) :
    c.isValid ∧ c.share = share ∧ c.user = user ∧ c.mode = mode ∧ c.chain = .empty := by
  unfold ofCommunal at made
  split at made
  · next communal =>
    cases made
    exact ⟨by simp [isValid, rootValid, communal, stepsValid, Chain.empty], rfl, rfl, rfl, rfl⟩
  · cases made

variable [Crypto.Lawful]

theorem Capability.ofOwned_eq_ok {k : ShareKeypair} {user : Identity} {mode : AccessMode}
    {c : Capability} (made : Capability.ofOwned k user mode = .ok c) :
    c.isValid ∧ c.share = k.id ∧ c.user = user ∧ c.mode = mode ∧ c.chain = .empty := by
  unfold ofOwned at made
  split at made
  · cases made
  · next owned =>
    cases made
    refine ⟨?_, rfl, rfl, rfl, rfl⟩
    simp [isValid, rootValid, owned, stepsValid, Chain.empty, k.verify_sign]

theorem SubspaceCapability.ofOwned_eq_ok {k : ShareKeypair} {user : Identity}
    {s : SubspaceCapability} (made : SubspaceCapability.ofOwned k user = .ok s) :
    s.isValid ∧ s.share = k.id ∧ s.receiver = user := by
  unfold ofOwned at made
  split at made
  · cases made
  · next owned =>
    cases made
    refine ⟨?_, rfl, rfl⟩
    simp [isValid, owned, stepsValid, Chain.empty, k.verify_sign]

theorem Pack.descends_of_ofOwned {k : ShareKeypair} {user : Identity} {mode : AccessMode}
    {s : Option SubspaceCapability} {p : Pack}
    (made : (Capability.ofOwned k user mode >>= (Pack.ofCapability · s)) = .ok p)
    (companion : ∀ t ∈ s, t.isValid ∧ t.share = k.id ∧ t.receiver = user) :
    p.Descends k.id user mode [] := by
  obtain ⟨c, granted, made⟩ := Except.bind_eq_ok.mp made
  obtain ⟨checked, share, first, ofMode, unstepped⟩ := Capability.ofOwned_eq_ok granted
  have receiver : c.receiver = user := by
    rw [Capability.receiver, unstepped, ← first]
    rfl
  rw [← share, ← first, ← ofMode]
  refine descends_of_ofCapability made checked (fun t member => ?_) unstepped
  obtain ⟨valid, ofShare, held⟩ := companion t member
  exact ⟨ofShare.trans share.symm, held.trans receiver.symm, valid⟩

theorem Credentials.descends_of_mintOwned {k : ShareKeypair} {user : Identity} {mode : AccessMode}
    {p : Pack} (made : mintOwned k user mode = .ok p) : p.Descends k.id user mode [] := by
  cases mode with
  | write => exact Pack.descends_of_ofOwned made (by rintro t ⟨⟩)
  | read =>
    obtain ⟨s, subspace, made⟩ := Except.bind_eq_ok.mp made
    refine Pack.descends_of_ofOwned made fun t member => ?_
    cases member
    cases granted : SubspaceCapability.ofOwned k user with
    | error e => simp [granted, Except.map] at subspace
    | ok t' =>
      simp only [granted, Except.map, Except.ok.injEq, Option.some.injEq] at subspace
      exact subspace ▸ SubspaceCapability.ofOwned_eq_ok granted

/-! ### Minting -/

namespace Credentials

variable {c : Vault.Config} {st : Vault.State} {share : Share} {user : Identity} {mode : AccessMode}

omit [Crypto.Lawful] in
theorem keypair?_id {r : Role} (id : Identifier r) :
    (keypair? c id).Ends st (fun o _ => ∀ k ∈ o, k.id = id) fun _ _ => True := by
  refine Vault.find_visited _ fun plaintext u => Ends.pure fun k found => ?_
  split at found
  · split at found
    · next same =>
      cases found
      exact same
    · cases found
  · cases found

theorem issue_descends :
    (issue c share user mode).Ends st (fun p _ => p.Descends share user mode [])
      fun _ _ => True := by
  unfold issue
  split
  · have granting : (Work.check AuthError.validation (Capability.ofCommunal share user mode)).Ends st
        (fun capability _ => Capability.ofCommunal share user mode = .ok capability)
        fun _ _ => True := Ends.check (fun _ => id) fun _ _ => trivial
    refine granting.bind fun capability u granted => ?_
    obtain ⟨checked, rfl, rfl, rfl, unstepped⟩ := Capability.ofCommunal_eq_ok granted
    refine Ends.check (fun p made => ?_) fun _ _ => trivial
    exact Pack.descends_of_ofCapability made checked (by rintro t ⟨⟩) unstepped
  · refine Ends.bind (Ends.reporting (keypair?_id share)) fun o u found => ?_
    cases o with
    | none => exact Ends.throw trivial
    | some k =>
      refine Ends.check (fun p made => ?_) fun _ _ => trivial
      rw [← found k rfl]
      exact descends_of_mintOwned made

theorem mint_descends (persist : Bool) :
    (mint c share user mode persist).Ends st (fun p _ => p.Descends share user mode [])
      fun _ _ => True := by
  refine issue_descends.bind fun p u descends => ?_
  split
  · exact (Ends.any _ _).bind fun _ _ _ => Ends.pure descends
  · exact Ends.pure descends

end Credentials

/-- However a minted pack is handed on, what comes of it is valid and is for the share, mode and
user that it was minted for. -/
theorem descends_of_minted {c : Vault.Config} {st : Vault.State} {share : Share} {user : Identity}
    {mode : AccessMode} {persist : Bool} {p q : Pack} {log : List Handover}
    (minted : ((Credentials.mint c share user mode persist).runOn st).1 = .ok p)
    (handed : p.HandedOn log q) :
    q.Descends share user mode log ∧
    ∀ identity later q', q.area.subspace = .of identity → q.HandedOn later q' →
      q'.area.subspace = .of identity := by
  refine ⟨?_, fun identity later q' narrow handed => handed.subspace narrow⟩
  induction handed with
  | start =>
    rcases (Credentials.mint_descends persist).cases with ⟨p', answer, descends⟩ | ⟨e, failure, _⟩
    · rw [minted] at answer
      cases answer
      exact descends
    · rw [minted] at failure
      cases failure
  | step before h done ih => exact ih.step h done

end

section Deed

open Crypto.Transparent

attribute [local instance] Crypto.transparent Crypto.transparent_lawful

def ownerConfig : Vault.Config := ⟨"owner", "pass", 1⟩

/-- A vault in which the keypair of an owned share is kept. -/
def ownerVault : Vault.State :=
  ((Credentials.addKeypair ownerConfig (keypair .share 2)).runOn ⟨.empty, none, .scattered⟩).2

/-- What identity 1 is granted to read of the share. -/
def readPack : Pack :=
  .read
    ⟨.read, share 2, identity 1,
      .owned ((keypair .share 2).sign (Capability.rootMessage .read (identity 1))), .empty, by decide⟩
    (some ⟨share 2, identity 1,
      (keypair .share 2).sign (SubspaceCapability.rootMessage (identity 1)), .empty, by decide⟩)

def plainHandover : Handover := ⟨keypair .identity 1, identity 2, ⟨none, none, none⟩⟩

/-- One subspace below a path, in a time range that ends before it starts. -/
def invertedHandover : Handover :=
  ⟨keypair .identity 2, identity 3, ⟨some (.of (identity 4)), some (path 7), some ⟨9, some 3⟩⟩⟩

def handedPack : Pack :=
  let h := plainHandover
  ((readPack.delegate h.holder h.recipient h.restriction).toOption).getD readPack

def invertedPack : Pack :=
  let h := invertedHandover
  ((handedPack.delegate h.holder h.recipient h.restriction).toOption).getD handedPack

theorem descends_of_minted_twice_handed :
    (((Credentials.mint ownerConfig (share 2) (identity 1) .read false).runOn ownerVault).1
        = .ok readPack ∧ readPack.HandedOn [plainHandover] handedPack ∧
      handedPack.HandedOn [invertedHandover] invertedPack) ∧
    (handedPack.Descends (share 2) (identity 1) .read [plainHandover] ∧
      ∃ s, handedPack.subspace? = some s ∧ s.receiver = identity 2) ∧
    invertedPack.Descends (share 2) (identity 1) .read [invertedHandover, plainHandover] ∧
    invertedPack.area.subspace = .of (identity 4) := by
  have minted : ((Credentials.mint ownerConfig (share 2) (identity 1) .read false).runOn
      ownerVault).1 = .ok readPack := by decide +kernel
  have first : readPack.HandedOn [plainHandover] handedPack :=
    .step .start plainHandover (by decide +kernel)
  have next : handedPack.delegate invertedHandover.holder invertedHandover.recipient
      invertedHandover.restriction = .ok invertedPack := by decide +kernel
  obtain ⟨lentDescends, _⟩ := descends_of_minted minted first
  obtain ⟨narrowedDescends, stays⟩ := descends_of_minted minted (first.step invertedHandover next)
  obtain ⟨s, paired, _, receiver⟩ :=
    lentDescends.companion rfl (by decide) (by decide +kernel)
  exact ⟨⟨minted, first, .step .start invertedHandover next⟩,
    ⟨lentDescends, s, paired, receiver.trans lentDescends.lastUser⟩, narrowedDescends,
    stays _ [] invertedPack (by decide +kernel) .start⟩

end Deed

end DocumentShare
