import DocumentShare.Authority.Token
import DocumentShare.Proofs.Authority.Containment

/-!
# Attenuation

Each step of a chain is checked to lie within the area of the step before it. `stepsValid_includes`
carries what this says of positions along a chain of any length. `valid_attenuates` is what a valid
capability can be relied on for: a position in its area was in every area that it passed through.
-/

namespace DocumentShare

/-! ### Chains -/

/-- What the last step says, or what holds before any step, looked for past the first step. -/
theorem Chain.getD_getLast?_cons {Grant α : Type} (f : Delegation Grant → α) (d : Delegation Grant)
    (rest : List (Delegation Grant)) (a : α) :
    ((d :: rest).getLast?.map f).getD a = (rest.getLast?.map f).getD (f d) := by
  rw [List.getLast?_cons]
  cases rest.getLast? <;> rfl

namespace Capability

/-- Every area that a capability passed through, the area of its root first. -/
def areas (c : Capability) : List Area := c.rootArea :: c.chain.steps.map (·.grant)

/-- The capability as it was after its first `n` steps. -/
def afterSteps (c : Capability) (n : Nat) : Capability :=
  { c with
    chain := ⟨c.chain.steps.take n⟩
    length_chain := Nat.le_trans (List.length_take_le' n c.chain.steps) c.length_chain }

variable [Crypto]

theorem isValid_iff {c : Capability} : c.isValid ↔
    c.rootValid ∧ stepsValid c.rootArea c.user c.rootHandover c.chain.steps :=
  Bool.and_eq_true_iff

/-- What the last of some steps includes is included by every step and by the area before them. -/
theorem stepsValid_includes {area : Area} {holder : Identity} {previous : Bytes}
    {steps : List (Delegation Area)} {identity : Identity} {path : Path} {timestamp : UInt64}
    (valid : stepsValid area holder previous steps)
    (inside : ((steps.getLast?.map (·.grant)).getD area).includes identity path timestamp) :
    ∀ a ∈ area :: steps.map (·.grant), a.includes identity path timestamp := by
  induction steps generalizing area holder previous with
  | nil =>
    intro a member
    rw [List.map_nil, List.mem_singleton] at member
    rw [member]
    exact inside
  | cons d rest ih =>
    simp only [stepsValid, Bool.and_eq_true] at valid
    obtain ⟨⟨within, _⟩, restValid⟩ := valid
    rw [Chain.getD_getLast?_cons] at inside
    have below := ih restValid inside
    intro a member
    rcases List.mem_cons.mp member with rfl | member
    · exact Area.includes_of_includesArea within (below d.grant List.mem_cons_self)
    · exact below a member

/-- Steps are checked one after the other, so the first of them check on their own. -/
theorem stepsValid_take {area : Area} {holder : Identity} {previous : Bytes}
    {steps : List (Delegation Area)} (valid : stepsValid area holder previous steps) (n : Nat) :
    stepsValid area holder previous (steps.take n) := by
  induction steps generalizing area holder previous n with
  | nil =>
    rw [List.take_nil]
    exact valid
  | cons d rest ih =>
    cases n with
    | zero => rfl
    | succ n =>
      rw [List.take_succ_cons]
      simp only [stepsValid, Bool.and_eq_true] at valid ⊢
      exact ⟨valid.1, ih valid.2 n⟩

theorem area_includes_areas {c : Capability} (valid : c.isValid) {identity : Identity}
    {path : Path} {timestamp : UInt64} (inside : c.area.includes identity path timestamp) :
    ∀ a ∈ c.areas, a.includes identity path timestamp := by
  exact stepsValid_includes (isValid_iff.mp valid).2 inside

/-- A valid root is communal exactly if its share is. -/
theorem root_of_isCommunal {c : Capability} (valid : c.isValid) (communal : c.share.isCommunal) :
    c.root = .communal := by
  obtain ⟨kind, -⟩ := isValid_iff.mp valid
  cases root : c.root with
  | communal => rfl
  | owned signature => simp [rootValid, root, communal] at kind

/-- In a communal share a capability never leaves the part of its first user. -/
theorem area_includes_user {c : Capability} (valid : c.isValid) (communal : c.share.isCommunal)
    {identity : Identity} {path : Path} {timestamp : UInt64}
    (inside : c.area.includes identity path timestamp) : identity = c.user := by
  have ofRoot := area_includes_areas valid inside c.rootArea List.mem_cons_self
  rw [rootArea, root_of_isCommunal valid communal] at ofRoot
  exact (Subspace.includes_of.mp (Area.includes_iff.mp ofRoot).1).symm

theorem isValid_afterSteps {c : Capability} (valid : c.isValid) (n : Nat) :
    (c.afterSteps n).isValid := by
  obtain ⟨root, steps⟩ := isValid_iff.mp valid
  exact isValid_iff.mpr ⟨root, stepsValid_take steps n⟩

end Capability

/-! ### Tokens -/

theorem Token.authorises_iff [Crypto] {t : Token} {e : Entry} :
    t.authorises e ↔ t.capability.mode = .write ∧ t.capability.share = e.share ∧
      e.isIn t.capability.area ∧ t.capability.isValid ∧
      t.capability.receiver.verify e.encode t.signature := by
  simp [Token.authorises, and_assoc]

/-- A valid capability narrows at every step and stays valid without its last steps, so what a token
proves is within every area of its chain. -/
theorem valid_attenuates [Crypto] :
    (∀ c : Capability, c.isValid →
      (∀ identity path timestamp, c.area.includes identity path timestamp →
        (∀ a ∈ c.areas, a.includes identity path timestamp) ∧
        (c.share.isCommunal → identity = c.user)) ∧
      ∀ n, (c.afterSteps n).isValid) ∧
    ∀ (t : Token) (e : Entry), t.authorises e →
      (∀ a ∈ t.capability.areas, e.isIn a) ∧
      (e.share.isCommunal → e.identity = t.capability.user) := by
  constructor
  · intro c valid
    refine ⟨fun identity path timestamp inside => ⟨?_, ?_⟩, ?_⟩
    · exact Capability.area_includes_areas valid inside
    · exact fun communal => Capability.area_includes_user valid communal inside
    · exact Capability.isValid_afterSteps valid
  · intro t e proof
    obtain ⟨_, share, inside, valid, _⟩ := Token.authorises_iff.mp proof
    refine ⟨Capability.area_includes_areas valid inside, fun communal => ?_⟩
    exact Capability.area_includes_user valid (share ▸ communal) inside

section Relay

open Crypto.Transparent

attribute [local instance] Crypto.transparent

/-- A capability that identity 1 has of its own part of a communal share, handed to identity 2 below
a path and then to identity 3 until a time. -/
def delegated : Capability :=
  let below : Area := ⟨.of (identity 1), path 7, .full⟩
  let until9 : Area := ⟨.of (identity 1), path 7, ⟨0, some 9⟩⟩
  let root := Capability.handoverMessage (1 :: ((share 1).encode ++ (identity 1).encode)) below
    (identity 2)
  let first := (keypair .identity 1).sign root
  let second := (keypair .identity 2).sign
    (Capability.handoverMessage first.bytes until9 (identity 3))
  ⟨.write, share 1, identity 1, .communal,
    ⟨[⟨below, identity 2, first⟩, ⟨until9, identity 3, second⟩]⟩, by decide⟩

def delegatedEntry : Entry := ⟨share 1, identity 1, path 7, 8, 0, .zero 32⟩

def delegatedToken : Token := ⟨delegated, (keypair .identity 3).sign delegatedEntry.encode⟩

theorem valid_attenuates_delegated :
    (delegated.isValid ∧ delegated.area.includes (identity 1) (path 7) 8 ∧
      (∀ a ∈ delegated.areas, a.includes (identity 1) (path 7) 8) ∧ delegated.areas.length = 3 ∧
      (delegated.afterSteps 1).isValid) ∧
    delegatedToken.authorises delegatedEntry ∧ delegatedEntry.share.isCommunal ∧
      (∀ a ∈ delegatedToken.capability.areas, delegatedEntry.isIn a) ∧
      delegatedEntry.identity = delegatedToken.capability.user := by
  have valid : delegated.isValid := by decide
  have inside : delegated.area.includes (identity 1) (path 7) 8 := by decide
  have proof : delegatedToken.authorises delegatedEntry := by decide
  have communal : delegatedEntry.share.isCommunal := by decide
  obtain ⟨narrowing, shorter⟩ := valid_attenuates.1 delegated valid
  obtain ⟨everywhere, ofUser⟩ := valid_attenuates.2 delegatedToken delegatedEntry proof
  exact ⟨⟨valid, inside, (narrowing _ _ _ inside).1, rfl, shorter 1⟩, proof, communal, everywhere,
    ofUser communal⟩

end Relay

end DocumentShare
