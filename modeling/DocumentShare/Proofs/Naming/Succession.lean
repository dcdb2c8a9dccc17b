import DocumentShare.Proofs.Naming.Ordering

/-!
# The identifier that comes next

Counting up carries from one place to the place before it: from byte to byte of a key, from the key to the
shortname and from character to character of that. `ComesNext.carry` is this one step, so an identifier is
followed by the next of those with as long a shortname (`Identifier.next?_exact`).
-/

namespace DocumentShare

/-- What comes right after `a` among the things of `P`: one above it with none of these strictly between,
or nothing if none of these is above it. -/
def ComesNext {α : Type} [Ord α] (P : α → Prop) (a : α) : Option α → Prop
  | none => ∀ c, P c → compare a c ≠ .lt
  | some b => P b ∧ compare a b = .lt ∧ ∀ c, P c → ¬(compare a c = .lt ∧ compare c b = .lt)

namespace ComesNext

section Carrying

variable {α β γ : Type} [Ord α] [Ord β] [Ord γ] {P : α → Prop} {Q : β → Prop} {R : γ → Prop}

/-- A pair is counted up by its second part. If that was the last one, it begins again with the least,
and the first part is counted up. -/
theorem carry [Std.OrientedOrd α] {pair : α → β → γ} {a : α} {x least : β} {high : Option α}
    {low : Option β} (nextHigh : ComesNext P a high) (nextLow : ComesNext Q x low)
    (ordered : ∀ a b x y, compare (pair a x) (pair b y) = (compare a b).then (compare x y))
    (pairs : ∀ c, R c ↔ ∃ a x, (P a ∧ Q x) ∧ pair a x = c) (here : P a)
    (first : Q least) (lowest : ∀ y, Q y → compare y least ≠ .lt) :
    ComesNext R (pair a x) ((low.map (pair a)).or (high.map (pair · least))) := by
  cases low with
  | some y =>
    obtain ⟨inside, above, adjacent⟩ := nextLow
    refine ⟨(pairs _).mpr ⟨a, y, ⟨here, inside⟩, rfl⟩, ?_, fun c member between => ?_⟩
    · rw [ordered, Std.compare_self]
      exact above
    · -- What is between agrees in the first part, so its second part would be between.
      obtain ⟨b, z, ⟨_, low⟩, rfl⟩ := (pairs c).mp member
      rw [ordered, ordered, Std.OrientedOrd.eq_swap (a := b)] at between
      obtain ⟨less, greater⟩ := between
      rcases Ordering.then_eq_lt.mp less with less | ⟨level, less⟩
      · rw [less] at greater
        cases greater
      · rw [level] at greater
        exact adjacent z low ⟨less, greater⟩
  | none =>
    cases high with
    | some b =>
      obtain ⟨inside, above, adjacent⟩ := nextHigh
      refine ⟨(pairs _).mpr ⟨b, least, ⟨inside, first⟩, rfl⟩, ?_, fun c member between => ?_⟩
      · rw [ordered, above]
        rfl
      · obtain ⟨c, z, ⟨high, low⟩, rfl⟩ := (pairs c).mp member
        rw [ordered, ordered, Ordering.then_eq_lt, Ordering.then_eq_lt] at between
        obtain ⟨less | ⟨_, less⟩, greater⟩ := between
        · rcases greater with greater | ⟨_, greater⟩
          · exact adjacent c high ⟨less, greater⟩
          · exact lowest z low greater
        · exact nextLow z low less
    | none =>
      intro c member less
      obtain ⟨c, z, ⟨high, low⟩, rfl⟩ := (pairs c).mp member
      rw [ordered, Ordering.then_eq_lt] at less
      rcases less with less | ⟨_, less⟩
      · exact nextHigh c high less
      · exact nextLow z low less

/-- What is ordered by its image has next what its image has next, if that is the image of one of them. -/
theorem of_map {f : β → α} {b : β} {next : Option β} (image : ComesNext P (f b) (next.map f))
    (ordered : ∀ b c, compare b c = compare (f b) (f c)) (within : ∀ b, Q b → P (f b))
    (kept : ∀ c, next = some c → Q c) : ComesNext Q b next := by
  cases next with
  | none =>
    intro c member
    rw [ordered]
    exact image (f c) (within c member)
  | some d =>
    obtain ⟨_, above, adjacent⟩ := image
    refine ⟨kept d rfl, (ordered b d).trans above, fun c member => ?_⟩
    rw [ordered, ordered]
    exact adjacent (f c) (within c member)

end Carrying

section Told

variable {α : Type} [Ord α] {P : α → Prop} {a b : α} {next : Option α}

theorem eq_some_iff [Std.OrientedOrd α] [Std.LawfulEqOrd α] (comes : ComesNext P a next) :
    next = some b ↔ ComesNext P a (some b) := by
  constructor
  · intro same
    rwa [same] at comes
  · intro ⟨inside, above, adjacent⟩
    cases next with
    | none => exact absurd above (comes b inside)
    | some c =>
      obtain ⟨inside', above', adjacent'⟩ := comes
      congr 1
      cases order : compare c b with
      | lt => exact absurd ⟨above', order⟩ (adjacent c inside')
      | eq => exact Std.LawfulEqOrd.eq_of_compare order
      | gt => exact absurd ⟨above, Std.OrientedCmp.gt_iff_lt.mp order⟩ (adjacent' b inside)

theorem eq_none_iff [Std.OrientedOrd α] (comes : ComesNext P a next) :
    next = none ↔ ∀ c, P c → (compare c a).isLE := by
  have level (c : α) : (compare c a).isLE ↔ compare a c ≠ .lt := by
    rw [Std.OrientedOrd.eq_swap (a := c)]
    cases compare a c <;> decide
  simp only [level]
  constructor
  · intro none
    rwa [none] at comes
  · intro greatest
    cases next with
    | none => rfl
    | some b => exact absurd comes.2.1 (greatest b comes.1)

end Told

end ComesNext

/-! ### Digits -/

/-- The byte strings of as many digits. -/
def Bytes.Digits (digit : UInt8 → Prop) (length : Nat) (b : Bytes) : Prop :=
  b.length = length ∧ ∀ x ∈ b, digit x

/-- Each digit is followed by the next one, and none is below the least. -/
structure Counting (digit : UInt8 → Prop) (next? : UInt8 → Option UInt8) (least : UInt8) : Prop where
  next : ∀ x, digit x → ComesNext digit x (next? x)
  first : digit least
  lowest : ∀ x, digit x → compare x least ≠ .lt

namespace Counting

variable {digit : UInt8 → Prop} {next? : UInt8 → Option UInt8} {least : UInt8} {n : Nat} {b : Bytes}

theorem digits_succ_iff : Bytes.Digits digit (n + 1) b ↔
    ∃ x rest, (digit x ∧ Bytes.Digits digit n rest) ∧ x :: rest = b := by
  constructor
  · intro ⟨length, digits⟩
    cases b with
    | nil => cases length
    | cons x rest =>
      obtain ⟨here, later⟩ := List.forall_mem_cons.mp digits
      exact ⟨x, rest, ⟨here, Nat.succ.inj length, later⟩, rfl⟩
  · intro ⟨x, rest, ⟨here, length, later⟩, same⟩
    subst same
    exact ⟨congrArg Nat.succ length, List.forall_mem_cons.mpr ⟨here, later⟩⟩

theorem digits_replicate (counting : Counting digit next? least) (n : Nat) :
    Bytes.Digits digit n (List.replicate n least) :=
  ⟨List.length_replicate, fun _ member => List.eq_of_mem_replicate member ▸ counting.first⟩

theorem replicate_lowest (counting : Counting digit next? least) (digits : Bytes.Digits digit n b) :
    compare b (List.replicate n least) ≠ .lt := by
  induction n generalizing b with
  | zero =>
    rw [List.length_eq_zero_iff.mp digits.1, List.replicate_zero]
    decide
  | succ n ih =>
    obtain ⟨x, rest, ⟨here, later⟩, rfl⟩ := digits_succ_iff.mp digits
    rw [List.replicate_succ, List.compare_cons_cons, Ne, Ordering.then_eq_lt, not_or]
    exact ⟨counting.lowest x here, fun level => ih later level.2⟩

theorem countUp_cons (next? : UInt8 → Option UInt8) (least x : UInt8) (rest : Bytes) :
    Shortname.countUp next? least (x :: rest) = ((Shortname.countUp next? least rest).map (x :: ·)).or
      ((next? x).map (· :: List.replicate rest.length least)) := by
  rw [Shortname.countUp]
  cases Shortname.countUp next? least rest <;> rfl

theorem comesNext_countUp (counting : Counting digit next? least) (digits : ∀ x ∈ b, digit x) :
    ComesNext (Bytes.Digits digit b.length) b (Shortname.countUp next? least b) := by
  induction b with
  | nil =>
    intro c ⟨length, _⟩
    rw [List.length_eq_zero_iff.mp length]
    decide
  | cons x rest ih =>
    obtain ⟨here, later⟩ := List.forall_mem_cons.mp digits
    rw [countUp_cons]
    exact (counting.next x here).carry (ih later) (fun _ _ _ _ => List.compare_cons_cons)
      (fun _ => digits_succ_iff) here (counting.digits_replicate _) fun _ => counting.replicate_lowest

end Counting

theorem comesNext_add_one {digit : UInt8 → Prop} {x : UInt8} (inner : x ≠ 255)
    (inside : digit (x + 1)) : ComesNext digit x (some (x + 1)) := by
  refine ⟨inside, Std.compare_eq_lt.mpr ((UInt8.lt_next inner x).mpr (UInt8.le_refl x)), ?_⟩
  intro y _ ⟨above, below⟩
  rw [Std.compare_eq_lt] at above below
  exact UInt8.not_lt.mpr ((UInt8.lt_next inner y).mp below) above

/-! ### Shortnames -/

namespace Shortname

variable {r : Role}

theorem isPlain_iff {x : UInt8} : (isLetter x || isDigit x) = true ↔
    97 ≤ x.toNat ∧ x.toNat ≤ 122 ∨ 48 ≤ x.toNat ∧ x.toNat ≤ 57 := by
  simp [isLetter, isDigit, UInt8.le_iff_toNat_le]

theorem counting_nextChar? : Counting (fun x => isLetter x || isDigit x) nextChar? 48 where
  next x plain := by
    have next := plain_nextChar? (y := x + 1) plain
    unfold nextChar? at next ⊢
    split
    · next last =>
      intro y plain' above
      have range := isPlain_iff.mp plain'
      rw [last, Std.compare_eq_lt, UInt8.lt_iff_toNat_lt] at above
      simp only [UInt8.reduceToNat] at above
      omega
    · next inner =>
      split
      · next figure =>
        -- The letters come after the figures, with no character of a shortname between them.
        refine ⟨by decide, by rw [figure]; decide, ?_⟩
        intro y plain' ⟨above, below⟩
        have range := isPlain_iff.mp plain'
        rw [figure, Std.compare_eq_lt, UInt8.lt_iff_toNat_lt] at above
        rw [Std.compare_eq_lt, UInt8.lt_iff_toNat_lt] at below
        simp only [UInt8.reduceToNat] at above below
        omega
      · next inner' =>
        refine comesNext_add_one ?_ (next ?_)
        · intro last
          rw [last] at plain
          cases plain
        · rw [if_neg inner, if_neg inner']
  first := rfl
  lowest x plain := by
    have range := isPlain_iff.mp plain
    rw [Ne, Std.compare_eq_lt, UInt8.lt_iff_toNat_lt]
    simp only [UInt8.reduceToNat]
    omega

instance : Ord (Shortname r) := ⟨fun n m => compare n.bytes m.bytes⟩

instance : Std.OrientedOrd (Shortname r) :=
  inferInstanceAs (Std.OrientedCmp (compareOn Shortname.bytes))

theorem map_next? (n : Shortname r) :
    n.next?.map Shortname.bytes = countUp nextChar? 48 n.bytes := by
  unfold next?
  split
  · next none => exact none.symm
  · next b counted => exact counted.symm

theorem length_next? {n m : Shortname r} (next : n.next? = some m) :
    m.bytes.length = n.bytes.length := by
  have counted := n.map_next?
  rw [next] at counted
  exact length_countUp counted.symm

theorem comesNext_next? (n : Shortname r) :
    ComesNext (fun m : Shortname r => m.bytes.length = n.bytes.length) n n.next? := by
  have counted := counting_nextChar?.comesNext_countUp n.legal.plain
  rw [← map_next?] at counted
  exact counted.of_map (fun _ _ => rfl) (fun m length => ⟨length, m.legal.plain⟩)
    fun _ => length_next?

/-- After `sazz` comes `sb00`. -/
example : countUp nextChar? 48 [115, 97, 122, 122] = some [115, 98, 48, 48] := by decide

end Shortname

/-! ### Identifiers -/

namespace Identifier

variable {r : Role}

theorem counting_nextByte? : Counting (fun _ => True) nextByte? 0 where
  next x _ := by
    unfold nextByte?
    split
    · next last =>
      intro y _ above
      rw [last, Std.compare_eq_lt] at above
      exact UInt8.not_lt.mpr (UInt8.le_last y) above
    · next inner => exact comesNext_add_one inner trivial
  first := trivial
  lowest x _ := by
    rw [Ne, Std.compare_eq_lt, UInt8.lt_iff_toNat_lt]
    exact Nat.not_lt_zero _

theorem map_nextKey? (key : PublicKey) :
    (nextKey? key).map Block.bytes = Shortname.countUp nextByte? 0 key.bytes := by
  unfold nextKey?
  split
  · next none => exact none.symm
  · next b counted => exact counted.symm

theorem comesNext_nextKey? (key : PublicKey) : ComesNext (fun _ => True) key (nextKey? key) := by
  have counted := counting_nextByte?.comesNext_countUp (b := key.bytes) fun _ _ => trivial
  rw [← map_nextKey?] at counted
  exact counted.of_map (fun _ _ => rfl)
    (fun k _ => ⟨k.length_bytes.trans key.length_bytes.symm, fun _ _ => trivial⟩) fun _ _ => trivial

theorem next?_eq (i : Identifier r) : i.next? =
    ((nextKey? i.key).map (mk i.name)).or (i.name.next?.map (mk · (.zero 32))) := by
  rw [next?]
  cases nextKey? i.key <;> rfl

theorem comesNext_next? (i : Identifier r) :
    ComesNext (fun j : Identifier r => j.name.bytes.length = i.name.bytes.length) i i.next? := by
  rw [next?_eq]
  refine i.name.comesNext_next?.carry (comesNext_nextKey? i.key) (fun _ _ _ _ => rfl) (fun j => ?_) rfl
    trivial fun key _ => counting_nextByte?.replicate_lowest ⟨key.length_bytes, fun _ _ => trivial⟩
  constructor
  · exact fun length => ⟨j.name, j.key, ⟨length, trivial⟩, rfl⟩
  · intro ⟨name, key, ⟨length, _⟩, same⟩
    subst same
    exact length

/-- Counting an identifier up gives the next with a legal shortname of the same length, and nothing
exactly if it is the greatest. -/
theorem next?_exact (i n : Identifier r) :
    (i.next? = some n ↔
      (Shortname.Legal r n.name.bytes ∧ n.name.bytes.length = i.name.bytes.length) ∧
        compare i n = .lt ∧
          ∀ j : Identifier r, j.name.bytes.length = i.name.bytes.length →
            ¬(compare i j = .lt ∧ compare j n = .lt)) ∧
    (i.next? = none ↔ ∀ j : Identifier r, j.name.bytes.length = i.name.bytes.length →
      (compare j i).isLE) := by
  rw [and_iff_right n.name.legal]
  exact ⟨i.comesNext_next?.eq_some_iff, i.comesNext_next?.eq_none_iff⟩

end Identifier

end DocumentShare
