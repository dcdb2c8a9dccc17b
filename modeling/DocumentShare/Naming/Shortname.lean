import DocumentShare.Bytes.Basic
import DocumentShare.Error

/-!
# Shortnames

The readable part of an identifier: lowercase letters and digits, a letter first, as many as the
role of the identifier allows. `next?` is the following shortname of the same length.
-/

namespace DocumentShare

/-- What an identifier names: a writer or reader, or a share. -/
inductive Role
  | identity
  | share
deriving DecidableEq, Repr

namespace Role

def name : Role → String
  | identity => "identity"
  | share => "share"

def leastLength : Role → Nat
  | identity => 4
  | share => 1

def greatestLength : Role → Nat
  | identity => 4
  | share => 15

end Role

namespace Shortname

def isDigit (b : UInt8) : Bool := 48 ≤ b && b ≤ 57

def isLetter (b : UInt8) : Bool := 97 ≤ b && b ≤ 122

/-- The rules for the bytes of a shortname. -/
structure Legal (r : Role) (b : Bytes) : Prop where
  least : r.leastLength ≤ b.length
  greatest : b.length ≤ r.greatestLength
  plain : ∀ x ∈ b, isLetter x || isDigit x
  letter : b.head?.all isLetter

instance (r : Role) (b : Bytes) : Decidable (Legal r b) :=
  decidable_of_iff
    (r.leastLength ≤ b.length ∧ b.length ≤ r.greatestLength ∧
      b.all (fun x => isLetter x || isDigit x) ∧ b.head?.all isLetter)
    ⟨fun ⟨h₁, h₂, h₃, h₄⟩ => ⟨h₁, h₂, List.all_eq_true.mp h₃, h₄⟩,
      fun ⟨h₁, h₂, h₃, h₄⟩ => ⟨h₁, h₂, List.all_eq_true.mpr h₃, h₄⟩⟩

end Shortname

/-- The readable part of an identifier, as ASCII bytes. -/
structure Shortname (r : Role) where
  bytes : Bytes
  legal : Shortname.Legal r bytes
deriving DecidableEq

namespace Shortname

/-- The rule that a text breaks, the length first. -/
def fault (r : Role) (text : String) : ShortnameFault :=
  let length := (Bytes.ofText text).length
  if length < r.leastLength || r.greatestLength < length then
    .length r.name r.leastLength r.greatestLength
  else
    match text.toList.find? (fun c => !(c.isLower || c.isDigit)) with
    | some c => .character c
    | none => .leadingDigit

def parse (r : Role) (text : String) : Except ValidationError (Shortname r) :=
  if h : Legal r (Bytes.ofText text) then .ok ⟨_, h⟩
  else .error (.shortname text (fault r text))

instance {r : Role} : ToString (Shortname r) :=
  ⟨fun n => String.ofList (n.bytes.map Char.ofUInt8)⟩

/-! ### Counting -/

/-- Counts a string of digits up by one, where `next?` follows a digit within a place and `least` is
the digit that a place begins with again. -/
def countUp (next? : UInt8 → Option UInt8) (least : UInt8) : Bytes → Option Bytes
  | [] => none
  | b :: rest =>
    match countUp next? least rest with
    | some rest => some (b :: rest)
    | none => (next? b).map (· :: List.replicate rest.length least)

/-- The character that follows in `0` to `9`, `a` to `z`. -/
def nextChar? (b : UInt8) : Option UInt8 :=
  if b = 122 then none else if b = 57 then some 97 else some (b + 1)

/-- One place is counted up. Those before it stay, and those behind it begin again. -/
theorem countUp_eq_some {next? : UInt8 → Option UInt8} {least : UInt8} {b b' : Bytes}
    (counted : countUp next? least b = some b') :
    ∃ front x y back, b = front ++ x :: back ∧ next? x = some y ∧
      b' = front ++ y :: List.replicate back.length least := by
  induction b generalizing b' with
  | nil => cases counted
  | cons x rest ih =>
    unfold countUp at counted
    split at counted
    · next rest' later =>
      cases counted
      obtain ⟨front, z, y, back, rfl, next, rfl⟩ := ih later
      exact ⟨x :: front, z, y, back, rfl, next, rfl⟩
    · obtain ⟨y, next, rfl⟩ := Option.map_eq_some_iff.mp counted
      exact ⟨[], x, y, rest, rfl, next, rfl⟩

theorem length_countUp {next? : UInt8 → Option UInt8} {least : UInt8} {b b' : Bytes}
    (counted : countUp next? least b = some b') : b'.length = b.length := by
  obtain ⟨front, x, y, back, rfl, _, rfl⟩ := countUp_eq_some counted
  simp

theorem isLetter_nextChar? {x y : UInt8} (hx : isLetter x) (h : nextChar? x = some y) :
    isLetter y := by
  simp only [isLetter, nextChar?, Bool.and_eq_true, decide_eq_true_eq, UInt8.le_iff_toNat_le]
    at hx ⊢ h
  split at h
  · cases h
  · next h122 =>
    split at h
    · next h57 => subst h57; simp at hx
    · cases h
      have : x.toNat ≠ 122 := fun h => h122 (UInt8.toNat_inj.mp (by simpa using h))
      simp at hx ⊢
      omega

theorem plain_nextChar? {x y : UInt8} (hx : isLetter x || isDigit x) (h : nextChar? x = some y) :
    isLetter y || isDigit y := by
  rw [Bool.or_eq_true] at hx
  rcases hx with hx | hx
  · simp [isLetter_nextChar? hx h]
  · simp only [isDigit, isLetter, nextChar?, Bool.and_eq_true, Bool.or_eq_true, decide_eq_true_eq,
      UInt8.le_iff_toNat_le] at hx ⊢ h
    split at h
    · cases h
    · split at h
      · cases h; simp
      · next h57 =>
        cases h
        have : x.toNat ≠ 57 := fun h => h57 (UInt8.toNat_inj.mp (by simpa using h))
        simp at hx ⊢
        omega

theorem plain_countUp {b b' : Bytes} (plain : ∀ x ∈ b, isLetter x || isDigit x)
    (counted : countUp nextChar? 48 b = some b') : ∀ x ∈ b', isLetter x || isDigit x := by
  obtain ⟨front, x, y, back, rfl, next, rfl⟩ := countUp_eq_some counted
  intro z member
  rcases List.mem_append.mp member with before | same | ⟨_, behind⟩
  · exact plain z (List.mem_append_left _ before)
  · exact plain_nextChar? (plain x (List.mem_append_right _ List.mem_cons_self)) next
  · rw [List.eq_of_mem_replicate behind]
    decide

theorem letter_countUp {b b' : Bytes} (letter : b.head?.all isLetter)
    (counted : countUp nextChar? 48 b = some b') : b'.head?.all isLetter := by
  obtain ⟨front, x, y, back, rfl, next, rfl⟩ := countUp_eq_some counted
  cases front with
  | nil => exact isLetter_nextChar? letter next
  | cons z front => exact letter

/-- The following shortname of the same length, if this is not the last. -/
def next? {r : Role} (n : Shortname r) : Option (Shortname r) :=
  match h : countUp nextChar? 48 n.bytes with
  | none => none
  | some b =>
    some ⟨b, by rw [length_countUp h]; exact n.legal.least,
      by rw [length_countUp h]; exact n.legal.greatest, plain_countUp n.legal.plain h,
      letter_countUp n.legal.letter h⟩

end Shortname

end DocumentShare
