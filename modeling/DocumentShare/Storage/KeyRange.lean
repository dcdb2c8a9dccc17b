import DocumentShare.Bytes.Basic

/-!
# Key ranges

Ranges of byte strings, each end included, excluded or open. `startingWith` is the range of the
keys that begin with given bytes; its upper end is `upperBound?`.
-/

namespace DocumentShare

inductive Bound
  | unbounded
  | included (key : Bytes)
  | excluded (key : Bytes)
deriving DecidableEq, Inhabited

namespace Bound

/-- Whether a key is on the right side of a lower end. -/
def admitsAbove : Bound → Bytes → Bool
  | unbounded, _ => true
  | included b, key => !decide (key < b)
  | excluded b, key => decide (b < key)

/-- Whether a key is on the right side of an upper end. -/
def admitsBelow : Bound → Bytes → Bool
  | unbounded, _ => true
  | included b, key => !decide (b < key)
  | excluded b, key => decide (key < b)

end Bound

structure KeyRange where
  start : Bound
  stop : Bound
deriving DecidableEq, Inhabited

namespace KeyRange

def full : KeyRange := ⟨.unbounded, .unbounded⟩

def contains (r : KeyRange) (key : Bytes) : Bool := r.start.admitsAbove key && r.stop.admitsBelow key

/-- Whether the ends leave no room between them. -/
def isVoid (r : KeyRange) : Bool :=
  match r.start, r.stop with
  | .included a, .included b => decide (b < a)
  | .included a, .excluded b | .excluded a, .included b | .excluded a, .excluded b => !decide (a < b)
  | _, _ => false

/-- What an ordered map asks of the ends that it is to look between: that they are not inverted, and
that no key is excluded at both. -/
def Ordered (r : KeyRange) : Prop :=
  match r.start, r.stop with
  | .excluded a, .excluded b => a < b
  | .included a, .included b | .included a, .excluded b | .excluded a, .included b => ¬b < a
  | _, _ => True

theorem ordered_of_not_isVoid {r : KeyRange} (roomy : ¬r.isVoid) : r.Ordered := by
  obtain ⟨start, stop⟩ := r
  cases start <;> cases stop <;> simp_all [isVoid, Ordered, List.lt_asymm]

/-- The least byte string above every one that begins with the given bytes, if there is one. -/
def upperBound? : Bytes → Option Bytes
  | [] => none
  | b :: rest =>
    match upperBound? rest with
    | some bound => some (b :: bound)
    | none => if b = 255 then none else some [b + 1]

def startingWith (front : Bytes) : KeyRange :=
  ⟨.included front, match upperBound? front with
    | some bound => .excluded bound
    | none => .unbounded⟩

end KeyRange

end DocumentShare
