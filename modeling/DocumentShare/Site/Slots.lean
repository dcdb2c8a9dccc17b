/-!
# Slots

A table whose entries are known by number. Reading a number that was never written gives the
default; `get_set_self` and `get_set_of_ne` say what writing does.
-/

namespace DocumentShare

structure Slots (α : Type) where
  pairs : List (Nat × α)
  /-- The number of the next entry. -/
  next : Nat

namespace Slots

variable {α : Type}

def empty : Slots α := ⟨[], 0⟩

def get [Inhabited α] (s : Slots α) (i : Nat) : α := (s.pairs.lookup i).getD default

def set (s : Slots α) (i : Nat) (a : α) : Slots α :=
  { s with pairs := (i, a) :: s.pairs.filter (fun x => x.1 != i) }

def add (s : Slots α) (a : α) : Nat × Slots α := (s.next, { s.set s.next a with next := s.next + 1 })

theorem lookup_filter_ne (l : List (Nat × α)) {i j : Nat} (h : j ≠ i) :
    (l.filter (fun x => x.1 != i)).lookup j = l.lookup j := by
  induction l with
  | nil => rfl
  | cons x l ih =>
    obtain ⟨k, a⟩ := x
    by_cases hk : k = i
    · subst hk
      simp [List.lookup_cons, ih, beq_false_of_ne h]
    · simp [hk, List.lookup_cons, ih]

@[simp] theorem get_set_self [Inhabited α] (s : Slots α) (i : Nat) (a : α) :
    (s.set i a).get i = a := by
  simp [get, set]

theorem get_set_of_ne [Inhabited α] (s : Slots α) {i j : Nat} (a : α) (h : j ≠ i) :
    (s.set i a).get j = s.get j := by
  simp [get, set, List.lookup_cons, beq_false_of_ne h, lookup_filter_ne _ h]

/-- Writing back what was read changes nothing that can be read. -/
@[simp] theorem get_set_get [Inhabited α] (s : Slots α) (i j : Nat) :
    (s.set i (s.get i)).get j = s.get j := by
  by_cases h : j = i
  · rw [h, get_set_self]
  · exact get_set_of_ne _ _ h

end Slots

end DocumentShare
