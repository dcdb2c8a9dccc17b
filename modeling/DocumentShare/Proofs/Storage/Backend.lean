import DocumentShare.Proofs.Storage.Contents
import DocumentShare.Proofs.Work
import DocumentShare.Storage.Payloads
import DocumentShare.Storage.Scan

/-!
# What the operations of a backend come to

An operation changes the contents in the way it is there for, or it fails and changes nothing. It
fails only while something is out of order, and it puts nothing out of order. `Backend.Does` says
this of an operation, an answer and the contents afterwards.
-/

namespace DocumentShare

open Work

namespace Direction

variable {α β : Type}

/-- A list whose order is ascending, in a direction. -/
def arrange : Direction → List α → List α
  | ascending, l => l
  | descending, l => l.reverse

theorem arrange_map (direction : Direction) (f : α → β) (l : List α) :
    direction.arrange (l.map f) = (direction.arrange l).map f := by
  cases direction with
  | ascending => rfl
  | descending => exact List.map_reverse.symm

theorem arrange_filter (direction : Direction) (p : α → Bool) (l : List α) :
    direction.arrange (l.filter p) = (direction.arrange l).filter p := by
  cases direction with
  | ascending => rfl
  | descending => exact List.filter_reverse.symm

theorem mem_arrange {direction : Direction} {x : α} {l : List α} :
    x ∈ direction.arrange l ↔ x ∈ l := by
  cases direction with
  | ascending => rfl
  | descending => exact List.mem_reverse

end Direction

namespace Backend

/-- Nothing is out of order. -/
def Works (b : Backend) : Prop := ∀ op, b.outages op = none

/-- Unless `b` is out of order, the work answers `answer` and leaves the contents `c`. -/
def Does {α : Type} (w : BackendWork α) (b : Backend) (answer : α) (c : Contents) : Prop :=
  w.Ends b (fun v b' => v = answer ∧ b'.contents = c ∧ (b.Works → b'.Works))
    (fun _ b' => b'.contents = b.contents ∧ ¬b.Works)

theorem works_empty : empty.Works := fun _ => rfl

theorem Does.answers {α : Type} {w : BackendWork α} {b : Backend} {answer : α} {c : Contents}
    (does : Does w b answer c) (works : b.Works) :
    w.Answers b fun v b' => v = answer ∧ b'.contents = c ∧ b'.Works :=
  does.mono (fun _ _ h => ⟨h.1, h.2.1, h.2.2 works⟩) fun _ _ h => absurd works h.2

section Operations

variable (b : Backend)

theorem does_ask (op : Operation) : Does (ask op) b () b.contents := by
  refine Ends.ofStep ?_
  cases outage : b.outages op with
  | none => exact ⟨rfl, rfl, id⟩
  | some o =>
    have broken : ¬b.Works := fun works => by simp [works op] at outage
    obtain ⟨e, after⟩ := o
    cases after with
    | zero => exact ⟨rfl, broken⟩
    | succ n => exact ⟨rfl, rfl, fun works => absurd works broken⟩

theorem does_get (key : Bytes) : Does (get key) b (b.contents.get? key) b.contents := by
  refine (does_ask b .get).bind fun _ c ⟨_, same, works⟩ => ?_
  have read : c.contents.get? key = b.contents.get? key := by rw [same]
  exact Ends.ofStep ⟨read, same, works⟩

theorem does_set (key value : Bytes) : Does (set key value) b () (b.contents.insert key value) := by
  refine (does_ask b .set).bind fun _ c ⟨_, same, works⟩ => ?_
  have written : c.contents.insert key value = b.contents.insert key value := by rw [same]
  exact Ends.ofStep ⟨rfl, written, works⟩

theorem does_delete (key : Bytes) :
    Does (delete key) b (b.contents.get? key).isSome (b.contents.erase key) := by
  refine (does_ask b .delete).bind fun _ c ⟨_, same, works⟩ => ?_
  have read : (c.contents.get? key).isSome = (b.contents.get? key).isSome := by rw [same]
  have deleted : c.contents.erase key = b.contents.erase key := by rw [same]
  exact Ends.ofStep ⟨read, deleted, works⟩

theorem does_begin : Does beginScan b () b.contents := Ends.ofStep ⟨rfl, rfl, id⟩

theorem does_scan (range : KeyRange) (direction : Direction) :
    Does (scan range direction) b (direction.arrange (b.contents.within range)) b.contents := by
  cases direction with
  | ascending => exact Ends.ofStep ⟨rfl, rfl, id⟩
  | descending => exact Ends.ofStep ⟨rfl, rfl, id⟩

theorem does_store [Crypto] (payload : Bytes) :
    Does (Payloads.store payload) b (Crypto.digest payload)
      (b.contents.insert (Crypto.digest payload).bytes payload) := by
  refine (does_set b _ payload).bind fun _ c ⟨_, stored, works⟩ => ?_
  exact Ends.pure ⟨rfl, stored, works⟩

theorem does_erase (g : Digest) :
    Does (Payloads.erase g) b (b.contents.get? g.bytes).isSome (b.contents.erase g.bytes) :=
  does_delete b g.bytes

end Operations

/-! ### What operations keep -/

section Keeping

variable {key value : Bytes} (inv : Contents → Prop)

variable {inv} in
theorem Does.ends {α : Type} {w : BackendWork α} {b : Backend} {answer : α} {c : Contents}
    (does : Does w b answer c) (held : inv b.contents) (after : inv c) :
    w.Ends b (fun v b' => v = answer ∧ inv b'.contents) fun _ b' => inv b'.contents := by
  refine Ends.mono does ?_ ?_
  · rintro v b' ⟨same, rfl, _⟩
    exact ⟨same, after⟩
  · rintro e b' ⟨same, _⟩
    rw [same]
    exact held

variable {inv} in
theorem Does.keeps {α : Type} {w : BackendWork α} {answer : Backend → α} {c : Backend → Contents}
    (does : ∀ b, Does w b (answer b) (c b)) (after : ∀ b, inv b.contents → inv (c b)) :
    w.Keeps fun b => inv b.contents :=
  fun b held => ((does b).ends held (after b held)).mono (fun _ _ h => h.2) fun _ _ => id

theorem keeps_ask (op : Operation) : (ask op).Keeps fun b => inv b.contents :=
  Does.keeps (fun b => does_ask b op) fun _ => id

theorem keeps_get : (get key).Keeps fun b => inv b.contents :=
  Does.keeps (fun b => does_get b key) fun _ => id

theorem keeps_set (after : ∀ c, inv c → inv (c.insert key value)) :
    (set key value).Keeps fun b => inv b.contents :=
  Does.keeps (fun b => does_set b key value) fun b => after b.contents

theorem keeps_delete (after : ∀ c, inv c → inv (c.erase key)) :
    (delete key).Keeps fun b => inv b.contents :=
  Does.keeps (fun b => does_delete b key) fun b => after b.contents

end Keeping

end Backend

end DocumentShare
