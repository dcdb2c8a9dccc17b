import DocumentShare.Proofs.Store.Accounts
import DocumentShare.Proofs.Store.Moves

/-!
# Plans of writes

A write makes one step after the other, and storage may fail at any of them. What an archive holds follows
from the steps that were made (`Holdings.after`), so what holds all along a plan holds wherever a write of
that plan is broken off (`Holdings.Goes`). The steps of a write are those of its moves, after its payload
was stored and counted (`Archive.plan`).
-/

namespace DocumentShare

namespace Move

/-- The digests of the documents that moves put, which are counted in advance. -/
def awaited : List Move → Multiset Digest
  | [] => 0
  | put d :: moves => d.entry.payloadDigest ::ₘ awaited moves
  | drop _ :: moves => awaited moves

theorem awaited_dropping (ds : List Document) (moves : List Move) :
    awaited (ds.map drop ++ moves) = awaited moves := by
  induction ds with
  | nil => rfl
  | cons d ds ih => exact ih

theorem awaited_writing (previous : Option Document) (d : Document) (stale : List Document) :
    awaited (writing previous d stale) = {d.entry.payloadDigest} := by
  have none := awaited_dropping stale []
  rw [List.append_nil] at none
  rw [writing, awaited_dropping, awaited, none]
  rfl

end Move

/-- One thing that a write does to an archive. -/
inductive Step
  | change (ch : Change)
  /-- A payload is counted once more. -/
  | retain (g : Digest)
  | release (g : Digest)
  /-- The payload of a document goes unless there is still a count of it. -/
  | erase (d cause : Document)
  | store (payload : Bytes)
  | tell (e : Event)

def Move.steps (cause : Document) : Move → List Step
  | put d => (put d).changes.map .change
  | drop d => (drop d).changes.map .change ++
      [.tell (.entryRemoved d cause), .release d.entry.payloadDigest, .erase d cause]

/-- The steps of a write and of what is told of it. -/
def Archive.plan (a : Archive) (d : Document) (payload : Option Bytes) (told : List Event) :
    List Step :=
  payload.toList.map .store ++
    .retain d.entry.payloadDigest :: (a.moves d).flatMap (Move.steps d) ++ told.map .tell

/-- What is told of a document that comes from elsewhere. -/
def Event.ofIngest (d : Document) (payload : Option Bytes) : List Event :=
  .entryIngest d :: payload.toList.map fun _ => .payloadIngest d

/-- What an archive holds. -/
structure Holdings where
  entries : Contents
  payloads : Contents
  events : List Event

def Archive.holdings (a : Archive) : Holdings := ⟨a.entries.contents, a.payloads.contents, a.events⟩

theorem Archive.Same.holdings {a b : Archive} (same : a.Same b) : b.holdings = a.holdings := by
  rw [Archive.holdings, same.entries, same.payloads, same.events]
  rfl

/-- The count of a payload is as long as counts are. -/
def Contents.Wide (c : Contents) (g : Digest) : Prop :=
  ∀ value, c.get? (Key.reference g) = some value → value.length = 8

/-- What is stored as the count of a payload does not allow the step. -/
def Step.Barred (h : Holdings) : Step → Prop
  | retain g => ¬h.entries.Wide g
  | release g => ¬h.entries.Wide g ∨ h.entries.count g = 0
  | _ => False

/-- Steps that a call may make on an archive: none, those of a payload that arrives, or those of a
write. -/
inductive Archive.Plans (a : Archive) (may : Document → Prop) (brings : Bytes → Prop) :
    List Step → Prop
  | nothing : Plans a may brings []
  | arrival {payload : Bytes} {e : Event} (brought : brings payload) :
      Plans a may brings [.store payload, .tell e]
  | write {d : Document} {payload : Option Bytes} {told : List Event} (allowed : may d)
      (brought : ∀ p ∈ payload, brings p) : Plans a may brings (a.plan d payload told)

namespace Holdings

variable [Crypto]

def step (h : Holdings) : Step → Holdings
  | .change ch => { h with entries := h.entries.change ch }
  | .retain g => { h with
      entries := h.entries.insert (Key.reference g) (Bytes.ofNat 8 (h.entries.count g + 1)) }
  | .release g => { h with
      entries := if 1 < h.entries.count g then
          h.entries.insert (Key.reference g) (Bytes.ofNat 8 (h.entries.count g - 1))
        else h.entries.erase (Key.reference g) }
  | .erase d cause =>
    let g := d.entry.payloadDigest
    if (h.entries.get? (Key.reference g)).isSome then h
    else { h with
      payloads := h.payloads.erase g.bytes
      events := if (h.payloads.get? g.bytes).isSome then .payloadRemoved g d cause :: h.events
        else h.events }
  | .store payload => { h with payloads := h.payloads.insert (Crypto.digest payload).bytes payload }
  | .tell e => { h with events := e :: h.events }

def after (h : Holdings) (steps : List Step) : Holdings := steps.foldl step h

variable {h : Holdings} {steps steps' : List Step} {p : Holdings → Prop}

theorem after_singleton {step : Step} : h.after [step] = h.step step := rfl

theorem after_append : h.after (steps ++ steps') = (h.after steps).after steps' := List.foldl_append

/-- At every point of the steps `p` holds, and none of them is barred. -/
inductive Goes (p : Holdings → Prop) : Holdings → List Step → Prop
  | nil {h : Holdings} (holds : p h) : Goes p h []
  | cons {h : Holdings} {step : Step} {steps : List Step} (holds : p h) (free : ¬step.Barred h)
      (rest : Goes p (h.step step) steps) : Goes p h (step :: steps)

namespace Goes

theorem append (first : Goes p h steps) (second : Goes p (h.after steps) steps') :
    Goes p h (steps ++ steps') := by
  induction first with
  | nil => exact second
  | cons holds free _ ih => exact .cons holds free (ih second)

theorem mono {q : Holdings → Prop} (goes : Goes p h steps) (weaker : ∀ h, p h → q h) :
    Goes q h steps := by
  induction goes with
  | nil holds => exact .nil (weaker _ holds)
  | cons holds free _ ih => exact .cons (weaker _ holds) free ih

theorem stopped {done left : List Step} (goes : Goes p h (done ++ left)) :
    p (h.after done) ∧ ∀ step ∈ left.head?, ¬step.Barred (h.after done) := by
  induction done generalizing h with
  | nil =>
    cases goes with
    | nil holds => exact ⟨holds, by rintro _ ⟨⟩⟩
    | cons holds free _ =>
      refine ⟨holds, ?_⟩
      rintro _ ⟨⟩
      exact free
  | cons step done ih =>
    cases goes with
    | cons _ _ rest => exact ih rest

end Goes

end Holdings

end DocumentShare
