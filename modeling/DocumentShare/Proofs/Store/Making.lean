import DocumentShare.Proofs.Store.Breaking

/-!
# Writes make their plans

Whatever an archive is asked to write, it reads what is there and makes the steps of a plan, all of them
or those before something stops it (`ArchiveWork.Makes`). What is proved of writes is proved of the steps
of `Archive.plan`.
-/

namespace DocumentShare

open Work

namespace ArchiveWork

open Archive

variable [Crypto] {α β : Type}

/-- On an archive that holds `h` the work makes the steps, or it is broken off among them. -/
def Makes (w : ArchiveWork α) (h : Holdings) (steps : List Step) (good : α → Prop) : Prop :=
  ∀ a : Archive, a.holdings = h → w.Ends a (fun x b => good x ∧ a.Made steps b)
    fun e b => a.Broke steps e b

namespace Makes

variable {w : ArchiveWork α} {f : α → ArchiveWork β} {h : Holdings} {step : Step}
  {steps steps' : List Step} {good : α → Prop} {good' : β → Prop}

theorem pure {x : α} (answer : good x) : (Pure.pure x : ArchiveWork α).Makes h [] good :=
  fun a _ => Ends.pure ⟨answer, .of_same (.refl a)⟩

theorem skip {x : α} (answer : good x) (idle : h.step step = h) :
    (Pure.pure x : ArchiveWork α).Makes h [step] good := by
  rintro a rfl
  exact Ends.pure ⟨answer, idle.symm, id⟩

theorem bind (first : w.Makes h steps good)
    (second : ∀ x, good x → (f x).Makes (h.after steps) steps' good') :
    (w >>= f).Makes h (steps ++ steps') good' := by
  intro a holds
  apply ((first a holds).mono (fun _ _ => id) fun _ _ broke => broke.append steps').bind
  intro x b ⟨answer, made⟩
  rw [← holds] at second
  apply (second x answer b made.holdings).mono
  · intro y c ⟨answer, made'⟩
    exact ⟨answer, made.trans made'⟩
  · intro e c broke
    exact made.broke broke

theorem last (first : w.Makes h steps good)
    (second : ∀ x, good x → (f x).Makes (h.after steps) [] good') :
    (w >>= f).Makes h steps good' := by
  have both := first.bind second
  rwa [List.append_nil] at both

/-- Reading comes before the steps. -/
theorem read (reads : w.Reads h.entries good) (second : ∀ x, good x → (f x).Makes h steps good') :
    (w >>= f).Makes h steps good' := by
  rintro a rfl
  apply ((reads a rfl).mono (fun _ _ => id) ?_).bind
  · intro x b ⟨answer, same⟩
    apply (second x answer b same.holdings).mono
    · intro y c ⟨answer, made⟩
      exact ⟨answer, made.before same⟩
    · intro e c broke
      exact broke.before same
  · intro e b ⟨⟨error, failure⟩, broken, same⟩
    rw [failure]
    exact .of_same same (.storage error fun works => broken works.entries)

/-! ### Single steps -/

theorem onEntries {w : BackendWork α} {answer : Backend → α} (next : Contents → Contents)
    (does : ∀ b, Backend.Does w b (answer b) (next b.contents))
    (makes : h.step step = { h with entries := next h.entries }) :
    (Archive.onEntries w).Makes h [step] fun _ => True := by
  rintro a rfl
  apply Archive.onEntries_ends
  apply (does a.entries).mono
  · intro x b ⟨_, same, working⟩
    refine ⟨trivial, ?_, fun works => ⟨working works.entries, works.payloads⟩⟩
    show (⟨b.contents, a.payloads.contents, a.events⟩ : Holdings) = a.holdings.step step
    rw [same, makes]
    rfl
  · intro e b ⟨same, broken⟩
    refine .of_same ⟨same, fun works => absurd works broken, rfl, rfl⟩ ?_
    exact .storage e fun works => broken works.entries

theorem emit (e : Event) : (Archive.emit e).Makes h [.tell e] fun _ => True := by
  rintro a rfl
  exact Ends.modifies ⟨trivial, rfl, fun works => ⟨works.entries, works.payloads⟩⟩

theorem put (d : Document) (o : Order) :
    (Archive.onEntries (Backend.set (o.key d) (o.value d))).Makes h [.change ⟨.put d, o⟩]
      fun _ => True :=
  onEntries (·.change ⟨.put d, o⟩) (fun b => Backend.does_set b _ _) rfl

theorem drop (d : Document) (o : Order) :
    (Archive.deleteKey (o.key d)).Makes h [.change ⟨.drop d, o⟩] fun _ => True := by
  have deleted : (Archive.onEntries (Backend.delete (o.key d))).Makes h [.change ⟨.drop d, o⟩]
      fun _ => True :=
    onEntries (·.change ⟨.drop d, o⟩) (fun b => Backend.does_delete b _) rfl
  exact deleted.last fun _ _ => pure trivial

theorem storePayload (payload : Bytes) :
    (Archive.storePayload payload).Makes h [.store payload] fun _ => True := by
  rintro a rfl
  apply (onPayloads_ends ((Backend.does_store a.payloads payload).mono ?_ ?_)).bind
  · intro _ b made
    exact Ends.pure made
  · intro x b ⟨_, same, working⟩
    refine ⟨trivial, ?_, fun works => ⟨works.entries, working works.payloads⟩⟩
    show (⟨a.entries.contents, b.contents, a.events⟩ : Holdings) = _
    rw [same]
    rfl
  · intro e b ⟨same, broken⟩
    refine ⟨[], _, rfl, ?_, .storage e fun works => broken works.payloads⟩
    show (⟨a.entries.contents, b.contents, a.events⟩ : Holdings) = _
    rw [same]
    rfl

/-! ### Counts -/

theorem throwing {f : α → ArchiveWork β} {fault : InvariantFault} (barred : step.Barred h)
    (ofCount : fault.OfCount) :
    ((throw (.invariant fault) : ArchiveWork α) >>= f).Makes h (step :: steps) good' := by
  rintro a rfl
  have stopped : (throw (.invariant fault) : ArchiveWork α).Ends a (fun _ _ => False)
      fun e b => a.Broke (step :: steps) e b :=
    Ends.throw (.of_same (.refl a) (.count barred ofCount))
  exact stopped.bind fun _ _ => False.elim

/-- A count is read for a step that it bars unless it is as long as counts are. -/
theorem counting {g : Digest} {f : Nat → ArchiveWork β} (barred : ¬h.entries.Wide g → step.Barred h)
    (second : h.entries.Wide g → (f (h.entries.count g)).Makes h (step :: steps) good') :
    (Archive.referenceCount g >>= f).Makes h (step :: steps) good' := by
  by_cases wide : h.entries.Wide g
  · apply read (Contents.reads_referenceCount wide)
    rintro _ rfl
    exact second wide
  · rw [Archive.referenceCount, bind_assoc]
    apply read (.get (Key.reference g))
    intro found same
    obtain ⟨value, stored, long⟩ : ∃ value, h.entries.get? (Key.reference g) = some value ∧
        value.length ≠ 8 := by
      unfold Contents.Wide at wide
      push Not at wide
      exact wide
    rw [stored] at same
    subst same
    dsimp only
    rw [if_neg long]
    exact throwing (barred wide) trivial

theorem retain (g : Digest) : (Archive.retain g).Makes h [.retain g] fun _ => True := by
  refine counting (fun narrow => narrow) fun _ => ?_
  exact onEntries (fun c => c.insert _ _) (fun b => Backend.does_set b _ _) rfl

theorem erase (d cause : Document)
    (uncounted : h.entries.get? (Key.reference d.entry.payloadDigest) = none) :
    (Archive.onPayloads (Payloads.erase d.entry.payloadDigest) >>= fun erased =>
      if erased then Archive.emit (.payloadRemoved d.entry.payloadDigest d cause)
      else Pure.pure ()).Makes h [.erase d cause] fun _ => True := by
  rintro a rfl
  let g := d.entry.payloadDigest
  have stepped : a.holdings.step (.erase d cause) = { a.holdings with
      payloads := a.payloads.contents.erase g.bytes
      events := if (a.payloads.contents.get? g.bytes).isSome then .payloadRemoved g d cause :: a.events
        else a.events } := by
    rw [Holdings.step, uncounted]
    rfl
  have erased : (Archive.onPayloads (Payloads.erase g)).Ends a
      (fun erased b => erased = (a.payloads.contents.get? g.bytes).isSome ∧
        b.holdings = { a.holdings with payloads := a.payloads.contents.erase g.bytes } ∧
        (a.Works → b.Works)) fun e b => a.Broke [.erase d cause] e b := by
    apply onPayloads_ends
    apply (Backend.does_erase a.payloads g).mono
    · intro x b ⟨answer, same, working⟩
      refine ⟨answer, ?_, fun works => ⟨works.entries, working works.payloads⟩⟩
      rw [← same]
      rfl
    · intro e b ⟨same, broken⟩
      refine ⟨[], _, rfl, ?_, .storage e fun works => broken works.payloads⟩
      show (⟨a.entries.contents, b.contents, a.events⟩ : Holdings) = _
      rw [same]
      rfl
  apply erased.bind
  intro x b ⟨answer, holds, works⟩
  rw [← answer] at stepped
  split
  · next gone =>
    refine Ends.modifies ⟨trivial, ?_, fun w => ⟨(works w).entries, (works w).payloads⟩⟩
    rw [Holdings.after_singleton, stepped, if_pos gone]
    show b.holdings.step (.tell _) = _
    rw [holds]
    rfl
  · next stayed =>
    refine Ends.pure ⟨trivial, ?_, works⟩
    rw [Holdings.after_singleton, stepped, if_neg stayed]
    exact holds

/-- A count is lowered, and the payload goes with the last. -/
theorem release (d cause : Document) :
    (Archive.release d.entry.payloadDigest >>= fun erased =>
      if erased then Archive.emit (.payloadRemoved d.entry.payloadDigest d cause)
      else Pure.pure ()).Makes h [.release d.entry.payloadDigest, .erase d cause] fun _ => True := by
  rw [Archive.release, bind_assoc]
  refine counting .inl fun wide => ?_
  split
  · next zero => exact throwing (.inr zero) trivial
  · split
    · next more =>
      rw [bind_assoc]
      have lowered : h.step (.release d.entry.payloadDigest) = { h with
          entries := h.entries.insert (Key.reference d.entry.payloadDigest)
            (Bytes.ofNat 8 (h.entries.count d.entry.payloadDigest - 1)) } := by
        rw [Holdings.step, if_pos more]
      apply (onEntries (fun c => c.insert _ _) (fun b => Backend.does_set b _ _) lowered).bind
      intro _ _
      rw [pure_bind]
      apply skip trivial
      rw [Holdings.after_singleton, lowered, Holdings.step, Contents.get?_insert, if_pos rfl]
      rfl
    · next last =>
      rw [bind_assoc]
      have lowered : h.step (.release d.entry.payloadDigest) = { h with
          entries := h.entries.erase (Key.reference d.entry.payloadDigest) } := by
        rw [Holdings.step, if_neg last]
      apply (onEntries (fun c => c.erase _) (fun b => Backend.does_delete b _) lowered).bind
      intro _ _
      apply erase
      rw [Holdings.after_singleton, lowered, Contents.get?_erase, if_pos rfl]

/-! ### Documents -/

theorem remove (d cause : Document) :
    (Archive.remove d cause).Makes h ((Move.drop d).steps cause) fun _ => True := by
  apply (drop d .identity).bind
  intro _ _
  apply (drop d .path).bind
  intro _ _
  apply (drop d .timestamp).bind
  intro _ _
  apply (emit _).bind
  intro _ _
  exact release d cause

theorem removeAll (stale : List Document) (cause : Document) :
    (stale.forM (Archive.remove · cause)).Makes h
      ((stale.map Move.drop).flatMap (Move.steps cause)) fun _ => True := by
  induction stale generalizing h with
  | nil => exact pure trivial
  | cons d stale ih =>
    rw [List.map_cons, List.flatMap_cons]
    exact (remove d cause).bind fun _ _ => ih

variable {a : Archive} {documents : Finset Document} {d : Document}

/-- Counts are kept apart from the entries. -/
theorem lists_step (lists : h.entries.Lists documents) (g : Digest) :
    (h.step (.retain g)).entries.Lists documents :=
  lists.congr fun _ => Contents.Covers.get?_insert_reference

theorem vacate (lists : a.entries.contents.Lists documents) (lists' : h.entries.Lists documents)
    (d : Document) : (Archive.vacate d).Makes h
      (((a.inPlaceOf d).toList.map Move.drop).flatMap (Move.steps d)) fun _ => True := by
  apply read (lists'.get d.identity d.path)
  intro previous here
  have same : previous = a.inPlaceOf d := by
    ext e
    exact (here e).trans (inPlaceOf_eq_some_iff lists e).symm
  rw [← same]
  cases previous with
  | none => exact pure trivial
  | some p =>
    rw [Option.toList_some, List.map_singleton, List.flatMap_singleton]
    exact remove p d

theorem insert (lists : a.entries.contents.Lists documents) (lists' : h.entries.Lists documents)
    (d : Document) : (Archive.insert d (a.documents.filter d.entry.prunes)).Makes h
      (.retain d.entry.payloadDigest :: (a.moves d).flatMap (Move.steps d))
      (· = (a.documents.filter d.entry.prunes).map Document.path) := by
  rw [moves, Move.writing, List.flatMap_append, List.flatMap_cons]
  apply (retain _).bind
  intro _ _
  apply (vacate lists (lists_step lists' _) d).bind
  intro _ _
  apply (put d .identity).bind
  intro _ _
  apply (put d .path).bind
  intro _ _
  apply (put d .timestamp).bind
  intro _ _
  exact (removeAll _ d).last fun _ _ => pure rfl

theorem place (lists : a.entries.contents.Lists documents) (d : Document) (payload : Option Bytes) :
    (Archive.place d payload (a.documents.filter d.entry.prunes)).Makes a.holdings
      (payload.toList.map .store ++
        .retain d.entry.payloadDigest :: (a.moves d).flatMap (Move.steps d))
      (· = (a.documents.filter d.entry.prunes).map Document.path) := by
  cases payload with
  | none => exact insert lists lists d
  | some p => exact (storePayload p).bind fun _ _ => insert lists lists d

theorem write (lists : a.entries.contents.Lists documents) (d : Document) (payload : Bytes) :
    (Archive.write d payload (a.documents.filter d.entry.prunes)).Makes a.holdings
      (a.plan d (some payload) [.documentSet d])
      (· = (a.documents.filter d.entry.prunes).map Document.path) := by
  apply (place lists d (some payload)).bind
  intro paths same
  exact (emit _).last fun _ _ => pure same

theorem placeTelling (lists : a.entries.contents.Lists documents) (d : Document) (payload : Option Bytes) :
    (do
      let pruned ← Archive.place d payload (a.documents.filter d.entry.prunes)
      Archive.emit (.entryIngest d)
      payload.forM fun _ => Archive.emit (.payloadIngest d)
      return .success d pruned : ArchiveWork Outcome).Makes a.holdings
      (a.plan d payload (Event.ofIngest d payload))
      (· = .success d ((a.documents.filter d.entry.prunes).map Document.path)) := by
  apply (place lists d payload).bind
  rintro _ rfl
  rw [Event.ofIngest, List.map_cons]
  apply (emit _).bind
  intro _ _
  cases payload with
  | none => exact pure rfl
  | some p => exact (emit _).last fun _ _ => pure rfl

theorem accept (lists : a.entries.contents.Lists documents) (d : Document) (payload : Option Bytes) :
    (Archive.accept d payload).Makes a.holdings (a.plan d payload (Event.ofIngest d payload))
      (· = .success d ((a.documents.filter d.entry.prunes).map Document.path)) := by
  apply read (reads_prunable lists d.entry)
  rintro _ rfl
  exact placeTelling lists d payload

end Makes

end ArchiveWork

end DocumentShare
