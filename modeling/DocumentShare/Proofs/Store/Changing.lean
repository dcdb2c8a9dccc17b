import DocumentShare.Proofs.Store.Refusing
import DocumentShare.Proofs.Store.Stops

/-!
# What calls change

The steps that change the records of a document are those of its moves, so a call that writes makes the
changes of its moves in their order (`Store.changes_perform`), and a call that storage breaks off has made
a front of them and no others. The counts of payloads are left out of account, and of the payloads
themselves it is only said which ones a call may bring.
-/

namespace DocumentShare

open Work

namespace Contents

/-- The same records but for the counts of payloads. -/
def Agrees (c c' : Contents) : Prop := ∀ key : Bytes, key.head? ≠ some 3 → c'.get? key = c.get? key

namespace Agrees

variable {c c' c'' : Contents} {documents : Finset Document} {o : Order}

theorem refl (c : Contents) : c.Agrees c := fun _ _ => rfl

theorem trans (first : c.Agrees c') (second : c'.Agrees c'') : c.Agrees c'' :=
  fun key other => (second key other).trans (first key other)

theorem change (agrees : c.Agrees c') (ch : Change) : (c.change ch).Agrees (c'.change ch) := by
  intro key other
  unfold Contents.change
  split
  · rw [get?_insert, get?_insert, agrees key other]
  · rw [get?_erase, get?_erase, agrees key other]

theorem insertCount (c : Contents) (g : Digest) (value : Bytes) :
    c.Agrees (c.insert (Key.reference g) value) := by
  intro key other
  refine get?_insert_of_ne ?_
  rintro rfl
  exact other rfl

theorem eraseCount (c : Contents) (g : Digest) : c.Agrees (c.erase (Key.reference g)) := by
  intro key other
  refine get?_erase_of_ne ?_
  rintro rfl
  exact other rfl

theorem files (agrees : c.Agrees c') (files : c.Files o documents) : c'.Files o documents := by
  intro rest value
  have other : (o.family :: rest).head? ≠ some 3 := by cases o <;> simp [Order.family]
  rw [agrees _ other]
  exact files rest value

theorem lists (agrees : c.Agrees c') (lists : c.Lists documents) : c'.Lists documents := by
  obtain ⟨files, readable⟩ := lists_iff.mp lists
  exact lists_iff.mpr ⟨agrees.files files, readable⟩

end Agrees

end Contents

namespace Archive

variable [Crypto] {a b c : Archive} {brings : Bytes → Prop}

/-- A payload of `b` was one of `a`, or it was brought and is under its digest. -/
def Gains (a : Archive) (brings : Bytes → Prop) (b : Archive) : Prop :=
  ∀ key value, b.payloads.contents.get? key = some value →
    a.payloads.contents.get? key = some value ∨ brings value ∧ key = (Crypto.digest value).bytes

end Archive

/-! ### Changes among the steps -/

/-- The change of a record of a document that a step makes. -/
def Step.change? : Step → Option Change
  | change ch => some ch
  | _ => none

namespace Holdings

variable [Crypto] {h : Holdings} {c : Contents} {steps : List Step} {brings : Bytes → Prop}

theorem agrees_step (agrees : c.Agrees h.entries) (step : Step) :
    (c.after step.change?.toList).Agrees (h.step step).entries := by
  cases step with
  | change ch => exact agrees.change ch
  | retain g => exact agrees.trans (.insertCount h.entries g _)
  | release g =>
    rw [Holdings.step]
    split
    · exact agrees.trans (.insertCount h.entries g _)
    · exact agrees.trans (.eraseCount h.entries g)
  | erase d cause =>
    rw [Holdings.step]
    split
    · exact agrees
    · exact agrees
  | store payload => exact agrees
  | tell e => exact agrees

theorem agrees_after (agrees : c.Agrees h.entries) (steps : List Step) :
    (c.after (steps.filterMap Step.change?)).Agrees (h.after steps).entries := by
  induction steps generalizing h c with
  | nil => exact agrees
  | cons step steps ih =>
    rw [show step :: steps = [step] ++ steps from rfl, List.filterMap_append, Contents.after_append]
    refine ih ?_
    have stepped := agrees_step agrees step
    cases step with
    | change ch => exact stepped
    | _ => exact stepped

theorem gains_after (brought : ∀ payload, .store payload ∈ steps → brings payload) {key value : Bytes}
    (stored : (h.after steps).payloads.get? key = some value) :
    h.payloads.get? key = some value ∨ brings value ∧ key = (Crypto.digest value).bytes := by
  induction steps generalizing h with
  | nil => exact .inl stored
  | cons step steps ih =>
    obtain before | later :=
      ih (fun payload member => brought payload (List.mem_cons_of_mem step member)) stored
    · cases step with
      | store payload =>
        rw [Holdings.step, Contents.get?_insert] at before
        split at before
        · next same =>
          cases before
          exact .inr ⟨brought _ List.mem_cons_self, same⟩
        · exact .inl before
      | erase d cause =>
        rw [Holdings.step] at before
        split at before
        · exact .inl before
        · rw [Contents.get?_erase] at before
          split at before
          · cases before
          · exact .inl before
      | change ch => exact .inl before
      | retain g => exact .inl before
      | release g => exact .inl before
      | tell e => exact .inl before
    · exact .inr later

end Holdings

namespace Move

theorem change?_steps (m : Move) (cause : Document) :
    (m.steps cause).filterMap Step.change? = m.changes := by
  cases m with
  | put d => rfl
  | drop d => rfl

theorem store_not_mem_steps (m : Move) (cause : Document) (payload : Bytes) :
    .store payload ∉ m.steps cause := by
  cases m with
  | put d => simp [steps]
  | drop d => simp [steps]

end Move

namespace Archive

section

variable [Crypto] {a b : Archive} {may : Document → Prop} {brings : Bytes → Prop} {left : List Change}
  {done rest : List Step} {e : StoreError}

/-- The archive `b` is what `a` becomes by the changes that write a document which may be written, but
for those that are left, or by none, and by payloads that are brought. -/
structure Reaches (a : Archive) (may : Document → Prop) (brings : Bytes → Prop) (left : List Change)
    (b : Archive) : Prop where
  entries : ∃ moves done,
    (moves = [] ∨ ∃ d, may d ∧ Document.decode d.encode = .ok d ∧ moves = a.moves d) ∧
    done ++ left = moves.flatMap Move.changes ∧
    (a.entries.contents.after done).Agrees b.entries.contents
  payloads : a.Gains brings b

/-- What work that writes has come to when it fails: unless it was refused, some changes may be left. -/
def Stops (a : Archive) (may : Document → Prop) (brings : Bytes → Prop) (e : StoreError)
    (b : Archive) : Prop :=
  ∃ left, a.Reaches may brings left b ∧ (e.Refuses → left = [])

omit [Crypto] in
/-- The changes of planned steps are those of the moves of a document that may be written, or none. -/
theorem Plans.moves {steps : List Step} (plans : a.Plans may brings steps) :
    (∃ moves, (moves = [] ∨ ∃ d, may d ∧ moves = a.moves d) ∧
      steps.filterMap Step.change? = moves.flatMap Move.changes) ∧
      ∀ payload, .store payload ∈ steps → brings payload := by
  cases plans with
  | nothing => exact ⟨⟨[], .inl rfl, rfl⟩, fun _ member => by cases member⟩
  | @arrival payload e brought =>
    refine ⟨⟨[], .inl rfl, rfl⟩, fun p member => ?_⟩
    obtain rfl : p = payload := by simpa using member
    exact brought
  | @write d payload told allowed brought =>
    refine ⟨⟨a.moves d, .inr ⟨d, allowed, rfl⟩, ?_⟩, fun p member => ?_⟩
    · have none : (told.map Step.tell).filterMap Step.change? = [] := by
        rw [List.filterMap_map]
        exact List.filterMap_eq_nil_iff.mpr fun e _ => rfl
      have stored : (payload.toList.map Step.store).filterMap Step.change? = [] := by
        rw [List.filterMap_map]
        exact List.filterMap_eq_nil_iff.mpr fun p _ => rfl
      rw [plan, List.filterMap_append, List.filterMap_append, none, stored, List.append_nil,
        List.nil_append, List.filterMap_cons_none rfl, List.filterMap_flatMap]
      simp only [Move.change?_steps]
    · have moved : ∀ m ∈ a.moves d, .store p ∉ m.steps d := fun m _ => m.store_not_mem_steps d p
      simp only [plan, List.mem_append, List.mem_cons, List.mem_map, List.mem_flatMap, reduceCtorEq,
        Step.store.injEq, exists_eq_right, and_false, exists_false, or_false, false_or] at member
      obtain member | ⟨m, moving, there⟩ := member
      · exact brought p (Option.mem_toList.mp member)
      · exact absurd there (moved m moving)

/-- Where planned steps are broken off, the changes of the others are left. -/
theorem Plans.reaches {good : Document → Prop} (plans : a.Plans good brings (done ++ rest))
    (written : ∀ d, good d → may d ∧ Document.decode d.encode = .ok d)
    (here : b.holdings = a.holdings.after done) :
    a.Reaches may brings (rest.filterMap Step.change?) b := by
  obtain ⟨⟨moves, moved, changes⟩, brought⟩ := plans.moves
  refine ⟨⟨moves, done.filterMap Step.change?, ?_, ?_, ?_⟩, fun key value stored => ?_⟩
  · refine moved.imp_right fun ⟨d, good, same⟩ => ?_
    obtain ⟨allowed, readable⟩ := written d good
    exact ⟨d, allowed, readable, same⟩
  · rw [← changes, List.filterMap_append]
  · have agrees := Holdings.agrees_after (h := a.holdings) (.refl a.entries.contents) done
    rw [← here] at agrees
    exact agrees
  · have stored : b.holdings.payloads.get? key = some value := stored
    rw [here] at stored
    exact Holdings.gains_after (fun p member => brought p (List.mem_append_left _ member)) stored

omit [Crypto] in
theorem Stopped.not_refuses {h : Holdings} {steps : List Step} (stopped : a.Stopped h steps e) :
    ¬e.Refuses := by
  intro refuses
  cases stopped with
  | storage error _ => exact refuses.notStorage _ rfl
  | count _ _ => exact refuses.notInvariant _ rfl

end

end Archive

namespace Store

variable [Crypto] {s : Store} {t : Site} {documents : Finset Document}

/-- The call makes the changes of a document that it may write, or none, and all of them unless storage
fails. -/
theorem changes_perform (apart : s.Apart) (lists : (s.archive t).entries.contents.Lists documents)
    (c : Call) :
    (s.perform c).Ends t (fun _ u => (s.archive t).Reaches (c.Writes s) c.Carries [] (s.archive u))
      fun e u => (s.archive t).Stops (c.Writes s) c.Carries e (s.archive u) := by
  let good (d : Document) : Prop := c.Writes s d ∧ d.token.capability.Upright
  have plans {r : Except StoreError Reply} {steps : List Step}
      (performs : (s.archive t).Performs s (·.token.capability.Upright) c r steps) :
      (s.archive t).Plans good c.Carries steps :=
    performs.plans fun d _ => Token.upright_of_authorises
  have reaches {done rest : List Step} {u : Site} (plans : (s.archive t).Plans good c.Carries (done ++ rest))
      (here : (s.archive u).holdings = (s.archive t).holdings.after done) :
      (s.archive t).Reaches (c.Writes s) c.Carries (rest.filterMap Step.change?) (s.archive u) :=
    plans.reaches (fun d ⟨writes, upright⟩ => ⟨writes, Document.decode_encode upright⟩) here
  apply (comes_perform apart lists (authorises_upright apart) c).mono
  · intro r u came
    cases came with
    | @made _ steps _ performs made =>
      have whole := plans performs
      rw [← List.append_nil steps] at whole
      exact reaches whole made.holdings
  · intro e u came
    cases came with
    | @made _ steps _ performs made =>
      have whole := plans performs
      rw [← List.append_nil steps] at whole
      exact ⟨[], reaches whole made.holdings, fun _ => rfl⟩
    | broke plan broke =>
      obtain ⟨done, left, rfl, here, stopped⟩ := broke
      have front : (s.archive t).Plans good c.Carries (done ++ left) := by
        rcases plan with none | ⟨x, performs⟩
        · rw [none]
          exact .nothing
        · exact plans performs
      exact ⟨_, reaches front here, fun refuses => absurd refuses stopped.not_refuses⟩

end Store

end DocumentShare
