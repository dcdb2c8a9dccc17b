import DocumentShare.Proofs.Store.Plans

/-!
# Plans that are broken off

A plan is made to its end or as far as something stops it: storage fails, or the count of a payload bars a
step (`Archive.Stopped`). What holds all along a plan holds wherever it ends (`Archive.Came.goes`).
-/

namespace DocumentShare

/-- The count of a payload contradicts what is asked. -/
def InvariantFault.OfCount : InvariantFault → Prop
  | corruptCount _ => True
  | overReleased _ => True
  | _ => False

namespace Archive

structure Works (a : Archive) : Prop where
  entries : a.entries.Works
  payloads : a.payloads.Works

theorem Works.same {a b : Archive} (works : a.Works) (same : a.Same b) : b.Works where
  entries := same.works works.entries
  payloads := by
    rw [same.payloads]
    exact works.payloads

variable [Crypto] {α β : Type} {a b c : Archive} {steps steps' : List Step} {e : StoreError}

/-- The archive `b` is what `a` becomes by the steps. -/
structure Made (a : Archive) (steps : List Step) (b : Archive) : Prop where
  holdings : b.holdings = a.holdings.after steps
  works : a.Works → b.Works

/-- Why steps are left where an archive holds `h`: storage fails, or a count bars the next one. -/
inductive Stopped (a : Archive) (h : Holdings) : List Step → StoreError → Prop
  | storage {left : List Step} (error : StorageError) (broken : ¬a.Works) :
      Stopped a h left (.ofStorage error)
  | count {step : Step} {left : List Step} {fault : InvariantFault} (barred : step.Barred h)
      (ofCount : fault.OfCount) : Stopped a h (step :: left) (.invariant fault)

/-- The archive `b` is what `a` becomes by the first of the steps, where the others are left. -/
def Broke (a : Archive) (steps : List Step) (e : StoreError) (b : Archive) : Prop :=
  ∃ done left, done ++ left = steps ∧ b.holdings = a.holdings.after done ∧ a.Stopped b.holdings left e

omit [Crypto] in
theorem Stopped.append {h : Holdings} (stopped : a.Stopped h steps e) (steps' : List Step) :
    a.Stopped h (steps ++ steps') e := by
  cases stopped with
  | storage error broken => exact .storage error broken
  | count barred ofCount => exact .count barred ofCount

omit [Crypto] in
theorem Stopped.before {h : Holdings} (stopped : b.Stopped h steps e) (works : a.Works → b.Works) :
    a.Stopped h steps e := by
  cases stopped with
  | storage error broken => exact .storage error (mt works broken)
  | count barred ofCount => exact .count barred ofCount

theorem Made.of_same (same : a.Same b) : a.Made [] b := ⟨same.holdings, (·.same same)⟩

theorem Made.trans (first : a.Made steps b) (second : b.Made steps' c) :
    a.Made (steps ++ steps') c where
  holdings := by rw [second.holdings, first.holdings, Holdings.after_append]
  works := second.works ∘ first.works

theorem Broke.append (broke : a.Broke steps e b) (steps' : List Step) :
    a.Broke (steps ++ steps') e b := by
  obtain ⟨done, left, rfl, here, stopped⟩ := broke
  exact ⟨done, left ++ steps', (List.append_assoc _ _ _).symm, here, stopped.append steps'⟩

theorem Made.broke (first : a.Made steps b) (broke : b.Broke steps' e c) :
    a.Broke (steps ++ steps') e c := by
  obtain ⟨done, left, rfl, here, stopped⟩ := broke
  refine ⟨steps ++ done, left, List.append_assoc _ _ _, ?_, stopped.before first.works⟩
  rw [here, first.holdings, Holdings.after_append]

theorem Broke.of_same (same : a.Same b) (stopped : a.Stopped b.holdings steps e) :
    a.Broke steps e b :=
  ⟨[], steps, rfl, same.holdings, stopped⟩

theorem Broke.before (broke : b.Broke steps e c) (same : a.Same b) : a.Broke steps e c :=
  (Made.of_same same).broke broke

theorem Made.before (made : b.Made steps c) (same : a.Same b) : a.Made steps c :=
  (Made.of_same same).trans made

/-! ### What an archive comes to -/

/-- The archive `b` is what `a` becomes by a plan for an answer or an error, or by a front of one where
something stops it. -/
inductive Came (a : Archive) (plans : Except StoreError α → List Step → Prop) :
    Except StoreError α → Archive → Prop
  | made {r : Except StoreError α} {steps : List Step} {b : Archive} (plan : plans r steps)
      (made : a.Made steps b) : Came a plans r b
  | broke {e : StoreError} {steps : List Step} {b : Archive}
      (plan : steps = [] ∨ ∃ x, plans (.ok x) steps) (broke : a.Broke steps e b) :
      Came a plans (.error e) b

namespace Came

variable {plans : Except StoreError α → List Step → Prop} {r : Except StoreError α}
  {p : Holdings → Prop}

theorem map {plans' : Except StoreError β → List Step → Prop} {g : α → β} (came : a.Came plans r b)
    (becomes : ∀ {r steps}, plans r steps → plans' (r.map g) steps) : a.Came plans' (r.map g) b := by
  cases came with
  | made plan made => exact .made (becomes plan) made
  | broke plan broke => exact .broke (plan.imp_right fun ⟨x, plan⟩ => ⟨g x, becomes plan⟩) broke

theorem front (came : a.Came plans r b) : ∃ steps done left,
    (steps = [] ∨ ∃ r, plans r steps) ∧ done ++ left = steps ∧ b.holdings = a.holdings.after done := by
  cases came with
  | @made r steps b plan made => exact ⟨steps, steps, [], .inr ⟨r, plan⟩, List.append_nil _, made.holdings⟩
  | @broke e steps b plan broke =>
    obtain ⟨done, left, cut, here, _⟩ := broke
    exact ⟨steps, done, left, plan.imp_right fun ⟨x, plan⟩ => ⟨.ok x, plan⟩, cut, here⟩

theorem failed {e : StoreError} (came : a.Came plans (.error e) b) :
    (∃ steps, plans (.error e) steps) ∨ ∃ steps, a.Stopped b.holdings steps e := by
  cases came with
  | @made r steps b plan made => exact .inl ⟨steps, plan⟩
  | broke plan broke =>
    obtain ⟨done, left, _, _, stopped⟩ := broke
    exact .inr ⟨left, stopped⟩

/-- What holds all along the plans holds wherever work ends, and only storage can break it off. -/
theorem goes (came : a.Came plans r b)
    (goes : ∀ r steps, plans r steps → Holdings.Goes p a.holdings steps) (start : p a.holdings) :
    p b.holdings ∧ ((∃ steps, plans r steps ∧ a.Made steps b) ∨
      ¬a.Works ∧ ∃ error, r = .error (.ofStorage error)) := by
  cases came with
  | @made r steps b plan made =>
    have whole := goes r steps plan
    rw [← List.append_nil steps] at whole
    rw [made.holdings]
    exact ⟨whole.stopped.1, .inl ⟨steps, plan, made⟩⟩
  | @broke e steps b plan broke =>
    obtain ⟨done, left, rfl, here, stopped⟩ := broke
    have whole : Holdings.Goes p a.holdings (done ++ left) := by
      rcases plan with none | ⟨x, plan⟩
      · rw [none]
        exact .nil start
      · exact goes _ _ plan
    obtain ⟨holds, free⟩ := whole.stopped
    rw [← here] at holds free
    refine ⟨holds, .inr ?_⟩
    cases stopped with
    | storage error broken => exact ⟨broken, error, rfl⟩
    | count barred _ => exact absurd barred (free _ rfl)

end Came

end Archive

end DocumentShare
