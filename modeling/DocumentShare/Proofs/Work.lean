import DocumentShare.Work

/-!
# What work comes to

`Work.Ends` says of a computation and the state it starts from what may be relied on when it answers
and when it fails. Its rules follow the ways in which computations are put together, those over lists
with an invariant about the part of the list that is still to come. `Work.Keeps` is the case of a
property of states that holds afterwards, whatever the work comes to, if it held before, and
`Work.Upholds` also says something of each answer and each error.
-/

namespace DocumentShare.Work

variable {State Part Error Fault Answer α β : Type}

/-- From `s` the work ends in an answer and a state as `answers` says, or in an error and a state as
`fails` says. -/
def Ends (w : Work State Error Answer) (s : State) (answers : Answer → State → Prop)
    (fails : Error → State → Prop) : Prop :=
  match w.runOn s with
  | (.ok a, t) => answers a t
  | (.error e, t) => fails e t

/-- From `s` the work does not fail, and its answer and the state afterwards are as `answers` says. -/
abbrev Answers (w : Work State Error Answer) (s : State) (answers : Answer → State → Prop) : Prop :=
  w.Ends s answers fun _ _ => False

theorem runOn_ofStep (f : State → Except Error α × State) (s : State) : (ofStep f).runOn s = f s := rfl

section Bind

variable {w : Work State Error α} {f : α → Work State Error β} {s t : State}

theorem runOn_bind : (w >>= f).runOn s = ExceptT.bindCont f (w.runOn s).1 (w.runOn s).2 := rfl

theorem runOn_bind_ok {a : α} (ran : w.runOn s = (.ok a, t)) :
    (w >>= f).runOn s = (f a).runOn t := by
  rw [runOn_bind, ran]
  rfl

theorem runOn_bind_error {e : Error} (ran : w.runOn s = (.error e, t)) :
    (w >>= f).runOn s = (.error e, t) := by
  rw [runOn_bind, ran]
  rfl

end Bind

namespace Ends

variable {w : Work State Error α} {s : State} {answers : α → State → Prop}
  {fails : Error → State → Prop}

theorem cases (h : w.Ends s answers fails) :
    (∃ a, (w.runOn s).1 = .ok a ∧ answers a (w.runOn s).2) ∨
      ∃ e, (w.runOn s).1 = .error e ∧ fails e (w.runOn s).2 := by
  unfold Ends at h
  rcases ran : w.runOn s with ⟨e | a, t⟩
  · rw [ran] at h
    exact .inr ⟨e, rfl, h⟩
  · rw [ran] at h
    exact .inl ⟨a, rfl, h⟩

theorem any (w : Work State Error α) (s : State) :
    w.Ends s (fun _ _ => True) fun _ _ => True := by
  unfold Ends
  split
  · trivial
  · trivial

theorem mono {answers' : α → State → Prop} {fails' : Error → State → Prop}
    (h : w.Ends s answers fails) (answer : ∀ a t, answers a t → answers' a t)
    (fail : ∀ e t, fails e t → fails' e t) : w.Ends s answers' fails' := by
  unfold Ends at h ⊢
  rcases ran : w.runOn s with ⟨e | a, t⟩
  · rw [ran] at h
    exact fail e t h
  · rw [ran] at h
    exact answer a t h

theorem bind {f : α → Work State Error β} {answers' : β → State → Prop}
    (first : w.Ends s answers fails)
    (second : ∀ a t, answers a t → (f a).Ends t answers' fails) :
    (w >>= f).Ends s answers' fails := by
  unfold Ends at first ⊢
  rcases ran : w.runOn s with ⟨e | a, t⟩
  · rw [ran] at first
    rw [runOn_bind_error ran]
    exact first
  · rw [ran] at first
    rw [runOn_bind_ok ran]
    exact second a t first

theorem pure {a : α} (h : answers a s) : (Pure.pure a : Work State Error α).Ends s answers fails := h

theorem throw {e : Error} (h : fails e s) :
    (MonadExcept.throw e : Work State Error α).Ends s answers fails := h

theorem map {g : α → β} {answers' : β → State → Prop} (first : w.Ends s answers fails)
    (second : ∀ a t, answers a t → answers' (g a) t) : (g <$> w).Ends s answers' fails := by
  rw [← bind_pure_comp]
  exact first.bind fun a t h => pure (second a t h)

theorem ofStep {f : State → Except Error α × State}
    (h : match f s with
      | (.ok a, t) => answers a t
      | (.error e, t) => fails e t) : (Work.ofStep f).Ends s answers fails := h

theorem modifies {g : State → State} {answers : Unit → State → Prop} (h : answers () (g s)) :
    (modify g : Work State Error Unit).Ends s answers fails := h

theorem onPart {part : State → Part} {replace : Part → State → State} {w : Work Part Error α}
    (h : w.Ends (part s) (fun a p => answers a (replace p s)) (fun e p => fails e (replace p s))) :
    (w.onPart part replace).Ends s answers fails := by
  unfold Ends at h
  unfold Ends Work.onPart
  simp only [runOn, Work.ofStep, ExceptT.run_mk] at h ⊢
  rcases ran : ExceptT.run w (part s) with ⟨e | a, p⟩
  · rw [ran] at h
    exact h
  · rw [ran] at h
    exact h

/-- Work that carries a further state answers also where the carried work fails. -/
theorem carrying {Extra : Type} {x : Extra} {w : Work (Extra × State) Fault α}
    {answers : Except Fault α × Extra → State → Prop} {fails : Error → State → Prop}
    (h : w.Ends (x, s) (fun a p => answers (.ok a, p.1) p.2) fun e p => answers (.error e, p.1) p.2) :
    (w.carrying x).Ends s answers fails := by
  unfold Ends at h
  unfold Ends Work.carrying
  simp only [runOn, Work.ofStep, ExceptT.run_mk] at h ⊢
  rcases ran : ExceptT.run w (x, s) with ⟨e | a, p⟩
  · rw [ran] at h
    exact h
  · rw [ran] at h
    exact h

theorem reporting {report : Fault → Error} {w : Work State Fault α}
    (h : w.Ends s answers (fun e t => fails (report e) t)) :
    (w.reporting report).Ends s answers fails := by
  unfold Ends at h ⊢
  have run : (w.reporting report).runOn s
      = ((w.runOn s).1.mapError report, (w.runOn s).2) := rfl
  rw [run]
  rcases ran : w.runOn s with ⟨e | a, t⟩
  · rw [ran] at h
    exact h
  · rw [ran] at h
    exact h

theorem check {report : Fault → Error} {r : Except Fault α}
    (answer : ∀ a, r = .ok a → answers a s) (fail : ∀ e, r = .error e → fails (report e) s) :
    (Work.check report r).Ends s answers fails := by
  cases r with
  | ok a => exact answer a rfl
  | error e => exact fail e rfl

/-! ### Lists -/

section Lists

variable {Item : Type} {l : List Item}

theorem forM {f : Item → Work State Error Unit} (inv : List Item → State → Prop) (start : inv l s)
    (step : ∀ x rest t, inv (x :: rest) t → (f x).Ends t (fun _ u => inv rest u) fails) :
    (l.forM f).Ends s (fun _ t => inv [] t) fails := by
  induction l generalizing s with
  | nil => exact pure start
  | cons x l ih =>
    refine (step x l s start).bind fun _ t held => ?_
    exact ih held

/-- The invariant also knows what was found so far. -/
theorem filterMapM {f : Item → Work State Error (Option β)}
    (inv : List Item → List β → State → Prop) (start : inv l [] s)
    (step : ∀ x rest found t, inv (x :: rest) found t →
      (f x).Ends t (fun o u => inv rest (found ++ o.toList) u) fails) :
    (l.filterMapM f).Ends s (fun found t => inv [] found t) fails := by
  suffices loop : ∀ (rest : List Item) (turned : List β) (t : State), inv rest turned.reverse t →
      (List.filterMapM.loop f rest turned).Ends t (fun found t => inv [] found t) fails from
    loop l [] s start
  intro rest
  induction rest with
  | nil =>
    intro turned t held
    exact pure held
  | cons x rest ih =>
    intro turned t held
    refine (step x rest turned.reverse t held).bind fun o u held => ?_
    cases o with
    | none =>
      rw [Option.toList_none, List.append_nil] at held
      exact ih turned u held
    | some b =>
      rw [Option.toList_some, ← List.reverse_cons] at held
      exact ih (b :: turned) u held

theorem findSomeM? {f : Item → Work State Error (Option β)} (inv : List Item → State → Prop)
    (found : β → State → Prop) (start : inv l s)
    (step : ∀ x rest t, inv (x :: rest) t →
      (f x).Ends t (fun o u => o.elim (inv rest u) (found · u)) fails) :
    (l.findSomeM? f).Ends s (fun o t => o.elim (inv [] t) (found · t)) fails := by
  induction l generalizing s with
  | nil => exact pure start
  | cons x l ih =>
    refine (step x l s start).bind fun o t held => ?_
    cases o with
    | none => exact ih held
    | some b => exact pure held

theorem anyM {f : Item → Work State Error Bool} (inv : List Item → State → Prop)
    (met : State → Prop) (start : inv l s)
    (step : ∀ x rest t, inv (x :: rest) t →
      (f x).Ends t (fun b u => if b then met u else inv rest u) fails) :
    (l.anyM f).Ends s (fun b t => if b then met t else inv [] t) fails := by
  induction l generalizing s with
  | nil => exact pure start
  | cons x l ih =>
    refine (step x l s start).bind fun b t held => ?_
    cases b with
    | false => exact ih held
    | true => exact pure held

end Lists

end Ends

/-- Work that does not fail, and after it work that may. -/
theorem Answers.bind {w : Work State Error α} {f : α → Work State Error β} {s : State}
    {answers : α → State → Prop} {answers' : β → State → Prop} {fails : Error → State → Prop}
    (first : w.Answers s answers) (second : ∀ a t, answers a t → (f a).Ends t answers' fails) :
    (w >>= f).Ends s answers' fails :=
  Ends.bind (first.mono (fun _ _ => id) fun _ _ => False.elim) second

theorem Answers.ran {w : Work State Error α} {s : State} {answers : α → State → Prop}
    (h : w.Answers s answers) : ∃ x, (w.runOn s).1 = .ok x ∧ answers x (w.runOn s).2 := by
  rcases Ends.cases h with answered | ⟨_, _, impossible⟩
  · exact answered
  · exact impossible.elim

/-! ### What work keeps -/

/-- A property of states holds after the work, whether it answers or fails, if it held before. -/
def Keeps (inv : State → Prop) (w : Work State Error Answer) : Prop :=
  ∀ s, inv s → w.Ends s (fun _ t => inv t) fun _ t => inv t

namespace Keeps

variable {inv : State → Prop} {w : Work State Error α}

theorem after (h : w.Keeps inv) {s : State} (held : inv s) : inv (w.runOn s).2 := by
  obtain ⟨_, _, held⟩ | ⟨_, _, held⟩ := (h s held).cases
  · exact held
  · exact held

theorem bind {f : α → Work State Error β} (first : w.Keeps inv) (second : ∀ a, (f a).Keeps inv) :
    (w >>= f).Keeps inv :=
  fun s held => (first s held).bind fun a t held => second a t held

theorem pure {a : α} : (Pure.pure a : Work State Error α).Keeps inv := fun _ held => Ends.pure held

theorem throw {e : Error} : (MonadExcept.throw e : Work State Error α).Keeps inv :=
  fun _ held => Ends.throw held

theorem map {g : α → β} (first : w.Keeps inv) : (g <$> w).Keeps inv :=
  fun s held => (first s held).map fun _ _ => id

theorem check {report : Fault → Error} {r : Except Fault α} : (Work.check report r).Keeps inv :=
  fun _ held => Ends.check (fun _ _ => held) fun _ _ => held

theorem reporting {report : Fault → Error} {w : Work State Fault α} (h : w.Keeps inv) :
    (w.reporting report).Keeps inv :=
  fun s held => Ends.reporting (h s held)

theorem forM {Item : Type} {l : List Item} {f : Item → Work State Error Unit}
    (step : ∀ x, (f x).Keeps inv) : (l.forM f).Keeps inv :=
  fun _ held => Ends.forM (fun _ t => inv t) held fun x _ t held => step x t held

theorem filterMapM {Item : Type} {l : List Item} {f : Item → Work State Error (Option β)}
    (step : ∀ x, (f x).Keeps inv) : (l.filterMapM f).Keeps inv :=
  fun _ held => Ends.filterMapM (fun _ _ t => inv t) held fun x _ _ t held => step x t held

end Keeps

/-! ### What work upholds -/

/-- If a property of states held before, it holds afterwards; an answer is then `good` and an error
`allowed`. -/
def Upholds (inv : State → Prop) (allowed : Error → Prop) (good : Answer → Prop)
    (w : Work State Error Answer) : Prop :=
  ∀ s, inv s → w.Ends s (fun x t => good x ∧ inv t) fun e t => allowed e ∧ inv t

namespace Upholds

variable {inv : State → Prop} {allowed : Error → Prop} {good : α → Prop} {good' : β → Prop}
  {w : Work State Error α} {f : α → Work State Error β}

theorem keeps (h : w.Upholds inv allowed good) : w.Keeps inv :=
  fun s held => (h s held).mono (fun _ _ h => h.2) fun _ _ h => h.2

theorem bind (first : w.Upholds inv allowed good)
    (second : ∀ x, good x → (f x).Upholds inv allowed good') : (w >>= f).Upholds inv allowed good' := by
  intro s held
  apply (first s held).bind
  intro x t ⟨answer, held⟩
  exact second x answer t held

theorem next (first : w.Upholds inv allowed good)
    (second : ∀ x, (f x).Upholds inv allowed good') : (w >>= f).Upholds inv allowed good' :=
  first.bind fun x _ => second x

theorem pure {x : α} (answer : good x) : (Pure.pure x : Work State Error α).Upholds inv allowed good :=
  fun _ held => Ends.pure ⟨answer, held⟩

theorem throw {e : Error} (harmless : allowed e) :
    (MonadExcept.throw e : Work State Error α).Upholds inv allowed good :=
  fun _ held => Ends.throw ⟨harmless, held⟩

theorem mono {weaker : α → Prop} (h : w.Upholds inv allowed good) (answer : ∀ x, good x → weaker x) :
    w.Upholds inv allowed weaker :=
  fun s held => (h s held).mono (fun x _ h => ⟨answer x h.1, h.2⟩) fun _ _ => id

theorem mapM {Item : Type} {l : List Item} {f : Item → Work State Error β}
    (step : ∀ x ∈ l, (f x).Upholds inv allowed fun _ => True) :
    (l.mapM f).Upholds inv allowed fun _ => True := by
  induction l with
  | nil => exact pure trivial
  | cons x l ih =>
    rw [List.mapM_cons]
    apply (step x List.mem_cons_self).next
    intro b
    apply (ih fun y member => step y (List.mem_cons_of_mem x member)).next
    intro rest
    exact pure trivial

end Upholds

/-! ### What two runs have in common -/

/-- From related states the work comes to the same answer, or to the same error, which is `allowed`, and
to related states. -/
def Matches (rel : State → State → Prop) (allowed : Error → Prop) (w : Work State Error Answer) :
    Prop :=
  ∀ s s', rel s s' → (w.runOn s).1 = (w.runOn s').1 ∧
    (∀ e, (w.runOn s).1 = .error e → allowed e) ∧ rel (w.runOn s).2 (w.runOn s').2

namespace Matches

variable {rel : State → State → Prop} {allowed : Error → Prop} {w : Work State Error α}
  {f : α → Work State Error β}

theorem pure {a : α} : (Pure.pure a : Work State Error α).Matches rel allowed :=
  fun _ _ related => ⟨rfl, fun _ none => (by cases none), related⟩

theorem bind (first : w.Matches rel allowed) (second : ∀ a, (f a).Matches rel allowed) :
    (w >>= f).Matches rel allowed := by
  intro s s' related
  obtain ⟨same, harmless, after⟩ := first s s' related
  rcases ran : w.runOn s with ⟨e | a, t⟩
  · rcases ran' : w.runOn s' with ⟨e' | a', t'⟩
    · rw [ran, ran'] at same after
      rw [ran] at harmless
      rw [runOn_bind_error ran, runOn_bind_error ran']
      cases same
      refine ⟨rfl, fun _ failed => ?_, after⟩
      cases failed
      exact harmless e rfl
    · rw [ran, ran'] at same
      cases same
  · rcases ran' : w.runOn s' with ⟨e' | a', t'⟩
    · rw [ran, ran'] at same
      cases same
    · rw [ran, ran'] at same after
      rw [runOn_bind_ok ran, runOn_bind_ok ran']
      cases same
      exact second a t t' after

theorem map {g : α → β} (h : w.Matches rel allowed) : (g <$> w).Matches rel allowed := by
  rw [← bind_pure_comp]
  exact h.bind fun _ => pure

theorem forM {Item : Type} {l : List Item} {f : Item → Work State Error Unit}
    (step : ∀ x, (f x).Matches rel allowed) : (l.forM f).Matches rel allowed := by
  induction l with
  | nil => exact pure
  | cons x l ih => exact (step x).bind fun _ => ih

theorem filterMapM {Item : Type} {l : List Item} {f : Item → Work State Error (Option β)}
    (step : ∀ x, (f x).Matches rel allowed) : (l.filterMapM f).Matches rel allowed := by
  suffices loop : ∀ (rest : List Item) (turned : List β),
      (List.filterMapM.loop f rest turned).Matches rel allowed from loop l []
  intro rest
  induction rest with
  | nil => exact fun _ => pure
  | cons x rest ih =>
    intro turned
    refine (step x).bind fun o => ?_
    cases o with
    | none => exact ih turned
    | some b => exact ih (b :: turned)

end Matches

end DocumentShare.Work
