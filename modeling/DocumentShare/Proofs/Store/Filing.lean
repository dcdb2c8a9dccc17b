import DocumentShare.Proofs.Store.Performing

/-!
# What a store files

A property of single records holds between any two steps, so it holds whatever fails and whenever. `Filing`
says which records a store writes. Every call keeps to them (`Filing.of_call`), and whatever reads them
finds no corrupt document (`ArchiveWork.Minds`).
-/

namespace DocumentShare

open Work

/-- No document was found that cannot be read. -/
def StoreError.Sane : StoreError → Prop
  | invariant (.corruptEntry _) => False
  | _ => True

namespace Contents

/-- Every record is as `fits` says. -/
def Every (c : Contents) (fits : Bytes → Bytes → Prop) : Prop :=
  ∀ key value, c.get? key = some value → fits key value

namespace Every

variable {c : Contents} {fits : Bytes → Bytes → Prop} {key value : Bytes}

theorem empty : Contents.empty.Every fits := by
  intro key value stored
  rw [get?_empty] at stored
  cases stored

theorem erase (every : c.Every fits) (key : Bytes) : (c.erase key).Every fits := by
  intro key' value stored
  rw [get?_erase] at stored
  split at stored
  · cases stored
  · exact every key' value stored

theorem insert (every : c.Every fits) (here : fits key value) : (c.insert key value).Every fits := by
  intro key' value' stored
  rw [get?_insert] at stored
  split at stored
  · next same =>
    cases stored
    rw [same]
    exact here
  · exact every key' value' stored

end Every

end Contents

/-- Records as `fits` allows them: the documents that are `good`, with their indexes and counts, and
under the keys of entries only what can be read. -/
structure Filing (fits : Bytes → Bytes → Prop) (good : Document → Prop) : Prop where
  record : ∀ key value, Key.entries.contains key → fits key value →
    ∃ d : Document, key = d.key ∧ value = d.encode ∧ Document.decode d.encode = .ok d
  document : ∀ d, good d → fits d.key d.encode
  path : ∀ e : Entry, fits (Key.pathIndex e) (Key.entry e.identity e.path)
  time : ∀ e : Entry, fits (Key.timeIndex e) (Key.entry e.identity e.path)
  count : ∀ g n, fits (Key.reference g) (Bytes.ofNat 8 n)

/-- Records stay as `fits` says, and no document is reported as corrupt. -/
abbrev ArchiveWork.Minds {α : Type} (w : ArchiveWork α) (fits : Bytes → Bytes → Prop)
    (good : α → Prop) : Prop :=
  w.Upholds (fun a => a.entries.contents.Every fits) StoreError.Sane good

theorem Work.Upholds.sane {State α : Type} {inv : State → Prop} {good : α → Prop}
    {w : Work State StoreError α} (h : w.Upholds inv StoreError.Sane good) (s : State) (held : inv s)
    (reason : String) : (w.runOn s).1 ≠ .error (.invariant (.corruptEntry reason)) := by
  intro corrupt
  obtain ⟨x, answer, _⟩ | ⟨e, failure, sane, _⟩ := (h s held).cases
  · rw [answer] at corrupt
    cases corrupt
  · rw [failure] at corrupt
    obtain rfl := Except.error.inj corrupt
    exact sane

namespace Archive

variable {α : Type} {fits : Bytes → Bytes → Prop}

/-! ### Operations of storage -/

theorem minds_onEntries {w : BackendWork α} {answer : Backend → α} {c : Backend → Contents}
    {good : α → Prop} (does : ∀ b, Backend.Does w b (answer b) (c b))
    (after : ∀ b : Backend, b.contents.Every fits → good (answer b) ∧ (c b).Every fits) :
    (onEntries w).Minds fits good := by
  intro a every
  obtain ⟨found, kept⟩ := after a.entries every
  apply onEntries_ends
  apply (does a.entries).mono
  · intro x b ⟨same, contents, _⟩
    show good x ∧ b.contents.Every fits
    rw [same, contents]
    exact ⟨found, kept⟩
  · intro e b ⟨contents, _⟩
    show StoreError.Sane (.ofStorage e) ∧ b.contents.Every fits
    rw [contents]
    exact ⟨trivial, every⟩

theorem minds_onPayloads (w : BackendWork α) : (onPayloads w).Minds fits fun _ => True := by
  intro a every
  apply onPayloads_ends
  apply (Ends.any w _).mono
  · intro _ _ _
    exact ⟨trivial, every⟩
  · intro e _ _
    exact ⟨trivial, every⟩

theorem minds_get (key : Bytes) :
    (onEntries (Backend.get key)).Minds fits fun o => ∀ value, o = some value → fits key value :=
  minds_onEntries (Backend.does_get · key) fun _ every => ⟨every key, every⟩

theorem minds_ask : askItem.Minds fits fun _ => True :=
  minds_onEntries (Backend.does_ask · .scan) fun _ every => ⟨trivial, every⟩

theorem minds_begin : (onEntries Backend.beginScan).Minds fits fun _ => True :=
  minds_onEntries Backend.does_begin fun _ every => ⟨trivial, every⟩

theorem minds_scan (range : KeyRange) (direction : Direction) :
    (onEntries (Backend.scan range direction)).Minds fits fun items =>
      ∀ x ∈ items, range.contains x.1 ∧ fits x.1 x.2 := by
  apply minds_onEntries (Backend.does_scan · range direction)
  intro b every
  refine ⟨?_, every⟩
  intro x member
  have there : x ∈ b.contents.within range := by
    cases direction with
    | ascending => exact member
    | descending => exact List.mem_reverse.mp member
  obtain ⟨stored, inside⟩ := Contents.mem_within.mp there
  exact ⟨inside, every _ _ stored⟩

end Archive

namespace Filing

open Archive

variable {fits : Bytes → Bytes → Prop} {good : Document → Prop}

theorem ofStored (filing : Filing fits good) {key value : Bytes} (family : Key.entries.contains key)
    (here : fits key value) : (Archive.ofStored value).Minds fits fun _ => True := by
  obtain ⟨d, _, rfl, read⟩ := filing.record key value family here
  rw [Archive.ofStored, read]
  exact .pure trivial

theorem documentAt (filing : Filing fits good) {key : Bytes} (family : Key.entries.contains key) :
    (Archive.documentAt key).Minds fits fun _ => True := by
  apply (minds_get key).bind
  intro found here
  cases found with
  | none => exact .pure trivial
  | some value =>
    apply (filing.ofStored family (here value rfl)).next
    intro d
    exact .pure trivial

theorem get (filing : Filing fits good) (identity : Identity) (path : Path) :
    (Archive.get identity path).Minds fits fun _ => True :=
  filing.documentAt (Key.entries_contains.mpr ⟨_, rfl⟩)

end Filing

/-! ### Steps -/

namespace Filing

variable {fits : Bytes → Bytes → Prop} {good may : Document → Prop}

theorem lists (filing : Filing fits good) {c : Contents} (every : c.Every fits) :
    ∃ documents, c.Lists documents := by
  let documents := ((c.within Key.entries).filterMap fun x => (Document.decode x.2).toOption).toFinset
  have member (d : Document) : d ∈ documents ↔
      c.get? d.key = some d.encode ∧ Document.decode d.encode = .ok d := by
    simp only [documents, List.mem_toFinset, List.mem_filterMap]
    constructor
    · rintro ⟨⟨key, value⟩, there, read⟩
      obtain ⟨stored, inside⟩ := Contents.mem_within.mp there
      obtain ⟨d', rfl, rfl, read'⟩ := filing.record key value inside (every key value stored)
      rw [read'] at read
      cases read
      exact ⟨stored, read'⟩
    · intro ⟨stored, read⟩
      refine ⟨(d.key, d.encode), Contents.mem_within.mpr ⟨stored, d.key_inside⟩, ?_⟩
      rw [read]
      rfl
  refine ⟨documents, fun key value inside => ⟨fun stored => ?_, ?_⟩, fun d live => ((member d).mp live).2⟩
  · obtain ⟨d, rfl, rfl, read⟩ := filing.record key value inside (every key value stored)
    exact ⟨d, (member d).mpr ⟨stored, read⟩, rfl, rfl⟩
  · rintro ⟨d, live, rfl, rfl⟩
    exact ((member d).mp live).1

variable [Crypto] {h : Holdings} {steps : List Step}

theorem step (filing : Filing fits good) {step : Step}
    (puts : ∀ d o, step = .change ⟨.put d, o⟩ → good d) (every : h.entries.Every fits) :
    (h.step step).entries.Every fits := by
  cases step with
  | change ch =>
    obtain ⟨m, o⟩ := ch
    cases m with
    | drop d => exact every.erase _
    | put d =>
      refine every.insert ?_
      cases o with
      | identity => exact filing.document d (puts d .identity rfl)
      | path => exact filing.path d.entry
      | timestamp => exact filing.time d.entry
  | retain g => exact every.insert (filing.count g _)
  | release g =>
    rw [Holdings.step]
    split
    · exact every.insert (filing.count g _)
    · exact every.erase _
  | erase d cause =>
    rw [Holdings.step]
    split
    · exact every
    · exact every
  | store payload => exact every
  | tell e => exact every

theorem after (filing : Filing fits good) (puts : ∀ d o, .change ⟨.put d, o⟩ ∈ steps → good d)
    (every : h.entries.Every fits) : (h.after steps).entries.Every fits := by
  induction steps generalizing h with
  | nil => exact every
  | cons step steps ih =>
    have here := filing.step (fun d o same => puts d o (same ▸ List.mem_cons_self)) every
    exact ih (fun d o later => puts d o (List.mem_cons_of_mem step later)) here

end Filing

/-! ### Calls -/

namespace Archive

variable {α : Type} {a b : Archive} {may : Document → Prop} {brings : Bytes → Prop} {steps : List Step}

theorem Plans.puts (plans : a.Plans may brings steps) {d : Document} {o : Order}
    (member : .change ⟨.put d, o⟩ ∈ steps) : may d := by
  cases plans with
  | nothing => cases member
  | arrival _ => simp at member
  | @write d' payload told allowed _ =>
    simp only [plan, List.mem_append, List.mem_cons, List.mem_map, List.mem_flatMap, reduceCtorEq,
      and_false, exists_false, or_false, false_or] at member
    obtain ⟨m, moving, there⟩ := member
    cases m with
    | put e =>
      simp only [Move.steps, Move.changes, List.map_cons, List.map_nil, List.mem_cons,
        Step.change.injEq, Change.mk.injEq, Move.put.injEq, List.not_mem_nil, or_false,
        ← and_or_left] at there
      rw [there.1, Move.put_mem_writing.mp moving]
      exact allowed
    | drop e => simp [Move.steps, Move.changes] at there

theorem Stopped.sane {h : Holdings} {e : StoreError} (stopped : a.Stopped h steps e) : e.Sane := by
  cases stopped with
  | storage error _ => trivial
  | @count _ _ fault _ ofCount =>
    cases fault with
    | corruptEntry reason => exact ofCount.elim
    | _ => trivial

end Archive

theorem StoreError.Refuses.sane {e : StoreError} (refuses : e.Refuses) : e.Sane := by
  cases e with
  | invariant fault => exact absurd rfl (refuses.notInvariant fault)
  | _ => trivial

/-- Whatever a call comes to, the records are as they are filed and none was found to be corrupt. -/
theorem Filing.of_call [Crypto] {fits : Bytes → Bytes → Prop} {good : Document → Prop}
    (filing : Filing fits good) {s : Store} {t : Site} (apart : s.Apart)
    (authorises : s.Authorises t good)
    (accepts : ∀ d : Document, d.entry.share = s.share → d.token.authorises d.entry → good d)
    (every : (s.archive t).entries.contents.Every fits) (c : Call) :
    (s.archive ((s.perform c).runOn t).2).entries.contents.Every fits ∧
      ∀ e, ((s.perform c).runOn t).1 = .error e → e.Sane := by
  obtain ⟨documents, lists⟩ := filing.lists every
  have came := Store.came_of_call apart lists authorises c
  constructor
  · obtain ⟨steps, done, left, planned, rfl, here⟩ := came.front
    have puts : ∀ d o, .change ⟨.put d, o⟩ ∈ done → good d := by
      intro d o member
      rcases planned with none | ⟨r, performs⟩
      · rw [(List.append_eq_nil_iff.mp none).1] at member
        cases member
      · exact ((performs.plans accepts).puts (List.mem_append_left left member)).2
    rw [show (s.archive ((s.perform c).runOn t).2).entries.contents = _ from congrArg Holdings.entries here]
    exact filing.after puts every
  · intro e failure
    rw [failure] at came
    rcases came.failed with ⟨steps, performs⟩ | ⟨steps, stopped⟩
    · exact performs.refuses.1.sane
    · exact stopped.sane

end DocumentShare
