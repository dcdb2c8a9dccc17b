import DocumentShare.Proofs.Store.Retention

/-!
# Calls that are refused

Every check of a call comes before its first step, and on storage that works a write which has begun is
finished, also where earlier writes were not. So a call leaves the archive as it was unless it answers that
it has written (`refused_of_run`).
-/

namespace DocumentShare

section

variable [Crypto]

/-- Whether a call answers that it has written an entry or a payload. -/
def Exchange.wrote (x : Exchange) : Bool :=
  match x.reply with
  | .ok (.outcome (.success _ _)) => true
  | .ok (.document _) => true
  | .ok (.arrived accepted) => accepted
  | _ => false

/-- The entry that a call would set, and whether it may prune. -/
def Call.setting? (share : Share) : Call → Option (Entry × Bool)
  | .set identity path payload timestamp prune =>
    some (Store.entryOf share identity path timestamp payload, prune)
  | .setAtAddress address path payload timestamp prune =>
    (Identifier.parse .identity address).toOption.map fun identity =>
      (Store.entryOf share identity path timestamp payload, prune)
  | _ => none

theorem Call.setting?_of_onCredentials {c : Call} {share : Share} (aside : c.onCredentials) :
    c.setting? share = none := by
  cases c <;> first | rfl | cases aside

namespace Archive

variable {s : Store} {a : Archive} {good : Document → Prop} {c : Call} {r : Except StoreError Reply}
  {steps : List Step} {e : Entry} {prune : Bool} {ds : List Document}

/-- A call that makes a step answers that it has written. -/
theorem Performs.unwritten (performs : a.Performs s good c r steps)
    (unwritten : Exchange.wrote ⟨c, r⟩ = false) : steps = [] := by
  cases performs with
  | set sets =>
    cases sets with
    | written => cases unwritten
    | _ => rfl
  | setAtAddress _ sets =>
    cases sets with
    | written => cases unwritten
    | _ => rfl
  | clear clears =>
    cases clears with
    | written => cases unwritten
    | _ => rfl
  | ingest ingests =>
    cases ingests with
    | written => cases unwritten
    | _ => rfl
  | ingestPayload receives =>
    cases receives with
    | arrived => cases unwritten
    | unclaimed => rfl
  | _ => rfl

omit [Crypto] in
/-- Pruning is prevented iff it is not permitted and something would be pruned, and it is this that is
answered. -/
theorem Sets.prevented_iff {payload : Bytes} {o : Except StoreError Outcome}
    (sets : a.Sets good e payload prune o steps) :
    o = .ok (.pruningPrevented ds) ↔
      prune = false ∧ ds ≠ [] ∧ ds = a.documents.filter e.prunes := by
  -- Whatever else is answered, pruning was permitted or there was nothing to prune.
  have otherwise (permitted : a.documents.filter e.prunes ≠ [] → prune = true) :
      ¬(prune = false ∧ ds ≠ [] ∧ ds = a.documents.filter e.prunes) := by
    rintro ⟨forbidden, some, rfl⟩
    rw [permitted some] at forbidden
    cases forbidden
  cases sets with
  | prevented some forbidden =>
    constructor
    · rintro ⟨⟩
      exact ⟨forbidden, some, rfl⟩
    · rintro ⟨_, _, rfl⟩
      rfl
  | failed permitted _ => exact iff_of_false (by rintro ⟨⟩) (otherwise permitted)
  | unauthorised permitted => exact iff_of_false (by rintro ⟨⟩) (otherwise permitted)
  | obsolete permitted _ => exact iff_of_false (by rintro ⟨⟩) (otherwise permitted)
  | written permitted _ _ => exact iff_of_false (by rintro ⟨⟩) (otherwise permitted)

omit [Crypto] in
theorem map_outcome_eq {r : Except StoreError Outcome} {o : Outcome} :
    r.map Reply.outcome = .ok (.outcome o) ↔ r = .ok o := by
  cases r with
  | error e => simp [Except.map]
  | ok o' => simp [Except.map]

theorem Performs.prevented_iff (performs : a.Performs s good c r steps)
    (setting : c.setting? s.share = some (e, prune)) :
    r = .ok (.outcome (.pruningPrevented ds)) ↔
      prune = false ∧ ds ≠ [] ∧ ds = a.documents.filter e.prunes := by
  have ofArchive : ¬c.onCredentials := by
    intro aside
    rw [Call.setting?_of_onCredentials aside] at setting
    cases setting
  cases performs with
  | set sets =>
    cases setting
    rw [map_outcome_eq]
    exact sets.prevented_iff
  | setAtAddress named sets =>
    rw [Call.setting?, named] at setting
    cases setting
    rw [map_outcome_eq]
    exact sets.prevented_iff
  | misnamed misnamed =>
    rw [Call.setting?, misnamed] at setting
    cases setting
  | pack aside _ => exact absurd aside ofArchive
  | done aside => exact absurd aside ofArchive
  | barred aside _ => exact absurd aside ofArchive
  | clear => cases setting
  | ingest => cases setting
  | ingestPayload => cases setting

end Archive

namespace Store

omit [Crypto] in
theorem works_mended (s : Store) (t : Site) :
    (s.archive (s.afflict (fun _ => none) (fun _ => none) t)).Works := by
  refine ⟨fun op => ?_, fun op => ?_⟩
  · simp [archive, afflict]
  · simp [archive, afflict]

end Store

/-- A call that does not answer that it has written leaves the store as it was, and a write is
prevented iff it may not prune and would have to. -/
theorem refused_of_run {s : Store} {t u : Site} {log : List Exchange} (apart : s.Apart)
    (vacant : s.Vacant t) (run : s.Run s.Untouched t log u) (few : log.length + 1 < 2 ^ 64)
    (works : (s.archive u).Works) (c : Call) :
    let r := ((s.perform c).runOn u).1
    let v := ((s.perform c).runOn u).2
    (Exchange.wrote ⟨c, r⟩ = false →
      (s.archive v).entries.contents = (s.archive u).entries.contents ∧
      (s.archive v).payloads.contents = (s.archive u).payloads.contents ∧
      (s.archive v).events = (s.archive u).events) ∧
    (∀ e prune, c.setting? s.share = some (e, prune) → ∀ ds,
      r = .ok (.outcome (.pruningPrevented ds)) ↔
        prune = false ∧ ds ≠ [] ∧ ds = (s.archive u).documents.filter e.prunes) ∧
    ∀ e, r = .error e → e.Refuses := by
  intro r v
  obtain ⟨safe, _⟩ := Store.safe_of_run apart vacant run (by omega)
  obtain ⟨documents, rests⟩ := safe.rests few
  obtain ⟨_, ⟨steps, performs, made⟩ | ⟨broken, _⟩⟩ := Store.performs_of_rests apart rests c
  · refine ⟨fun unwritten => ?_, fun e prune setting ds => performs.prevented_iff setting, ?_⟩
    · have same := made.holdings
      rw [performs.unwritten unwritten] at same
      exact ⟨congrArg Holdings.entries same, congrArg Holdings.payloads same,
        congrArg Holdings.events same⟩
    · intro e failed
      have refused : (s.archive u).Performs s _ c r steps := performs
      rw [failed] at refused
      exact refused.refuses.1
  · exact absurd works broken

end

section Sample

open Crypto.Transparent

attribute [local instance] Crypto.transparent

/-- A fourth write fails midway and storage is mended. A write at the empty path is then prevented
for the one document that is left below. -/
theorem refused_of_run_after_failed_write :
    let after := sample.performAll threeWrites [] blank
    let struck := sample.afflict
      (fun op => if op = .set then some ⟨.backend "full", 1⟩ else none) (fun _ => none) after.2
    let c : Call := .set (identity 1) (path 8) [2] 10 false
    let fallen := (sample.perform c).runOn struck
    let log := ⟨c, fallen.1⟩ :: after.1
    let mended := sample.afflict (fun _ => none) (fun _ => none) fallen.2
    let e := Store.entryOf (share 1) (identity 1) .empty 11 [3]
    let above : Call := .set (identity 1) .empty [3] 11 false
    let r := ((sample.perform above).runOn mended).1
    let v := ((sample.perform above).runOn mended).2
    let below := (sample.archive mended).documents.filter e.prunes
    (sample.Apart ∧ sample.Vacant blank ∧ sample.Run sample.Untouched blank log mended ∧
      log.length + 1 < 2 ^ 64 ∧ (sample.archive mended).Works ∧
      Exchange.wrote ⟨above, r⟩ = false) ∧
    r = .ok (.outcome (.pruningPrevented below)) ∧ below.length = 1 ∧
    (sample.archive v).entries.contents = (sample.archive mended).entries.contents ∧
    (sample.archive v).payloads.contents = (sample.archive mended).payloads.contents ∧
    (sample.archive v).events = (sample.archive mended).events := by
  intro after struck c fallen log mended e above r v below
  have vacant : sample.Vacant blank := ⟨rfl, rfl⟩
  have run : sample.Run sample.Untouched blank log mended := by
    have begun : sample.Run sample.Untouched blank after.1 after.2 :=
      Store.Run.start.performAll threeWrites
    have out : sample.Run sample.Untouched blank after.1 struck :=
      begun.aside (sample.untouched_afflict _ _ after.2)
    exact (out.call c).aside (sample.untouched_afflict _ _ fallen.2)
  have few : log.length + 1 < 2 ^ 64 := by decide +kernel
  have works : (sample.archive mended).Works := sample.works_mended fallen.2
  have one : below.length = 1 := by decide +kernel
  have some : below ≠ [] := List.ne_nil_of_length_pos (by omega)
  obtain ⟨left, prevented, _⟩ := refused_of_run sample_apart vacant run few works above
  have answered := (prevented e false rfl below).mpr ⟨rfl, some, rfl⟩
  have refused : Exchange.wrote ⟨above, r⟩ = false := by
    rw [show r = _ from answered]
    rfl
  exact ⟨⟨sample_apart, vacant, run, few, works, refused⟩, answered, one, left refused⟩

end Sample

end DocumentShare
