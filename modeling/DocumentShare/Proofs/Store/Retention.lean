import DocumentShare.Proofs.Store.Guarding
import DocumentShare.Proofs.Store.Performing

/-!
# Payloads are retained

Whatever storage fails at and whenever, the documents of a store keep their payloads
(`retained_of_run`). The counts may come to exceed the documents, and indexes may come to point
nowhere, but the next calls start from what the failed ones left.
-/

namespace DocumentShare

open Work

namespace Archive

variable {a : Archive} {g : Digest}

/-- A document that is stored has the payload. -/
def RefersTo (a : Archive) (g : Digest) : Prop := ∃ d ∈ a.documents, d.entry.payloadDigest = g

instance : Decidable (a.RefersTo g) :=
  inferInstanceAs (Decidable (∃ d ∈ a.documents, d.entry.payloadDigest = g))

theorem countP_documents {documents : Finset Document}
    (lists : a.entries.contents.Lists documents) :
    a.documents.countP (fun d => d.entry.payloadDigest = g)
      = (Ledger.digests documents).count g := by
  obtain ⟨ascending, member⟩ := documents_of_lists lists
  have distinct := Document.nodup_of_ascending ascending
  have all : a.documents.toFinset = documents := by
    ext d
    rw [List.mem_toFinset, member]
  have digests : Ledger.digests documents = a.documents.map (fun d => d.entry.payloadDigest) := by
    rw [← all, Ledger.digests, List.toFinset_val, distinct.dedup, Multiset.map_coe]
  rw [digests, Multiset.coe_count, List.count_eq_countP, List.countP_map]
  rfl

end Archive

namespace Holdings

variable [Crypto] {h : Holdings} {a : Archive} {most : Nat} {kept : Set Digest} {g : Digest}

theorem Safe.rests (safe : h.Safe most kept) (room : most + 1 < 256 ^ 8) :
    ∃ documents, h.Rests documents most { g | (h.payloads.get? g.bytes).isSome } := by
  obtain ⟨documents, guards⟩ := safe
  exact ⟨documents, ⟨guards.covers, guards.hashes, fun _ => .inl⟩, fun _ => id, room⟩

theorem Safe.forget (safe : h.Safe most kept) : h.Safe most ∅ := by
  obtain ⟨documents, guards⟩ := safe
  exact ⟨documents, guards.covers, guards.hashes, fun g member => by cases member⟩

theorem Safe.stores (safe : a.holdings.Safe most kept) (member : g ∈ kept) (needed : a.RefersTo g) :
    a.stores g := by
  obtain ⟨documents, guards⟩ := safe
  obtain ⟨d, there, rfl⟩ := needed
  have live := ((Archive.documents_of_lists guards.covers.lists).2 d).mp there
  have positive := guards.covers.positive live
  have held : a.stores d.entry.payloadDigest ∨ a.entries.contents.count d.entry.payloadDigest = 0 :=
    guards.held _ member
  refine held.resolve_right ?_
  exact Nat.ne_of_gt positive

end Holdings

namespace Store

variable [Crypto] {s : Store} {t u : Site} {documents : Finset Document} {most : Nat}
  {kept : Set Digest}

/-! ### Runs -/

/-- Neither documents nor payloads are stored. -/
structure Vacant (s : Store) (t : Site) : Prop where
  entries : (s.archive t).entries.contents = .empty
  payloads : (s.archive t).payloads.contents = .empty

/-- What the store holds is still there. All else may have changed, also what its backends fail
at. -/
structure Untouched (s : Store) (t u : Site) : Prop where
  entries : (s.archive u).entries.contents = (s.archive t).entries.contents
  payloads : (s.archive u).payloads.contents = (s.archive t).payloads.contents

/-- The site with other outages of the backends that a store is kept in. -/
def afflict (s : Store) (entries payloads : Operation → Option Outage) (t : Site) : Site :=
  { t with
    backends := t.backends.set s.entries { t.backends.get s.entries with outages := entries }
    payloads := t.payloads.set s.payloads { t.payloads.get s.payloads with outages := payloads } }

omit [Crypto] in
theorem untouched_afflict (s : Store) (entries payloads : Operation → Option Outage)
    (t : Site) : s.Untouched t (s.afflict entries payloads t) where
  entries := by simp [archive, afflict]
  payloads := by simp [archive, afflict]

theorem Vacant.safe (vacant : s.Vacant t) : (s.archive t).holdings.Safe 0 ∅ := by
  refine ⟨∅, ?_, ?_, ?_⟩
  · rw [Archive.holdings, vacant.entries]
    exact .empty
  · intro key value stored
    rw [Archive.holdings, vacant.payloads, Contents.get?_empty] at stored
    cases stored
  · intro g member
    cases member

theorem Untouched.safe (untouched : s.Untouched t u) (safe : (s.archive t).holdings.Safe most kept) :
    (s.archive u).holdings.Safe most kept := by
  obtain ⟨documents, guards⟩ := safe
  exact ⟨documents, guards.congr untouched.entries untouched.payloads⟩

/-- A call on an archive at rest leaves it safe, and nothing but storage breaks the call off. -/
theorem performs_of_rests (apart : s.Apart) (rests : (s.archive t).holdings.Rests documents most kept)
    (c : Call) :
    (s.archive ((s.perform c).runOn t).2).holdings.Safe (most + 1) kept ∧
      ((∃ steps, (s.archive t).Performs s (·.token.capability.Upright) c ((s.perform c).runOn t).1 steps ∧
          (s.archive t).Made steps (s.archive ((s.perform c).runOn t).2)) ∨
        ¬(s.archive t).Works ∧ ∃ error, ((s.perform c).runOn t).1 = .error (.ofStorage error)) := by
  apply (came_of_call apart rests.lists (authorises_upright apart) c).goes
  · intro r steps performs
    refine rests.goes (fun d ⟨_, upright⟩ => Document.decode_encode upright) (performs.plans ?_)
    exact fun d _ => Token.upright_of_authorises
  · exact rests.safe

theorem safe_of_call (apart : s.Apart) (safe : (s.archive t).holdings.Safe most ∅)
    (room : most + 1 < 256 ^ 8) (c : Call) :
    (s.archive ((s.perform c).runOn t).2).holdings.Safe (most + 1) { g | (s.archive t).stores g } ∧
      ∀ fault, ((s.perform c).runOn t).1 ≠ .error (.invariant fault) := by
  obtain ⟨documents, rests⟩ := safe.rests room
  obtain ⟨safe, course⟩ := performs_of_rests apart rests c
  refine ⟨safe, fun fault failed => ?_⟩
  rw [failed] at course
  rcases course with ⟨steps, performs, _⟩ | ⟨_, error, storage⟩
  · exact performs.refuses.1.notInvariant fault rfl
  · cases storage

theorem safe_of_run {log : List Exchange} (apart : s.Apart) (vacant : s.Vacant t)
    (run : s.Run s.Untouched t log u) (few : log.length < 256 ^ 8) :
    (s.archive u).holdings.Safe log.length ∅ ∧ ∀ x ∈ log, ∀ fault, x.reply ≠ .error (.invariant fault) := by
  induction run with
  | start => exact ⟨vacant.safe, fun x member => by cases member⟩
  | aside run untouched ih =>
    obtain ⟨safe, sane⟩ := ih few
    exact ⟨untouched.safe safe, sane⟩
  | @call log u run c ih =>
    rw [List.length_cons] at few
    obtain ⟨safe, sane⟩ := ih (by omega)
    obtain ⟨safe, harmless⟩ := safe_of_call apart safe few c
    refine ⟨safe.forget, fun x member => ?_⟩
    rcases List.mem_cons.mp member with rfl | member
    · exact harmless
    · exact sane x member

/-- A run that goes on from `u` and its log, with `p` at every site from there on. -/
inductive Throughout (s : Store) (aside : Site → Site → Prop) (p : Site → Prop)
    (log : List Exchange) (u : Site) : List Exchange → Site → Prop
  | start (holds : p u) : Throughout s aside p log u log u
  | call {log' : List Exchange} {v : Site} (run : Throughout s aside p log u log' v) (c : Call)
      (holds : p ((s.perform c).runOn v).2) :
      Throughout s aside p log u (⟨c, ((s.perform c).runOn v).1⟩ :: log') ((s.perform c).runOn v).2
  | aside {log' : List Exchange} {v w : Site} (run : Throughout s aside p log u log' v)
      (besides : aside v w) (holds : p w) : Throughout s aside p log u log' w

section Continuing

variable {aside : Site → Site → Prop} {p : Site → Prop} {log log' : List Exchange} {v : Site}

theorem Throughout.run (later : s.Throughout aside p log u log' v) (run : s.Run aside t log u) :
    s.Run aside t log' v := by
  induction later with
  | start => exact run
  | call _ c _ ih => exact ih.call c
  | aside _ besides _ ih => exact ih.aside besides

theorem stores_of_throughout {g : Digest} (apart : s.Apart) (vacant : s.Vacant t)
    (run : s.Run s.Untouched t log u)
    (later : s.Throughout s.Untouched (fun w => (s.archive w).RefersTo g) log u log' v)
    (few : log'.length < 256 ^ 8) (stored : (s.archive u).stores g) : (s.archive v).stores g := by
  induction later with
  | start => exact stored
  | @aside log' v w later untouched needed ih =>
    rw [Archive.stores, untouched.payloads]
    exact ih few
  | @call log' v later c needed ih =>
    rw [List.length_cons] at few
    have safe := (safe_of_run apart vacant (later.run run) (by omega)).1
    exact (safe_of_call apart safe few c).1.stores (ih (by omega)) needed

end Continuing

end Store

/-- Whatever failed: every entry reads back, payloads are counted at least as often as documents
have them and stay while one does, and no call finds the store contradicting itself. -/
theorem retained_of_run [Crypto] {s : Store} {t u : Site} {log : List Exchange} (apart : s.Apart)
    (vacant : s.Vacant t) (run : s.Run s.Untouched t log u) (few : log.length < 2 ^ 64) :
    (∀ key value, (s.archive u).entries.contents.get? key = some value → Key.entries.contains key →
      ∃ d ∈ (s.archive u).documents, key = Key.entry d.identity d.path ∧
        Document.decode value = .ok d) ∧
    (∀ g, (s.archive u).documents.countP (fun d => d.entry.payloadDigest = g) ≤
      (s.archive u).entries.contents.count g) ∧
    (∀ x ∈ log, ∀ fault, x.reply ≠ .error (.invariant fault)) ∧
    ∀ g payload, (s.archive u).payloads.contents.get? g.bytes = some payload →
      ∀ log' v, log'.length < 2 ^ 64 →
        s.Throughout s.Untouched (fun w => (s.archive w).RefersTo g) log u log' v →
        ∃ payload', (s.archive v).payloads.contents.get? g.bytes = some payload' ∧
          Crypto.digest payload' = Crypto.digest payload := by
  obtain ⟨⟨documents, guards⟩, sane⟩ := Store.safe_of_run apart vacant run few
  have lists := guards.covers.lists
  refine ⟨fun key value stored inside => ?_, fun g => ?_, sane, ?_⟩
  · obtain ⟨d, live, place, rfl⟩ := (lists.records key value inside).mp stored
    exact ⟨d, ((Archive.documents_of_lists lists).2 d).mpr live, place, lists.readable d live⟩
  · rw [Archive.countP_documents lists]
    exact (Nat.le_add_left _ _).trans (guards.covers.covered g)
  · intro g payload there log' v few' later
    have stored : (s.archive u).stores g := by
      rw [Archive.stores, there]
      rfl
    have kept := Store.stores_of_throughout apart vacant run later few' stored
    obtain ⟨payload', there'⟩ := Option.isSome_iff_exists.mp kept
    obtain ⟨_, guards'⟩ := (Store.safe_of_run apart vacant (later.run run) few').1
    refine ⟨payload', there', Block.ext ?_⟩
    rw [← guards'.hashes _ _ there', guards.hashes _ _ there]

section Sample

open Crypto.Transparent

attribute [local instance] Crypto.transparent

/-- Storage fails when a fourth document is to be stored, with the payload of the first: that
payload is then counted once too often. -/
theorem retained_of_run_failed_write :
    let after := sample.performAll threeWrites [] blank
    let struck := sample.afflict
      (fun op => if op = .set then some ⟨.backend "full", 1⟩ else none) (fun _ => none) after.2
    let c : Call := .set (identity 1) (path 8) [2] 10 false
    let fallen := (sample.perform c).runOn struck
    let log := ⟨c, fallen.1⟩ :: after.1
    let g : Digest := .fit 32 [2]
    (sample.Apart ∧ sample.Vacant blank ∧ sample.Run sample.Untouched blank after.1 after.2 ∧
      after.1.length < 2 ^ 64 ∧ log.length < 2 ^ 64 ∧
      sample.Throughout sample.Untouched (fun w => (sample.archive w).RefersTo g) after.1 after.2
        log fallen.2) ∧
    (∃ payload, (sample.archive fallen.2).payloads.contents.get? g.bytes = some payload ∧
      Crypto.digest payload = g) ∧
    fallen.1 = .error (.storage "Storage backend error: full") ∧
    (sample.archive after.2).documents.length = 2 ∧
    (sample.archive fallen.2).documents.length = 1 ∧
    (sample.archive fallen.2).entries.contents.count g = 2 := by
  intro after struck c fallen log g
  have vacant : sample.Vacant blank := ⟨rfl, rfl⟩
  have run : sample.Run sample.Untouched blank after.1 after.2 := Store.Run.start.performAll threeWrites
  have later : sample.Throughout sample.Untouched (fun w => (sample.archive w).RefersTo g) after.1
      after.2 log fallen.2 := by
    have begun : sample.Throughout sample.Untouched (fun w => (sample.archive w).RefersTo g) after.1
        after.2 after.1 after.2 := .start (by decide +kernel)
    have out := begun.aside (sample.untouched_afflict _ _ after.2) (w := struck) (by decide +kernel)
    exact out.call c (by decide +kernel)
  have few : after.1.length < 2 ^ 64 := by decide +kernel
  have few' : log.length < 2 ^ 64 := by decide +kernel
  have there : (sample.archive after.2).payloads.contents.get? g.bytes = some [2] := by
    decide +kernel
  obtain ⟨_, _, _, stays⟩ := retained_of_run sample_apart vacant run few
  refine ⟨⟨sample_apart, vacant, run, few, few', later⟩, stays g [2] there _ _ few' later, ?_⟩
  decide +kernel

end Sample

end DocumentShare
