import DocumentShare.Proofs.Store.Plans

/-!
# Plans on storage that fails

Any operation of storage may fail and end the call that asked for it. `Holdings.Guards` is what holds
between any two steps of a plan all the same: the documents are counted, and of the payloads that were
there when the call began, those that are counted are there still. Nothing is released that is not to
spare, so no count is found to be zero (`Holdings.Rests.goes`).
-/

namespace DocumentShare

variable [Crypto]

namespace Holdings

/-- References are covered, payloads are under their digests, and those of `kept` that are counted
are there. -/
structure Guards (h : Holdings) (documents : Finset Document) (spare : Multiset Digest) (most : Nat)
    (kept : Set Digest) : Prop where
  covers : h.entries.Covers documents spare most
  hashes : ∀ key value, h.payloads.get? key = some value → key = (Crypto.digest value).bytes
  held : ∀ g ∈ kept, (h.payloads.get? g.bytes).isSome ∨ h.entries.count g = 0

/-- What holds after a call. -/
def Safe (most : Nat) (kept : Set Digest) (h : Holdings) : Prop :=
  ∃ documents, h.Guards documents 0 most kept

namespace Guards

variable {h : Holdings} {documents documents' : Finset Document} {spare : Multiset Digest} {most : Nat}
  {kept : Set Digest} {d cause : Document} {g : Digest} {o : Order} {moves : List Move}

theorem weaken (guards : h.Guards documents spare most kept) {most' : Nat} (more : most ≤ most')
    (room : most' < 256 ^ 8) : h.Guards documents 0 most' kept :=
  ⟨guards.covers.weaken more room, guards.hashes, guards.held⟩

theorem congr {h' : Holdings} (guards : h.Guards documents spare most kept)
    (entries : h'.entries = h.entries) (payloads : h'.payloads = h.payloads) :
    h'.Guards documents spare most kept := by
  refine ⟨?_, ?_, ?_⟩
  · rw [entries]
    exact guards.covers
  · rw [payloads]
    exact guards.hashes
  · rw [entries, payloads]
    exact guards.held

theorem safe (guards : h.Guards documents spare most kept) : h.Safe most kept :=
  ⟨documents, guards.weaken (Nat.le_refl most) guards.covers.room⟩

/-! ### Single steps -/

theorem drop (guards : h.Guards documents spare most kept) (live : d ∈ documents) :
    (h.step (.change ⟨.drop d, .identity⟩)).Guards (documents.erase d)
      (d.entry.payloadDigest ::ₘ spare) most kept where
  covers := guards.covers.drop live
  hashes := guards.hashes
  held g member := (guards.held g member).imp_right (Contents.count_change _).trans

theorem put (guards : h.Guards documents (d.entry.payloadDigest ::ₘ spare) most kept)
    (fits : (Move.put d).Fits documents) :
    (h.step (.change ⟨.put d, .identity⟩)).Guards (insert d documents) spare most kept where
  covers := guards.covers.add fits.2 fits.1
  hashes := guards.hashes
  held g member := (guards.held g member).imp_right (Contents.count_change _).trans

theorem index (guards : h.Guards documents spare most kept) {m : Move} {o : Order}
    (other : o ≠ .identity) : (h.step (.change ⟨m, o⟩)).Guards documents spare most kept where
  covers := guards.covers.index other
  hashes := guards.hashes
  held g member := (guards.held g member).imp_right (Contents.count_change _).trans

theorem tell (guards : h.Guards documents spare most kept) (e : Event) :
    (h.step (.tell e)).Guards documents spare most kept :=
  ⟨guards.covers, guards.hashes, guards.held⟩

theorem free_release (guards : h.Guards documents (g ::ₘ spare) most kept) :
    ¬(Step.release g).Barred h := by
  have covered := guards.covers.covered g
  rw [Multiset.count_cons_self] at covered
  rintro (narrow | zero)
  · exact narrow (guards.covers.wide g)
  · omega

theorem release (guards : h.Guards documents (g ::ₘ spare) most kept) :
    (h.step (.release g)).Guards documents spare most kept := by
  have covered := guards.covers.covered g
  rw [Multiset.count_cons_self] at covered
  rw [step]
  split
  · next more =>
    refine ⟨guards.covers.release_more, guards.hashes, fun g' member => ?_⟩
    have few := guards.covers.few g
    have room := guards.covers.room
    refine (guards.held g' member).imp_right fun zero => ?_
    rw [Contents.count_insert_reference (by omega), if_neg, zero]
    rintro rfl
    omega
  · refine ⟨guards.covers.release_last (by omega), guards.hashes, fun g' member => ?_⟩
    refine (guards.held g' member).imp_right fun zero => ?_
    rw [Contents.count_erase_reference, zero, ite_self]

theorem erase (guards : h.Guards documents spare most kept) (d cause : Document) :
    (h.step (.erase d cause)).Guards documents spare most kept := by
  rw [step]
  split
  · exact guards
  · next uncounted =>
    refine ⟨guards.covers, fun key value stored => ?_, fun g member => ?_⟩
    · rw [Contents.get?_erase] at stored
      split at stored
      · cases stored
      · exact guards.hashes key value stored
    · by_cases same : g = d.entry.payloadDigest
      · rw [Option.not_isSome_iff_eq_none] at uncounted
        refine .inr ?_
        rw [same, Contents.count, uncounted]
        rfl
      · rw [Contents.get?_erase_of_ne fun bytes => same (Block.ext bytes)]
        exact guards.held g member

/-! ### Moves -/

theorem goes_drop (guards : h.Guards documents spare most kept) (live : d ∈ documents)
    (cause : Document) :
    Goes (Safe most kept) h ((Move.drop d).steps cause) ∧
      (h.after ((Move.drop d).steps cause)).Guards (documents.erase d) spare most kept := by
  have entry := guards.drop live
  have path := entry.index (m := .drop d) (o := .path) (by decide)
  have time := path.index (m := .drop d) (o := .timestamp) (by decide)
  have told := time.tell (.entryRemoved d cause)
  have released := told.release
  have erased := released.erase d cause
  exact ⟨.cons guards.safe id <| .cons entry.safe id <| .cons path.safe id <| .cons time.safe id <|
    .cons told.safe told.free_release <| .cons released.safe id <| .nil erased.safe, erased⟩

theorem goes_put (guards : h.Guards documents (d.entry.payloadDigest ::ₘ spare) most kept)
    (fits : (Move.put d).Fits documents) (cause : Document) :
    Goes (Safe most kept) h ((Move.put d).steps cause) ∧
      (h.after ((Move.put d).steps cause)).Guards (insert d documents) spare most kept := by
  have entry := guards.put fits
  have path := entry.index (m := .put d) (o := .path) (by decide)
  have time := path.index (m := .put d) (o := .timestamp) (by decide)
  exact ⟨.cons guards.safe id <| .cons entry.safe id <| .cons path.safe id <| .nil time.safe, time⟩

/-- What is counted in advance is spent by the documents that come. -/
theorem goes_moves (guards : h.Guards documents (Move.awaited moves) most kept)
    (course : Course documents moves documents') (cause : Document) :
    Goes (Safe most kept) h (moves.flatMap (Move.steps cause)) ∧
      (h.after (moves.flatMap (Move.steps cause))).Guards documents' 0 most kept := by
  induction course generalizing h with
  | nil => exact ⟨.nil guards.safe, guards⟩
  | @cons documents documents' m moves fits rest ih =>
    rw [List.flatMap_cons, after_append]
    cases m with
    | put d =>
      obtain ⟨first, guards⟩ := guards.goes_put fits cause
      obtain ⟨later, guards⟩ := ih guards
      exact ⟨first.append later, guards⟩
    | drop d =>
      obtain ⟨first, guards⟩ := guards.goes_drop fits cause
      obtain ⟨later, guards⟩ := ih guards
      exact ⟨first.append later, guards⟩

end Guards

theorem Safe.goes_tell {h : Holdings} {most : Nat} {kept : Set Digest} (safe : h.Safe most kept)
    (told : List Event) : Goes (Safe most kept) h (told.map .tell) := by
  induction told generalizing h with
  | nil => exact .nil safe
  | cons e told ih =>
    obtain ⟨documents, guards⟩ := safe
    exact .cons guards.safe id (ih ⟨documents, guards.tell e⟩)

/-! ### Plans -/

/-- What holds of an archive as long as a call only reads and stores its payload. -/
structure Rests (h : Holdings) (documents : Finset Document) (most : Nat) (kept : Set Digest) :
    Prop where
  guards : h.Guards documents 0 most kept
  intact : ∀ g ∈ kept, (h.payloads.get? g.bytes).isSome
  room : most + 1 < 256 ^ 8

namespace Rests

variable {h : Holdings} {a : Archive} {documents : Finset Document} {most : Nat} {kept : Set Digest}
  {d : Document} {g : Digest} {may : Document → Prop} {brings : Bytes → Prop} {steps : List Step}

theorem lists (rests : h.Rests documents most kept) : h.entries.Lists documents :=
  rests.guards.covers.lists

theorem safe (rests : h.Rests documents most kept) : h.Safe (most + 1) kept :=
  ⟨documents, rests.guards.weaken (Nat.le_succ most) rests.room⟩

theorem store (rests : h.Rests documents most kept) (payload : Bytes) :
    (h.step (.store payload)).Rests documents most kept := by
  have intact : ∀ g ∈ kept, ((h.step (.store payload)).payloads.get? g.bytes).isSome := by
    intro g member
    rw [step, Contents.get?_insert]
    split
    · rfl
    · exact rests.intact g member
  refine ⟨⟨rests.guards.covers, fun key value found => ?_, fun g member => .inl (intact g member)⟩,
    intact, rests.room⟩
  rw [step, Contents.get?_insert] at found
  split at found
  · next same =>
    cases found
    exact same
  · exact rests.guards.hashes key value found

/-- A payload is counted before anything is erased, so those that are there stay. -/
theorem retain (rests : h.Rests documents most kept) (g : Digest) :
    (h.step (.retain g)).Guards documents {g} (most + 1) kept where
  covers := rests.guards.covers.retain rests.room g
  hashes := rests.guards.hashes
  held g member := .inl (rests.intact g member)

theorem goes_plan (rests : a.holdings.Rests documents most kept)
    (readable : Document.decode d.encode = .ok d) (payload : Option Bytes) (told : List Event) :
    Goes (Safe (most + 1) kept) a.holdings (a.plan d payload told) := by
  obtain ⟨documents', course⟩ := Archive.course_moves (d := d) rests.lists readable
  have written {h : Holdings} (rests : h.Rests documents most kept) : Goes (Safe (most + 1) kept) h
      (.retain d.entry.payloadDigest :: (a.moves d).flatMap (Move.steps d) ++ told.map .tell) := by
    have counted := rests.retain d.entry.payloadDigest
    rw [← Move.awaited_writing (a.inPlaceOf d) d (a.documents.filter d.entry.prunes)] at counted
    obtain ⟨moved, guards⟩ := counted.goes_moves course d
    have free : ¬(Step.retain d.entry.payloadDigest).Barred h :=
      fun narrow => narrow (rests.guards.covers.wide _)
    exact .cons rests.safe free (moved.append (guards.safe.goes_tell told))
  rw [Archive.plan, List.append_assoc]
  cases payload with
  | none => exact written rests
  | some p => exact .cons rests.safe id (written (rests.store p))

theorem goes (rests : a.holdings.Rests documents most kept)
    (readable : ∀ d, may d → Document.decode d.encode = .ok d) (plans : a.Plans may brings steps) :
    Goes (Safe (most + 1) kept) a.holdings steps := by
  cases plans with
  | nothing => exact .nil rests.safe
  | @arrival payload e _ =>
    have stored := rests.store payload
    obtain ⟨documents, guards⟩ := stored.safe
    exact .cons rests.safe id (.cons stored.safe id (.nil ⟨documents, guards.tell e⟩))
  | write allowed _ => exact rests.goes_plan (readable _ allowed) _ _

end Rests

end Holdings

end DocumentShare
