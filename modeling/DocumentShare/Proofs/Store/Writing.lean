import DocumentShare.Proofs.Store.Guarding
import DocumentShare.Proofs.Store.Making
import DocumentShare.Proofs.Store.Outcomes
import DocumentShare.Proofs.Store.Tracking

/-!
# Plans on a ledger

While the backends of an archive work, its plans are made to their end and take its ledger to another one
(`Holdings.Leads`). A move of a document is one change of the ledger, and the moves of a write are the
ledger's own insertion of the document (`Holdings.leads_plan`). Counts are eight bytes long, so there has
to be room for one more document.
-/

namespace DocumentShare

open Work

namespace Ledger

/-- What ingesting an entry comes to, and the ledger afterwards. -/
inductive Ingests [Crypto] (l : Ledger) (share : Share) (e : Entry) (t : Token)
    (payload : Option Bytes) : Outcome → Ledger → Prop
  | refused {error : StoreError} (h : Archive.refusal? share e t payload = some error) :
      Ingests l share e t payload (.refused error) l
  | obsolete (accepted : Archive.refusal? share e t payload = none) (h : l.Obsoletes e) :
      Ingests l share e t payload .obsolete l
  | written {previous : Option Document} {stale : List Document}
      (accepted : Archive.refusal? share e t payload = none) (newest : ¬l.Obsoletes e)
      (here : l.At e.identity e.path previous) (pruned : l.Stale e stale) :
      Ingests l share e t payload (.success ⟨e, t⟩ (stale.map Document.path))
        (l.acceptance ⟨e, t⟩ payload.isSome previous stale)

/-! ### Moves -/

variable {l : Ledger} {d cause : Document} {m : Move} {moves : List Move}

def move (cause : Document) (l : Ledger) : Move → Ledger
  | .put d => l.add d
  | .drop d => l.remove d cause

def moved (l : Ledger) (moves : List Move) (cause : Document) : Ledger := moves.foldl (move cause) l

theorem documents_move : (l.move cause m).documents = m.applyTo l.documents := by
  cases m with
  | put d => rfl
  | drop d => exact documents_remove

theorem insertion_eq_moved (previous : Option Document) (stale : List Document) :
    l.insertion d previous stale
      = (l.retain d.entry.payloadDigest).moved (Move.writing previous d stale) d := by
  unfold moved Move.writing insertion replacement removeAll
  rw [List.foldl_append, List.foldl_cons, List.foldl_map, List.foldl_map]
  rfl

/-- A document that is put spends what was counted in advance for it. -/
theorem Balanced.move (balanced : l.Balanced (Move.awaited (m :: moves))) (fits : m.Fits l.documents)
    (cause : Document) : (l.move cause m).Balanced (Move.awaited moves) := by
  cases m with
  | put d => exact balanced.add fun live => fits.2 d live rfl
  | drop d => exact balanced.remove fits cause

end Ledger

/-! ### Steps -/

variable [Crypto]

/-- What is held is what the ledger describes. -/
structure Holdings.Tracks (h : Holdings) (l : Ledger) : Prop where
  describes : l.Describes h.entries h.payloads
  sound : l.Sound
  told : h.events = l.events

namespace Holdings.Tracks

variable {h : Holdings} {l : Ledger} {d : Document} {m : Move} {documents' : Finset Document}

theorem count (tracks : h.Tracks l) (g : Digest) : h.entries.count g = l.references.count g := by
  unfold Contents.count
  cases found : h.entries.get? (Key.reference g) with
  | none =>
    symm
    rw [Option.map_none, Option.getD_none, Multiset.count_eq_zero]
    intro counted
    rw [(tracks.describes.records _ _).mpr (.count counted)] at found
    cases found
  | some value =>
    obtain ⟨_, rfl⟩ := Ledger.holds_reference.mp ((tracks.describes.records _ value).mp found)
    have few : l.references.count g < 256 ^ 8 :=
      Nat.lt_of_le_of_lt (Multiset.count_le_card g l.references) tracks.sound.few
    rw [Option.map_some, Option.getD_some, Bytes.toNat_ofNat_of_lt few]

theorem tell (tracks : h.Tracks l) (e : Event) : (h.step (.tell e)).Tracks (l.tell e) :=
  ⟨tracks.describes.retold _, tracks.sound.retold _, congrArg (e :: ·) tracks.told⟩

theorem tells (tracks : h.Tracks l) (told : List Event) :
    (h.after (told.map .tell)).Tracks (told.foldl Ledger.tell l) := by
  induction told generalizing h l with
  | nil => exact tracks
  | cons e told ih => exact ih (tracks.tell e)

theorem store (tracks : h.Tracks l) (payload : Bytes) :
    (h.step (.store payload)).Tracks (l.store (Crypto.digest payload)) where
  describes := tracks.describes.store payload
  sound := ⟨tracks.sound.distinct, tracks.sound.readable, tracks.sound.few⟩
  told := tracks.told

theorem retain (tracks : h.Tracks l) (room : l.references.card + 1 < 256 ^ 8) (g : Digest) :
    (h.step (.retain g)).Tracks (l.retain g) := by
  refine ⟨?_, tracks.sound.retain room, tracks.told⟩
  rw [step, tracks.count]
  exact tracks.describes.retain g

/-- The payload of a document goes with the last count of it, and this is told. -/
theorem release (tracks : h.Tracks l) (counted : d.entry.payloadDigest ∈ l.references)
    (cause : Document) :
    (h.after [.release d.entry.payloadDigest, .erase d cause]).Tracks
      (if l.erases d.entry.payloadDigest then
        (l.release d.entry.payloadDigest).tell (.payloadRemoved d.entry.payloadDigest d cause)
      else l.release d.entry.payloadDigest) := by
  generalize same : d.entry.payloadDigest = g at counted
  have fewer : (l.release g).Sound := ⟨tracks.sound.distinct, tracks.sound.readable,
    Nat.lt_of_le_of_lt (Multiset.card_le_card (Multiset.erase_le g _)) tracks.sound.few⟩
  have left : g ∈ l.references.erase g ↔ 1 < l.references.count g := by
    rw [← Multiset.count_pos, Multiset.count_erase_self]
    omega
  have positive := Multiset.count_pos.mpr counted
  show ((h.step (.release g)).step (.erase d cause)).Tracks _
  rw [step, tracks.count]
  split
  · next more =>
    have kept : l.erases g = false := by simp [Ledger.erases, left.mpr more]
    rw [kept, if_neg Bool.false_ne_true, step, same, Contents.get?_insert, if_pos rfl]
    exact ⟨tracks.describes.release_more more, fewer, tracks.told⟩
  · next notMore =>
    have gone : g ∉ l.references.erase g := mt left.mp notMore
    have last : l.references.count g = 1 := by omega
    have stored : (h.payloads.get? g.bytes).isSome = l.erases g := by
      rw [Bool.eq_iff_iff, ← tracks.describes.stored g]
      simp [Ledger.erases, gone]
    have released := tracks.describes.release_last last
    rw [step, same, Contents.get?_erase, if_pos rfl, if_neg (by simp), stored]
    split
    · exact ⟨released.retold _, fewer.retold _, congrArg _ tracks.told⟩
    · exact ⟨released, fewer, tracks.told⟩

/-! ### Moves -/

theorem move (tracks : h.Tracks l) (fits : m.Fits l.documents)
    (counted : ∀ d ∈ l.documents, d.entry.payloadDigest ∈ l.references) (cause : Document) :
    (h.after (m.steps cause)).Tracks (l.move cause m) := by
  cases m with
  | put d => exact ⟨tracks.describes.add fits.2, tracks.sound.add fits.2 fits.1, tracks.told⟩
  | drop d =>
    let dropped := (l.drop d).tell (.entryRemoved d cause)
    have gone : (h.after ((Move.drop d).changes.map .change ++ [.tell (.entryRemoved d cause)])).Tracks
        dropped := by
      refine ⟨(tracks.describes.drop tracks.sound fits).retold _, ?_, congrArg _ tracks.told⟩
      refine ⟨fun e there f there' => ?_, fun e there => ?_, tracks.sound.few⟩
      · exact tracks.sound.distinct e (Finset.mem_of_mem_erase there) f
          (Finset.mem_of_mem_erase there')
      · exact tracks.sound.readable e (Finset.mem_of_mem_erase there)
    exact gone.release (counted d fits) cause

theorem moves {moves : List Move} (tracks : h.Tracks l) (balanced : l.Balanced (Move.awaited moves))
    (course : Course l.documents moves documents') (cause : Document) :
    (h.after (moves.flatMap (Move.steps cause))).Tracks (l.moved moves cause) := by
  generalize before : l.documents = documents at course
  induction course generalizing h l with
  | nil => exact tracks
  | @cons documents documents' m moves fits rest ih =>
    subst before
    rw [List.flatMap_cons, after_append]
    have moved := tracks.move fits (fun d live => balanced.counted live) cause
    exact ih moved (balanced.move fits cause) Ledger.documents_move

end Holdings.Tracks

/-! ### Plans -/

namespace Archive.Tracks

variable {a : Archive} {l : Ledger} {d : Document}

theorem holdings (tracks : a.Tracks l) : a.holdings.Tracks l :=
  ⟨tracks.describes, tracks.sound, tracks.shows.eventsAre⟩

theorem works (tracks : a.Tracks l) : a.Works := ⟨tracks.shows.entriesWork, tracks.shows.payloadsWork⟩

theorem of_holdings (works : a.Works) (tracks : a.holdings.Tracks l) : a.Tracks l :=
  ⟨⟨works.entries, works.payloads, rfl, rfl, tracks.told⟩, tracks.describes, tracks.sound⟩

theorem inPlaceOf (tracks : a.Tracks l) (d : Document) : l.At d.identity d.path (a.inPlaceOf d) :=
  inPlaceOf_eq_some_iff tracks.lists

theorem stale (tracks : a.Tracks l) (e : Entry) : l.Stale e (a.documents.filter e.prunes) := by
  obtain ⟨ascending, member⟩ := tracks.documents
  refine ⟨ascending.filter _, fun d => ?_⟩
  rw [List.mem_filter, member]
  simp only [Entry.prunes, Path.isStrictPrefixOf_iff, Bool.and_eq_true, decide_eq_true_eq, and_assoc]

theorem obsoletes_iff (tracks : a.Tracks l) (e : Entry) : a.Obsoletes e ↔ l.Obsoletes e := by
  obtain ⟨_, member⟩ := tracks.documents
  unfold Archive.Obsoletes Ledger.Obsoletes
  simp only [member]

/-- Every payload is counted as often as documents have it. -/
theorem rests (tracks : a.Tracks l) (balanced : l.Balanced 0)
    (room : l.documents.card + 1 < 256 ^ 8) :
    a.holdings.Rests l.documents l.references.card ∅ := by
  have card : l.references.card = l.documents.card := by
    rw [balanced.card, Multiset.card_zero, Nat.zero_add]
  refine ⟨⟨⟨tracks.lists, fun g value found => ?_, fun g => ?_, fun g => ?_, tracks.sound.few⟩,
    tracks.describes.hashes, fun g member => absurd member (Set.notMem_empty g)⟩,
    fun g member => absurd member (Set.notMem_empty g), card ▸ room⟩
  · obtain ⟨_, rfl⟩ := Ledger.holds_reference.mp ((tracks.describes.records _ value).mp found)
    exact Bytes.length_ofNat 8 _
  · rw [tracks.holdings.count, balanced, Multiset.count_zero, Multiset.count_add, Multiset.count_zero]
  · rw [tracks.holdings.count]
    exact Multiset.count_le_card g l.references

end Archive.Tracks

/-- None of the steps is barred, and what is held after them is what the ledger describes. -/
structure Holdings.Leads (h : Holdings) (steps : List Step) (l : Ledger) : Prop where
  free : Goes (fun _ => True) h steps
  tracks : (h.after steps).Tracks l

namespace Archive

variable {α : Type} {a b : Archive} {l l' : Ledger} {d : Document} {steps : List Step}

theorem Tracks.leads_nil (tracks : a.Tracks l) : a.holdings.Leads [] l :=
  ⟨.nil trivial, tracks.holdings⟩

theorem Tracks.leads_arrival (tracks : a.Tracks l) {payload : Bytes} {g : Digest}
    (named : Crypto.digest payload = g) (e : Event) :
    a.holdings.Leads [.store payload, .tell e] ((l.store g).tell e) := by
  refine ⟨.cons trivial id (.cons trivial id (.nil trivial)), ?_⟩
  rw [← named]
  exact (tracks.holdings.store payload).tell e

theorem Tracks.leads_plan (tracks : a.Tracks l) (balanced : l.Balanced 0)
    (room : l.documents.card + 1 < 256 ^ 8) (readable : Document.decode d.encode = .ok d)
    {payload : Option Bytes} (named : ∀ p ∈ payload, Crypto.digest p = d.entry.payloadDigest)
    (told : List Event) :
    a.holdings.Leads (a.plan d payload told)
      (told.foldl Ledger.tell ((l.bring d payload.isSome).insertion d (a.inPlaceOf d)
        (a.documents.filter d.entry.prunes))) := by
  refine ⟨((tracks.rests balanced room).goes_plan readable payload told).mono fun _ _ => trivial, ?_⟩
  have brought : (a.holdings.after (payload.toList.map .store)).Tracks (l.bring d payload.isSome) := by
    cases payload with
    | none => exact tracks.holdings
    | some p =>
      have stored := tracks.holdings.store p
      rw [named p rfl] at stored
      exact stored
  have few : (l.bring d payload.isSome).references.card + 1 < 256 ^ 8 := by
    rw [Ledger.references_bring, balanced.card, Multiset.card_zero, Nat.zero_add]
    exact room
  have counted := brought.retain few d.entry.payloadDigest
  have balanced' : ((l.bring d payload.isSome).retain d.entry.payloadDigest).Balanced
      (Move.awaited (a.moves d)) := by
    rw [moves, Move.awaited_writing]
    exact balanced.bring.retain _
  have lists : a.entries.contents.Lists (l.bring d payload.isSome).documents := by
    rw [Ledger.documents_bring]
    exact tracks.lists
  obtain ⟨documents', course⟩ := course_moves lists readable
  have moved := counted.moves balanced' course d
  rw [Ledger.insertion_eq_moved, plan, Holdings.after_append, Holdings.after_append]
  exact moved.tells told

theorem Tracks.leads_written (tracks : a.Tracks l) (balanced : l.Balanced 0)
    (room : l.documents.card + 1 < 256 ^ 8) (readable : Document.decode d.encode = .ok d)
    {payload : Bytes} (named : Crypto.digest payload = d.entry.payloadDigest) :
    a.holdings.Leads (a.plan d (some payload) [.documentSet d])
      (((l.bring d true).insertion d (a.inPlaceOf d) (a.documents.filter d.entry.prunes)).tell
        (.documentSet d)) := by
  refine tracks.leads_plan balanced room readable ?_ [.documentSet d]
  rintro p ⟨⟩
  exact named

/-! ### Work on a tracked archive -/

/-- On storage that works, steps that are not barred are all made. -/
theorem Tracks.makes {w : ArchiveWork α} {good : α → Prop} (tracks : a.Tracks l)
    (makes : w.Makes a.holdings steps good) (leads : a.holdings.Leads steps l') :
    w.Answers a fun x b => good x ∧ b.Tracks l' := by
  apply (makes a rfl).mono
  · intro x b ⟨answer, made⟩
    refine ⟨answer, .of_holdings (made.works tracks.works) ?_⟩
    rw [made.holdings]
    exact leads.tracks
  · rintro e b ⟨done, left, rfl, here, stopped⟩
    have free := leads.free.stopped.2
    rw [← here] at free
    cases stopped with
    | storage _ broken => exact broken tracks.works
    | count barred _ => exact free _ rfl barred

/-- What an archive came to is a step of its ledger if each of the plans is. -/
theorem Came.tracks {plans : Except StoreError α → List Step → Prop}
    {does : Except StoreError α → Ledger → Prop} {r : Except StoreError α} (came : a.Came plans r b)
    (tracks : a.Tracks l)
    (leads : ∀ r steps, plans r steps → ∃ l', does r l' ∧ a.holdings.Leads steps l') :
    ∃ l', does r l' ∧ b.Tracks l' := by
  have free (r : Except StoreError α) (steps : List Step) (plan : plans r steps) :
      Holdings.Goes (fun _ => True) a.holdings steps := by
    obtain ⟨_, _, leads⟩ := leads r steps plan
    exact leads.free
  obtain ⟨_, ⟨steps, plan, made⟩ | ⟨broken, _⟩⟩ := came.goes free trivial
  · obtain ⟨l', done, leads⟩ := leads r steps plan
    refine ⟨l', done, .of_holdings (made.works tracks.works) ?_⟩
    rw [made.holdings]
    exact leads.tracks
  · exact absurd tracks.works broken

theorem Ingests.leads {share : Share} {e : Entry} {t : Token} {payload : Option Bytes}
    {r : Except StoreError Outcome} (ingests : a.Ingests share e t payload r steps) (tracks : a.Tracks l)
    (balanced : l.Balanced 0) (room : ¬l.Obsoletes e → l.documents.card + 1 < 256 ^ 8) :
    ∃ l', (∃ o, r = .ok o ∧ l.Ingests share e t payload o l') ∧ a.holdings.Leads steps l' := by
  cases ingests with
  | refused refusal => exact ⟨l, ⟨_, rfl, .refused refusal⟩, tracks.leads_nil⟩
  | obsolete accepted older =>
    exact ⟨l, ⟨_, rfl, .obsolete accepted ((tracks.obsoletes_iff e).mp older)⟩, tracks.leads_nil⟩
  | written accepted newest =>
    obtain ⟨_, proof, matching⟩ := refusal?_eq_none.mp accepted
    have readable := Document.decode_encode (d := ⟨e, t⟩) (Token.upright_of_authorises proof)
    have newest : ¬l.Obsoletes e := mt (tracks.obsoletes_iff e).mpr newest
    have leads := tracks.leads_plan balanced (room newest) readable
      (fun p member => (matchesPayload_iff.mp (matching p member)).2) (Event.ofIngest ⟨e, t⟩ payload)
    refine ⟨_, ⟨_, rfl, .written accepted newest (tracks.inPlaceOf ⟨e, t⟩) (tracks.stale e)⟩, ?_⟩
    cases payload with
    | none => exact leads
    | some p => exact leads

end Archive

end DocumentShare
