import DocumentShare.Proofs.Store.Coherence
import DocumentShare.Proofs.Store.Replaying

/-!
# What subscribers are told

A subscriber that misses nothing knows the documents of a store from those that there were when it
subscribed and from what it is told (`rebuilt_of_heard`). A call tells first of what gives way to the
document that it writes and then of that document, and of a payload only if the last of its documents
went (`Ledger.Announces`).
-/

namespace DocumentShare

open Work

/-! ### What a call tells -/

section

variable [Crypto]

def Call.announcement : Call → Document → Event
  | .ingest _ _ _ => .entryIngest
  | _ => .documentSet

/-- What is told of an exchange: what gives way to the document that it writes, then that document,
and then its payload. An exchange that writes no document tells of nothing but payloads. -/
def Exchange.TellsInOrder (x : Exchange) (told : List Event) : Prop :=
  match x.written? with
  | some (d, _) => ∃ removals arrivals, told = removals ++ x.call.announcement d :: arrivals ∧
      (∀ e ∈ removals, e.isRemovalFor d) ∧ ∀ e ∈ arrivals, e = .payloadIngest d
  | none => ∀ e ∈ told, ∃ d, e = .payloadIngest d

theorem Call.after?_announcement (c : Call) (documents : Finset Document) (d : Document) :
    Event.after? documents (c.announcement d) =
      some (insert d (documents.filter (·.place ≠ d.place))) := by
  cases c with
  | ingest => rfl
  | _ => rfl

theorem Call.not_isErasureOf_announcement (c : Call) (d : Document) (g : Digest) :
    ¬Event.isErasureOf g (c.announcement d) := by
  cases c with
  | ingest => exact Bool.false_ne_true
  | _ => exact Bool.false_ne_true

namespace Ledger

/-- What is told, the first first, of an exchange that is a step of the ledger. -/
structure Announces (l : Ledger) (x : Exchange) (told : List Event) (l' : Ledger) : Prop where
  events : l'.events = told.reverse ++ l.events
  ordered : x.TellsInOrder told
  replays : Event.replay l.documents told = some l'.documents
  erased : ∀ g, told.countP (Event.isErasureOf g) = if g ∈ l.payloads ∧ g ∉ l'.payloads then 1 else 0

section Steps

variable {l l' : Ledger} {d : Document} {previous : Option Document} {stale : List Document}
  {x : Exchange}

theorem announces_silent (l : Ledger) (unwritten : x.written? = none) : l.Announces x [] l where
  events := rfl
  ordered := by
    unfold Exchange.TellsInOrder
    rw [unwritten]
    exact fun e member => absurd member List.not_mem_nil
  replays := rfl
  erased g := by simp

omit [Crypto] in
theorem Sound.single (sound : l.Sound) : Event.Single l.documents :=
  fun d live e live' same => sound.distinct d live e live' (Document.key_eq_of_place same)

omit [Crypto] in
theorem erasures_arrivals {arrivals : List Event} (arrived : ∀ e ∈ arrivals, e = .payloadIngest d)
    (g : Digest) : arrivals.countP (Event.isErasureOf g) = 0 := by
  refine List.countP_eq_zero.mpr fun e member => ?_
  rw [arrived e member]
  exact Bool.false_ne_true

omit [Crypto] in
/-- A payload that a write brings is not lost by it. -/
theorem Wrote.lost_iff {brought : Bool} (wrote : l.Wrote d brought previous stale l')
    (balanced : l.Balanced 0) (backed : l.Backed) (g : Digest) :
    (g ∈ (l.bring d brought).payloads ∧ g ∉ l'.payloads) ↔ g ∈ l.payloads ∧ g ∉ l'.payloads := by
  refine and_congr_left fun gone => ?_
  cases brought with
  | false => rfl
  | true =>
    have counted := (wrote.balanced balanced).counted wrote.live
    have kept := (wrote.mem_payloads backed).mpr ⟨.inr ⟨rfl, rfl⟩, counted⟩
    refine Finset.mem_insert.trans (or_iff_right ?_)
    rintro rfl
    exact gone kept

omit [Crypto] in
/-- What a document takes the place of, and what it prunes, were there, each once. -/
theorem Wrote.leaving {brought : Bool} (wrote : l.Wrote d brought previous stale l') :
    (∀ e ∈ previous.toList ++ stale, e ∈ l.documents) ∧ (previous.toList ++ stale).Nodup := by
  constructor
  · intro e member
    rcases List.mem_append.mp member with replaced | pruned
    · exact ((wrote.here e).mp (Option.mem_toList.mp replaced)).1
    · exact ((wrote.pruned.mem_iff e).mp pruned).1
  · refine List.nodup_append.mpr ⟨by cases previous <;> simp, wrote.pruned.nodup, ?_⟩
    rintro e replaced f pruned rfl
    obtain ⟨_, _, here⟩ := (wrote.here e).mp (Option.mem_toList.mp replaced)
    obtain ⟨_, _, _, elsewhere, _⟩ := (wrote.pruned.mem_iff e).mp pruned
    exact elsewhere here

theorem Wrote.announces {brought : Bool} (wrote : l.Wrote d brought previous stale l')
    (sound : l.Sound) (balanced : l.Balanced 0) (backed : l.Backed)
    (written : x.written? = some (d, brought)) (arrivals : List Event)
    (arrived : ∀ e ∈ arrivals, e = .payloadIngest d)
    (events : l'.events = arrivals.reverse ++
      x.call.announcement d :: ((l.bring d brought).insertion d previous stale).events) :
    ∃ told, l.Announces x told l' := by
  obtain ⟨removals, removes⟩ := removes_insertion (l.bring d brought) d previous stale
  refine ⟨removals ++ x.call.announcement d :: arrivals, ?_, ?_, ?_, fun g => ?_⟩
  · have before : (l.bring d brought).events = l.events := by
      unfold bring
      split
      · rfl
      · rfl
    rw [events, removes.events, before]
    simp
  · unfold Exchange.TellsInOrder
    rw [written]
    exact ⟨removals, arrivals, rfl, removes.removals, arrived⟩
  · obtain ⟨live, distinct⟩ := wrote.leaving
    rw [Event.replay_append (removes.replays l.documents sound.single live distinct), Event.replay,
      List.foldlM_cons, Call.after?_announcement]
    refine (Event.replay_arrivals arrived).trans (congrArg some ?_)
    ext e
    rw [wrote.mem_documents, Finset.mem_insert, Finset.mem_filter, Finset.mem_sdiff,
      List.mem_toFinset, List.mem_append, Option.mem_toList, not_or, and_assoc]
    refine or_congr_right (and_congr_right fun there => ?_)
    constructor
    · rintro ⟨⟨notReplaced, notPruned⟩, _⟩
      exact ⟨notReplaced, notPruned⟩
    · rintro ⟨notReplaced, notPruned⟩
      refine ⟨⟨notReplaced, notPruned⟩, fun same => notReplaced ?_⟩
      obtain ⟨identities, paths⟩ := Prod.mk.inj same
      exact (wrote.here e).mpr ⟨there, identities, paths⟩
  · rw [List.countP_append, List.countP_cons_of_neg (Call.not_isErasureOf_announcement _ d g),
      erasures_arrivals arrived, removes.erased, ← wrote.payloads]
    simp only [wrote.lost_iff balanced backed g, Nat.add_zero]

theorem Sets.announces {e : Entry} {prune : Bool} {r : Except StoreError Outcome}
    (h : l.Sets e prune r l') (sound : l.Sound) (balanced : l.Balanced 0) (backed : l.Backed)
    {c : Call} (brings : c.brings = true) (announcement : c.announcement = .documentSet) :
    ∃ told, l.Announces ⟨c, r.map .outcome⟩ told l' := by
  cases h with
  | prevented pruned some forbidden => exact ⟨[], l.announces_silent rfl⟩
  | failed error => exact ⟨[], l.announces_silent rfl⟩
  | unauthorised => exact ⟨[], l.announces_silent rfl⟩
  | obsolete h => exact ⟨[], l.announces_silent rfl⟩
  | @written token previous stale newest upright here pruned permitted =>
    have wrote := Ledger.wrote_tell (d := ⟨e, token⟩) true here pruned (.documentSet ⟨e, token⟩)
    refine wrote.announces sound balanced backed ?_ [] (by simp) ?_
    · exact congrArg (fun b => some (_, b)) brings
    · exact congrArg (fun put => put ⟨e, token⟩ :: _) announcement.symm

theorem Clears.announces {s : Store} {identity : Identity} {path : Path}
    {r : Except StoreError Document} (h : l.Clears s identity path r l') (sound : l.Sound)
    (balanced : l.Balanced 0) (backed : l.Backed) :
    ∃ told, l.Announces ⟨.clear identity path, r.map .document⟩ told l' := by
  cases h with
  | absent here => exact ⟨[], l.announces_silent rfl⟩
  | failed error => exact ⟨[], l.announces_silent rfl⟩
  | unauthorised here => exact ⟨[], l.announces_silent rfl⟩
  | @written existing token stale here upright pruned =>
    have wrote := Ledger.wrote_tell (d := ⟨s.clearing existing identity path, token⟩) true here pruned
      (.documentSet ⟨s.clearing existing identity path, token⟩)
    exact wrote.announces sound balanced backed rfl [] (by simp) rfl

theorem Ingests.announces {share : Share} {e : Entry} {t : Token} {payload : Option Bytes}
    {o : Outcome} (h : l.Ingests share e t payload o l') (sound : l.Sound) (balanced : l.Balanced 0)
    (backed : l.Backed) : ∃ told, l.Announces ⟨.ingest e t payload, .ok (.outcome o)⟩ told l' := by
  cases h with
  | refused refusal => exact ⟨[], l.announces_silent rfl⟩
  | obsolete accepted h => exact ⟨[], l.announces_silent rfl⟩
  | @written previous stale accepted newest here pruned =>
    have wrote := Ledger.wrote_acceptance (d := ⟨e, t⟩) payload.isSome here pruned
    cases payload with
    | none => exact wrote.announces sound balanced backed rfl [] (by simp) rfl
    | some p =>
      exact wrote.announces sound balanced backed rfl [.payloadIngest ⟨e, t⟩] (by simp) rfl

theorem announces_arrived (l : Ledger) (d : Document) {identity : Identity} {path : Path}
    {payload : Bytes} :
    l.Announces ⟨.ingestPayload identity path payload, .ok (.arrived true)⟩ [.payloadIngest d]
      ((l.bring d true).tell (.payloadIngest d)) where
  events := rfl
  ordered e member := ⟨d, List.mem_singleton.mp member⟩
  replays := rfl
  erased g := by
    have kept : ¬(g ∈ l.payloads ∧ g ∉ ((l.bring d true).tell (.payloadIngest d)).payloads) :=
      fun ⟨stored, gone⟩ => gone (Finset.mem_insert_of_mem stored)
    rw [if_neg kept, erasures_arrivals (d := d) (by simp)]

theorem Performs.announces {s : Store} {c : Call} {r : Except StoreError Reply}
    (h : l.Performs s c r l') (sound : l.Sound) (balanced : l.Balanced 0) (backed : l.Backed) :
    ∃ told, l.Announces ⟨c, r⟩ told l' := by
  cases h with
  | set sets => exact sets.announces sound balanced backed rfl rfl
  | setAtAddress named sets => exact sets.announces sound balanced backed rfl rfl
  | clear clears => exact clears.announces sound balanced backed
  | ingest ingests => exact ingests.announces sound balanced backed
  | arrived live here => exact ⟨_, l.announces_arrived _⟩
  | _ => exact ⟨[], l.announces_silent rfl⟩

end Steps

end Ledger

namespace Store

/-- What is told of an exchange, the first first, with the documents and the payloads that there are
before and after it. -/
structure Tells (s : Store) (x : Exchange) (t u : Site) (told : List Event) : Prop where
  events : (s.archive u).events = told.reverse ++ (s.archive t).events
  ordered : x.TellsInOrder told
  replays : Event.replay (s.documents t) told = some (s.documents u)
  erased : ∀ g, told.countP (Event.isErasureOf g) =
    if (s.archive t).stores g && !(s.archive u).stores g then 1 else 0

variable {s : Store} {t u v : Site} {log later : List Exchange}

theorem Tracks.stores_iff {l : Ledger} (tracks : s.Tracks t l) (g : Digest) :
    (s.archive t).stores g ↔ g ∈ l.payloads :=
  (tracks.describes.stored g).symm

theorem tells_of_run (apart : s.Apart) (fresh : s.Fresh t) (run : s.Run s.Spares t log u)
    (few : log.length + 1 < 256 ^ 8) (c : Call) :
    ∃ told, s.Tells ⟨c, ((s.perform c).runOn u).1⟩ u ((s.perform c).runOn u).2 told := by
  obtain ⟨⟨l, tracks, upkeep⟩, _⟩ := upkeep_of_run apart fresh run (by omega)
  have room : l.documents.card + 1 < 256 ^ 8 := by
    have := upkeep.few
    omega
  obtain ⟨l', performs, tracks'⟩ := tracks.perform apart upkeep.balanced room c
  obtain ⟨told, announces⟩ := performs.announces tracks.sound upkeep.balanced upkeep.backed
  refine ⟨told, ?_, announces.ordered, ?_, fun g => ?_⟩
  · rw [tracks'.shows.eventsAre, announces.events, tracks.shows.eventsAre]
  · rw [tracks.documents, tracks'.documents, announces.replays]
  · rw [announces.erased g]
    simp only [Bool.and_eq_true, Bool.not_eq_true', ← Bool.not_eq_true, tracks.stores_iff,
      tracks'.stores_iff]

/-! ### Subscribers -/

/-- The store is left alone, and so is what it tells. -/
def Quiet (s : Store) (t u : Site) : Prop :=
  (s.archive u).Shows (s.archive t).entries.contents (s.archive t).payloads.contents
    (s.archive t).events

omit [Crypto] in
theorem Quiet.spares (quiet : s.Quiet t u) : s.Spares t u :=
  ⟨quiet.entriesWork, quiet.payloadsWork, quiet.entriesHold, quiet.payloadsHold, rfl⟩

omit [Crypto] in
theorem Quiet.documents (quiet : s.Quiet t u) : s.documents u = s.documents t := by
  unfold Store.documents Archive.documents
  rw [quiet.entriesHold]

/-- Calls on a store, the last first, with a subscriber from the start on that has missed nothing.
What it was told has the first first. -/
inductive Hears (s : Store) (aside : Site → Site → Prop) (t : Site) :
    List Exchange → List Event → Subscription → Site → Prop
  | subscribe {sub : Subscription} {u : Site}
      (subscribed : (s.subscribe : SiteWork StoreError Subscription).runOn t = (.ok sub, u)) :
      Hears s aside t [] [] sub u
  | call {log : List Exchange} {told : List Event} {sub : Subscription} {u : Site}
      (hears : Hears s aside t log told sub u) (c : Call) :
      Hears s aside t (⟨c, ((s.perform c).runOn u).1⟩ :: log) told sub ((s.perform c).runOn u).2
  | aside {log : List Exchange} {told : List Event} {sub : Subscription} {u v : Site}
      (hears : Hears s aside t log told sub u) (besides : aside u v) : Hears s aside t log told sub v
  | receive {log : List Exchange} {told news : List Event} {sub sub' : Subscription} {u v : Site}
      (hears : Hears s aside t log told sub u)
      (received : (Store.receive sub : SiteWork StoreError _).runOn u = (.ok (0, news, sub'), v)) :
      Hears s aside t log (told ++ news) sub' v

theorem Hears.performAll {aside : Site → Site → Prop} {told : List Event} {sub : Subscription}
    (hears : s.Hears aside t log told sub u) (calls : List Call) :
    s.Hears aside t (s.performAll calls log u).1 told sub (s.performAll calls log u).2 := by
  induction calls generalizing log u with
  | nil => exact hears
  | cons c calls ih => exact ih (hears.call c)

/-- What a subscriber that has missed nothing has been told and has still to be told. -/
structure Hearing (s : Store) (t u : Site) (told waiting : List Event) (sub : Subscription) :
    Prop where
  feed : sub.feed = s.feed
  seen : sub.seen = told.length + (s.archive t).events.length
  events : (s.archive u).events = (told ++ waiting).reverse ++ (s.archive t).events
  replays : Event.replay (s.documents t) (told ++ waiting) = some (s.documents u)

omit [Crypto] in
theorem Hearing.subscribe {sub : Subscription}
    (subscribed : (s.subscribe : SiteWork StoreError Subscription).runOn t = (.ok sub, u)) :
    u = t ∧ s.Hearing t t [] [] sub := by
  obtain ⟨answer, rfl⟩ := Prod.mk.inj subscribed
  cases answer
  exact ⟨rfl, rfl, (Nat.zero_add _).symm, rfl, rfl⟩

omit [Crypto] in
theorem Hearing.receive {told waiting news : List Event} {sub sub' : Subscription}
    (hearing : s.Hearing t u told waiting sub)
    (received : (Store.receive sub : SiteWork StoreError _).runOn u = (.ok (0, news, sub'), v)) :
    v = u ∧ news = waiting ∧ s.Hearing t u (told ++ news) [] sub' := by
  have run : (Store.receive sub : SiteWork StoreError _).runOn u =
      (.ok ((Event.backlog sub.seen (u.feeds.get sub.feed)).1,
        (Event.backlog sub.seen (u.feeds.get sub.feed)).2,
        { sub with seen := (u.feeds.get sub.feed).length }), u) := rfl
  have events : u.feeds.get sub.feed = waiting.reverse ++ (told.reverse ++ (s.archive t).events) := by
    rw [hearing.feed, ← List.append_assoc, ← List.reverse_append]
    exact hearing.events
  have seen : sub.seen = (told.reverse ++ (s.archive t).events).length := by
    rw [hearing.seen, List.length_append, List.length_reverse]
  rw [run, events, seen] at received
  obtain ⟨answer, rfl⟩ := Prod.mk.inj received
  obtain ⟨missed, answer⟩ := Prod.mk.inj (Except.ok.inj answer)
  obtain ⟨all, rfl⟩ := Prod.mk.inj answer
  obtain rfl : waiting = news := (Event.received_eq (Prod.ext missed all)).symm
  refine ⟨rfl, rfl, hearing.feed, ?_, ?_, ?_⟩
  · simp only [List.length_append, List.length_reverse]
    omega
  · rw [List.append_nil]
    exact hearing.events
  · rw [List.append_nil]
    exact hearing.replays

/-- A subscriber and the store it follows, after a run that the subscriber did not see. -/
theorem Hears.hearing {start : Site} (apart : s.Apart) (fresh : s.Fresh start)
    (run : s.Run s.Spares start log t) {told : List Event} {sub : Subscription}
    (hears : s.Hears s.Quiet t later told sub u) (few : (later ++ log).length < 256 ^ 8) :
    s.Run s.Spares start (later ++ log) u ∧ ∃ waiting, s.Hearing t u told waiting sub := by
  induction hears with
  | subscribe subscribed =>
    obtain ⟨rfl, hearing⟩ := Hearing.subscribe subscribed
    exact ⟨run, [], hearing⟩
  | @call later told sub u hears c ih =>
    rw [List.cons_append, List.length_cons] at few
    obtain ⟨run, waiting, hearing⟩ := ih (by omega)
    obtain ⟨news, tells⟩ := tells_of_run apart fresh run few c
    refine ⟨run.call c, waiting ++ news, hearing.feed, hearing.seen, ?_, ?_⟩
    · rw [tells.events, hearing.events]
      simp only [List.reverse_append, List.append_assoc]
    · rw [← List.append_assoc, Event.replay_append hearing.replays, tells.replays]
  | @aside later told sub u v hears besides ih =>
    obtain ⟨run, waiting, hearing⟩ := ih few
    refine ⟨run.aside besides.spares, waiting, hearing.feed, hearing.seen, ?_, ?_⟩
    · rw [besides.eventsAre, hearing.events]
    · rw [besides.documents, hearing.replays]
  | @receive later told news sub sub' u v hears received ih =>
    obtain ⟨run, waiting, hearing⟩ := ih few
    obtain ⟨rfl, rfl, heard⟩ := hearing.receive received
    exact ⟨run, [], heard⟩

end Store

/-- Replaying what a subscriber was told gives the documents of the moment, and each call tells of
all that it does and of nothing else. -/
theorem rebuilt_of_heard {s : Store} {start t : Site} {log : List Exchange} (apart : s.Apart)
    (fresh : s.Fresh start) (run : s.Run s.Spares start log t) :
    (∀ later told sub u, s.Hears s.Quiet t later told sub u → (later ++ log).length < 2 ^ 64 →
      ∀ news sub' v,
        (Store.receive sub : SiteWork StoreError _).runOn u = (.ok (0, news, sub'), v) →
        Event.replay (s.documents t) (told ++ news) = some (s.documents u)) ∧
    ∀ c, log.length + 1 < 2 ^ 64 →
      ∃ told, s.Tells ⟨c, ((s.perform c).runOn t).1⟩ t ((s.perform c).runOn t).2 told := by
  constructor
  · intro later told sub u hears few news sub' v received
    obtain ⟨_, waiting, hearing⟩ := hears.hearing apart fresh run few
    obtain ⟨_, rfl, _⟩ := hearing.receive received
    exact hearing.replays
  · intro c few
    exact Store.tells_of_run apart fresh run few c

end

section Sample

open Crypto.Transparent

attribute [local instance] Crypto.transparent

theorem rebuilt_of_heard_threeWrites :
    let before := sample.performAll (threeWrites.take 3) [] blank
    let after := sample.performAll (threeWrites.drop 3) [] before.2
    let events := after.2.feeds.get sample.feed
    let sub : Subscription := ⟨sample.feed, (before.2.feeds.get sample.feed).length⟩
    let news := (Event.backlog sub.seen events).2
    let again : Call := .set (identity 1) (path 7) [3] 10 false
    (sample.Apart ∧ sample.Fresh blank ∧ sample.Run sample.Spares blank before.1 before.2 ∧
      sample.Hears sample.Quiet before.2 after.1 [] sub after.2 ∧
      (after.1 ++ before.1).length < 2 ^ 64 ∧ before.1.length + 1 < 2 ^ 64 ∧
      (Store.receive sub : SiteWork StoreError _).runOn after.2 =
        (.ok (0, news, { sub with seen := events.length }), after.2)) ∧
    Event.replay (sample.documents before.2) ([] ++ news) = some (sample.documents after.2) ∧
    (∃ told, sample.Tells ⟨again, ((sample.perform again).runOn before.2).1⟩ before.2
      ((sample.perform again).runOn before.2).2 told) ∧
    (sample.documents before.2).card = 1 ∧ (sample.documents after.2).card = 2 ∧ news.length = 4 := by
  intro before after events sub news again
  have fresh : sample.Fresh blank := ⟨Backend.works_empty, Backend.works_empty, rfl, rfl, rfl⟩
  have run : sample.Run sample.Spares blank before.1 before.2 := Store.Run.start.performAll _
  have hears : sample.Hears sample.Quiet before.2 after.1 [] sub after.2 :=
    (Store.Hears.subscribe rfl).performAll _
  have few : (after.1 ++ before.1).length < 2 ^ 64 := by decide +kernel
  have room : before.1.length + 1 < 2 ^ 64 := by decide +kernel
  have none : (Event.backlog sub.seen events).1 = 0 := by decide +kernel
  have received : (Store.receive sub : SiteWork StoreError _).runOn after.2 =
      (.ok (0, news, { sub with seen := events.length }), after.2) := by
    rw [← none]
    rfl
  obtain ⟨rebuilt, tells⟩ := rebuilt_of_heard sample_apart fresh run
  exact ⟨⟨sample_apart, fresh, run, hears, few, room, received⟩,
    rebuilt _ _ _ _ hears few _ _ _ received, tells again room,
    by decide +kernel, by decide +kernel, by decide +kernel⟩

end Sample

end DocumentShare
