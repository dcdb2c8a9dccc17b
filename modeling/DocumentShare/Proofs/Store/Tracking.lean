import DocumentShare.Proofs.Store.Reading
import DocumentShare.Proofs.Store.Records

/-!
# Archives track ledgers

`Archive.Tracks` relates an archive whose backends work to the ledger that it stands for. Reading
answers from the ledger, and no error occurs on the way. The later modules speak of ledgers only.
-/

namespace DocumentShare

open Work

namespace Archive

variable {α : Type}

/-! ### Working archives -/

/-- The backends work, and this is what they and the events are. -/
structure Shows (a : Archive) (entries payloads : Contents) (events : List Event) : Prop where
  entriesWork : a.entries.Works
  payloadsWork : a.payloads.Works
  entriesHold : a.entries.contents = entries
  payloadsHold : a.payloads.contents = payloads
  eventsAre : a.events = events

namespace Shows

variable {a : Archive} {entries payloads : Contents} {events : List Event}

theorem onEntries (shows : a.Shows entries payloads events) {w : BackendWork α} {x : α}
    {c : Contents} (does : Backend.Does w a.entries x c) :
    (onEntries w).Answers a fun v a' => v = x ∧ a'.Shows c payloads events := by
  refine onEntries_ends (does.mono ?_ ?_)
  · rintro v b ⟨answer, holds, works⟩
    exact ⟨answer, works shows.entriesWork, shows.payloadsWork, holds, shows.payloadsHold,
      shows.eventsAre⟩
  · rintro e b ⟨_, broken⟩
    exact broken shows.entriesWork

theorem scan (shows : a.Shows entries payloads events) (range : KeyRange) (direction : Direction) :
    (Archive.onEntries (Backend.scan range direction)).Answers a fun v a' =>
      v = direction.arrange (entries.within range) ∧ a'.Shows entries payloads events := by
  have does := Backend.does_scan a.entries range direction
  rw [shows.entriesHold] at does
  exact shows.onEntries does

end Shows

/-! ### Reading -/

variable [Crypto]

/-- The archive works and stands for the ledger. -/
structure Tracks (a : Archive) (l : Ledger) : Prop where
  shows : a.Shows a.entries.contents a.payloads.contents l.events
  describes : l.Describes a.entries.contents a.payloads.contents
  sound : l.Sound

theorem Shows.tracks {a : Archive} {l : Ledger} {entries payloads : Contents}
    (shows : a.Shows entries payloads l.events) (describes : l.Describes entries payloads)
    (sound : l.Sound) : a.Tracks l := by
  obtain ⟨entriesWork, payloadsWork, rfl, rfl, events⟩ := shows
  exact ⟨⟨entriesWork, payloadsWork, rfl, rfl, events⟩, describes, sound⟩

namespace Tracks

variable {a : Archive} {l : Ledger} {d e : Document} {g : Digest}

theorem lists (tracks : a.Tracks l) : a.entries.contents.Lists l.documents where
  records key value inside := by
    obtain ⟨rest, family⟩ := Key.entries_contains.mp inside
    rw [tracks.describes.records]
    constructor
    · exact fun held => Ledger.holds_entry held family
    · rintro ⟨d, live, rfl, rfl⟩
      exact .document live
  readable := tracks.sound.readable

/-- An archive that works is read without error, and stands for the same ledger afterwards. -/
theorem reading {w : ArchiveWork α} {good : α → Prop} (tracks : a.Tracks l)
    (reads : w.Reads a.entries.contents good) : w.Answers a fun x a' => good x ∧ a'.Tracks l := by
  refine (reads a rfl).mono ?_ ?_
  · rintro x b ⟨answer, same⟩
    refine ⟨answer, Shows.tracks ?_ tracks.describes tracks.sound⟩
    refine ⟨same.works tracks.shows.entriesWork, ?_, same.entries, congrArg _ same.payloads, ?_⟩
    · rw [same.payloads]
      exact tracks.shows.payloadsWork
    · rw [same.events]
      exact tracks.shows.eventsAre
  · rintro e b ⟨_, broken, _⟩
    exact broken tracks.shows.entriesWork

theorem ask (tracks : a.Tracks l) : askItem.Answers a fun _ a' => a'.Tracks l :=
  (tracks.reading .ask).mono (fun _ _ h => h.2) fun _ _ => id

theorem documentAt (tracks : a.Tracks l) (identity : Identity) (path : Path) :
    (Archive.documentAt (Key.entry identity path)).Answers a fun o a' =>
      l.At identity path o ∧ a'.Tracks l :=
  tracks.reading (tracks.lists.documentAt identity path)

theorem get (tracks : a.Tracks l) (identity : Identity) (path : Path) :
    (Archive.get identity path).Answers a fun o a' => l.At identity path o ∧ a'.Tracks l :=
  tracks.documentAt identity path

theorem listed (tracks : a.Tracks l) (range : KeyRange) {key value : Document → Bytes}
    (records : ∀ d ∈ l.documents, l.Holds (key d) (value d))
    (kind : ∀ k v, range.contains k → l.Holds k v → ∃ d ∈ l.documents, k = key d ∧ v = value d)
    (places : ∀ d e, key d = key e → d.key = e.key) :
    ∃ ds : List Document,
      a.entries.contents.within range = ds.map (fun d => (key d, value d)) ∧
      ds.Pairwise (fun d d' => key d < key d') ∧
      ∀ d, d ∈ ds ↔ d ∈ l.documents ∧ range.contains (key d) := by
  refine Contents.within_eq_map (fun x => ?_) fun d e live there same =>
    tracks.sound.distinct d live.1 e there.1 (places d e same)
  rw [Contents.mem_within, tracks.describes.records]
  constructor
  · rintro ⟨held, inside⟩
    obtain ⟨d, live, here, stored⟩ := kind _ _ inside held
    exact ⟨d, ⟨live, here ▸ inside⟩, Prod.ext here.symm stored.symm⟩
  · rintro ⟨d, ⟨live, inside⟩, rfl⟩
    exact ⟨records d live, inside⟩

theorem documents (tracks : a.Tracks l) :
    a.documents.Pairwise (fun d d' => d.key < d'.key) ∧ ∀ d, d ∈ a.documents ↔ d ∈ l.documents :=
  documents_of_lists tracks.lists

theorem prunable (tracks : a.Tracks l) (e : Entry) :
    (Archive.prunable e).Answers a fun stale a' => l.Stale e stale ∧ a'.Tracks l :=
  (tracks.reading (tracks.lists.prunable e)).mono
    (fun _ _ ⟨⟨ascending, member⟩, tracks⟩ => ⟨⟨ascending, member⟩, tracks⟩) fun _ _ => id

theorem isObsolete (tracks : a.Tracks l) (e : Entry) :
    (Archive.isObsolete e).Answers a fun b a' => (b = true ↔ l.Obsoletes e) ∧ a'.Tracks l :=
  tracks.reading (tracks.lists.isObsolete e)

end Tracks

end Archive

end DocumentShare
