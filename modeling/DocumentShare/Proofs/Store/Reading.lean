import DocumentShare.Proofs.Naming.Descent
import DocumentShare.Proofs.Storage.Backend
import DocumentShare.Proofs.Store.Keys
import DocumentShare.Store.Archive
import Mathlib.Data.Finset.Insert

/-!
# Reading an archive

Reading answers from the entries that are stored, and fails only while a backend is out of order; it
changes neither documents nor payloads. `ArchiveWork.Reads` says this of work, and `Contents.Lists` of
contents that their entries are those of some documents. `Contents.Lists.get` and the lemmas after it
say what is read of such contents.
-/

namespace DocumentShare

open Work

namespace Archive

variable {α β : Type}

theorem onEntries_ends {a : Archive} {w : BackendWork α} {answers : α → Archive → Prop}
    {fails : StoreError → Archive → Prop}
    (h : w.Ends a.entries (fun v b => answers v { a with entries := b })
      (fun e b => fails (.ofStorage e) { a with entries := b })) :
    (onEntries w).Ends a answers fails :=
  Ends.reporting (Ends.onPart h)

theorem onPayloads_ends {a : Archive} {w : BackendWork α} {answers : α → Archive → Prop}
    {fails : StoreError → Archive → Prop}
    (h : w.Ends a.payloads (fun v b => answers v { a with payloads := b })
      (fun e b => fails (.ofStorage e) { a with payloads := b })) :
    (onPayloads w).Ends a answers fails :=
  Ends.reporting (Ends.onPart h)

/-- The documents whose entries are stored, in the order of their keys. -/
def documents (a : Archive) : List Document :=
  (a.entries.contents.within Key.entries).filterMap fun x => (Document.decode x.2).toOption

/-- Whether there are bytes under a digest. -/
def stores (a : Archive) (g : Digest) : Bool := (a.payloads.contents.get? g.bytes).isSome

/-! ### Work that reads -/

/-- `b` is `a` but for what its entries were asked and what they will fail at. -/
structure Same (a b : Archive) : Prop where
  entries : b.entries.contents = a.entries.contents
  works : a.entries.Works → b.entries.Works
  payloads : b.payloads = a.payloads
  events : b.events = a.events

theorem Same.refl (a : Archive) : a.Same a := ⟨rfl, id, rfl, rfl⟩

theorem Same.trans {a b c : Archive} (first : a.Same b) (second : b.Same c) : a.Same c where
  entries := second.entries.trans first.entries
  works := second.works ∘ first.works
  payloads := second.payloads.trans first.payloads
  events := second.events.trans first.events

end Archive

namespace ArchiveWork

variable {α β : Type}

/-- On entries `c` the work changes nothing and its answer is `good`, unless a backend fails. -/
def Reads (w : ArchiveWork α) (c : Contents) (good : α → Prop) : Prop :=
  ∀ a : Archive, a.entries.contents = c → w.Ends a (fun x b => good x ∧ a.Same b)
    fun e b => (∃ error, e = .ofStorage error) ∧ ¬a.entries.Works ∧ a.Same b

namespace Reads

variable {w : ArchiveWork α} {c : Contents} {good : α → Prop}

theorem mono {good' : α → Prop} (h : w.Reads c good) (better : ∀ x, good x → good' x) :
    w.Reads c good' :=
  fun a holds => (h a holds).mono (fun x _ h => ⟨better x h.1, h.2⟩) fun _ _ => id

theorem pure {x : α} (h : good x) : (Pure.pure x : ArchiveWork α).Reads c good :=
  fun a _ => Ends.pure ⟨h, .refl a⟩

theorem bind {f : α → ArchiveWork β} {good' : β → Prop} (first : w.Reads c good)
    (second : ∀ x, good x → (f x).Reads c good') : (w >>= f).Reads c good' := by
  intro a holds
  refine (first a holds).bind fun x b ⟨found, same⟩ => ?_
  refine (second x found b (same.entries.trans holds)).mono ?_ ?_
  · rintro y u ⟨found, same'⟩
    exact ⟨found, same.trans same'⟩
  · rintro e u ⟨failure, broken, same'⟩
    exact ⟨failure, fun works => broken (same.works works), same.trans same'⟩

theorem onEntries {w : BackendWork α} {answer : α}
    (does : ∀ b : Backend, b.contents = c → Backend.Does w b answer c) (h : good answer) :
    (Archive.onEntries w).Reads c good := by
  intro a holds
  refine Archive.onEntries_ends ((does a.entries holds).mono ?_ ?_)
  · rintro v b ⟨rfl, same, works⟩
    exact ⟨h, same.trans holds.symm, works, rfl, rfl⟩
  · rintro e b ⟨same, broken⟩
    exact ⟨⟨e, rfl⟩, broken, same, fun works => absurd works broken, rfl, rfl⟩

theorem get (key : Bytes) : (Archive.onEntries (Backend.get key)).Reads c (· = c.get? key) :=
  onEntries (fun b holds => holds ▸ Backend.does_get b key) rfl

theorem ask : Archive.askItem.Reads c fun _ => True :=
  onEntries (fun b holds => holds ▸ Backend.does_ask b .scan) trivial

theorem scan (range : KeyRange) (direction : Direction) :
    (Archive.onEntries (Backend.scan range direction)).Reads c
      (· = direction.arrange (c.within range)) :=
  onEntries (fun b holds => holds ▸ Backend.does_scan b range direction) rfl

section Lists

variable {Item : Type} {l : List Item}

theorem filterMapM {f : Item → ArchiveWork (Option β)} (inv : List Item → List β → Prop)
    (start : inv l [])
    (step : ∀ x rest found, inv (x :: rest) found →
      (f x).Reads c fun o => inv rest (found ++ o.toList)) :
    (l.filterMapM f).Reads c (inv []) := by
  intro a holds
  refine Ends.filterMapM (fun rest found b => inv rest found ∧ a.Same b) ⟨start, .refl a⟩ ?_
  rintro x rest found b ⟨held, same⟩
  refine (step x rest found held b (same.entries.trans holds)).mono ?_ ?_
  · rintro o u ⟨held, same'⟩
    exact ⟨held, same.trans same'⟩
  · rintro e u ⟨failure, broken, same'⟩
    exact ⟨failure, fun works => broken (same.works works), same.trans same'⟩

theorem anyM {f : Item → ArchiveWork Bool} (inv : List Item → Prop) (met : Prop) (start : inv l)
    (step : ∀ x rest, inv (x :: rest) → (f x).Reads c fun b => if b then met else inv rest) :
    (l.anyM f).Reads c fun b => if b then met else inv [] := by
  intro a holds
  refine (Ends.anyM (fun rest b => inv rest ∧ a.Same b) (fun b => met ∧ a.Same b)
    ⟨start, .refl a⟩ ?_).mono ?_ fun _ _ => id
  · rintro x rest b ⟨held, same⟩
    refine (step x rest held b (same.entries.trans holds)).mono ?_ ?_
    · rintro (_ | _) u ⟨held, same'⟩
      · exact ⟨held, same.trans same'⟩
      · exact ⟨held, same.trans same'⟩
    · rintro e u ⟨failure, broken, same'⟩
      exact ⟨failure, fun works => broken (same.works works), same.trans same'⟩
  · rintro (_ | _) u h
    · exact h
    · exact h

end Lists

end Reads

end ArchiveWork

/-! ### What is read -/

theorem Document.key_inside (d : Document) : Key.entries.contains d.key :=
  Key.entries_contains.mpr ⟨_, rfl⟩

namespace Contents

/-- The entries among the contents are those of the documents, and each can be read back. -/
structure Lists (c : Contents) (documents : Finset Document) : Prop where
  records : ∀ key value, Key.entries.contains key →
    (c.get? key = some value ↔ ∃ d ∈ documents, key = d.key ∧ value = d.encode)
  readable : ∀ d ∈ documents, Document.decode d.encode = .ok d

namespace Lists

variable {c : Contents} {documents : Finset Document} {d e : Document}

theorem stored (lists : c.Lists documents) (live : d ∈ documents) : c.get? d.key = some d.encode :=
  (lists.records _ _ d.key_inside).mpr ⟨d, live, rfl, rfl⟩

theorem distinct (lists : c.Lists documents) (live : d ∈ documents) (live' : e ∈ documents)
    (same : d.key = e.key) : d = e := by
  have bytes : some d.encode = some e.encode := by
    rw [← lists.stored live, same, lists.stored live']
  have read := lists.readable d live
  rw [Option.some.inj bytes, lists.readable e live'] at read
  exact (Except.ok.inj read).symm

theorem items (lists : c.Lists documents) (range : KeyRange)
    (inside : ∀ key, range.contains key → Key.entries.contains key) :
    ∃ ds : List Document, c.within range = ds.map (fun d => (d.key, d.encode)) ∧
      ds.Pairwise (fun d d' => d.key < d'.key) ∧
      ∀ d, d ∈ ds ↔ d ∈ documents ∧ range.contains d.key := by
  refine Contents.within_eq_map (fun x => ?_) fun d e live there =>
    lists.distinct live.1 there.1
  rw [Contents.mem_within]
  constructor
  · rintro ⟨found, within⟩
    obtain ⟨d, live, place, value⟩ := (lists.records _ _ (inside _ within)).mp found
    exact ⟨d, ⟨live, place ▸ within⟩, Prod.ext place.symm value.symm⟩
  · rintro ⟨d, ⟨live, within⟩, rfl⟩
    exact ⟨lists.stored live, within⟩

theorem ofStored (lists : c.Lists documents) (live : d ∈ documents) :
    (Archive.ofStored d.encode).Reads c (· = d) := by
  rw [Archive.ofStored, lists.readable d live]
  exact .pure rfl

theorem documentAt (lists : c.Lists documents) (identity : Identity) (path : Path) :
    (Archive.documentAt (Key.entry identity path)).Reads c fun o =>
      ∀ d, o = some d ↔ d ∈ documents ∧ d.identity = identity ∧ d.path = path := by
  have inside : Key.entries.contains (Key.entry identity path) := Key.entries_contains.mpr ⟨_, rfl⟩
  refine (ArchiveWork.Reads.get (Key.entry identity path)).bind fun v found => ?_
  cases v with
  | none =>
    refine .pure fun d => ⟨by rintro ⟨⟩, fun ⟨live, here⟩ => ?_⟩
    have stored := lists.stored live
    rw [show d.key = Key.entry identity path by rw [Document.key, here.1, here.2], ← found] at stored
    cases stored
  | some value =>
    obtain ⟨d, live, place, rfl⟩ := (lists.records _ value inside).mp found.symm
    refine (lists.ofStored live).bind fun d' same => .pure ?_
    rw [same]
    intro e
    obtain ⟨identities, paths⟩ := Key.entry_inj place
    constructor
    · intro found
      cases found
      exact ⟨live, identities.symm, paths.symm⟩
    · rintro ⟨there, here⟩
      refine congrArg some (lists.distinct live there ?_)
      rw [← place, Document.key, here.1, here.2]

theorem get (lists : c.Lists documents) (identity : Identity) (path : Path) :
    (Archive.get identity path).Reads c fun o =>
      ∀ d, o = some d ↔ d ∈ documents ∧ d.identity = identity ∧ d.path = path :=
  lists.documentAt identity path

theorem prunable (lists : c.Lists documents) (e : Entry) :
    (Archive.prunable e).Reads c fun stale =>
      stale.Pairwise (fun d d' => d.key < d'.key) ∧
      ∀ d, d ∈ stale ↔ d ∈ documents ∧ d.identity = e.identity ∧ e.path.isPrefixOf d.path ∧
        d.path ≠ e.path ∧ e.isNewerThan d.entry := by
  obtain ⟨ds, same, ascending, member⟩ := lists.items (Key.entriesBelow e.identity e.path)
    fun _ within => Key.entries_contains.mpr (Key.of_entriesBelow within)
  let older (d : Document) : Bool := d.path ≠ e.path && e.isNewerThan d.entry
  refine (ArchiveWork.Reads.scan (Key.entriesBelow e.identity e.path) .ascending).bind
    fun items found => ?_
  rw [found, Direction.arrange, same]
  -- What was found and what the items to come will give are the older documents of the range.
  refine (ArchiveWork.Reads.filterMapM
    (fun rest found => ∃ pending : List Document,
      rest = pending.map (fun d => (d.key, d.encode)) ∧ (∀ d ∈ pending, d ∈ documents) ∧
      found ++ pending.filter older = ds.filter older)
    ⟨ds, rfl, fun d here => ((member d).mp here).1, rfl⟩ ?_).mono ?_
  · rintro x rest found ⟨pending, items, live, total⟩
    cases pending with
    | nil => cases items
    | cons d pending =>
      cases items
      refine ArchiveWork.Reads.ask.bind fun _ _ => ?_
      refine (lists.ofStored (live d List.mem_cons_self)).bind fun d' read => .pure ?_
      refine ⟨pending, rfl, fun d' here => live d' (List.mem_cons_of_mem d here), ?_⟩
      rw [read, ← total, List.filter_cons, List.append_assoc]
      congr 1
      show (if older d then some d else none).toList ++ _ = _
      split
      · rfl
      · rfl
  · rintro found ⟨pending, items, _, total⟩
    have none : pending = [] := List.map_eq_nil_iff.mp items.symm
    rw [none, List.filter_nil, List.append_nil] at total
    rw [total]
    refine ⟨ascending.filter older, fun d => ?_⟩
    rw [List.mem_filter, member, Document.key, Key.entriesBelow_contains, eq_comm (a := e.identity)]
    simp only [older, Bool.and_eq_true, decide_eq_true_eq, and_assoc]

theorem isObsoleteAt (lists : c.Lists documents) (e : Entry) :
    (Archive.isObsoleteAt e).Reads c fun b => b = true ↔
      ∃ d ∈ documents, d.identity = e.identity ∧ d.path = e.path ∧ e.isNewerThan d.entry = false := by
  refine (lists.get e.identity e.path).bind fun o here => .pure ?_
  rw [Option.any_eq_true]
  constructor
  · rintro ⟨d, found, newest⟩
    obtain ⟨live, identities, paths⟩ := (here d).mp found
    exact ⟨d, live, identities, paths, by simpa using newest⟩
  · rintro ⟨d, live, identities, paths, newest⟩
    exact ⟨d, (here d).mpr ⟨live, identities, paths⟩, by simpa using newest⟩

theorem isObsoleteBelow (lists : c.Lists documents) (e : Entry) :
    (Archive.isObsoleteBelow e).Reads c fun b => b = true ↔
      ∃ d ∈ documents, d.identity = e.identity ∧ d.path.isStrictPrefixOf e.path ∧
        d.entry.isNewerThan e := by
  -- A newer document above the entry is at one of the paths that are still to be looked at.
  refine (ArchiveWork.Reads.anyM
    (fun rest => (∀ d ∈ documents, d.identity = e.identity →
      d.path.isStrictPrefixOf e.path → d.entry.isNewerThan e → d.path ∈ rest) ∧
      ∀ p ∈ rest, p.isStrictPrefixOf e.path)
    (∃ d ∈ documents, d.identity = e.identity ∧
      d.path.isStrictPrefixOf e.path ∧ d.entry.isNewerThan e)
    ⟨fun d _ _ above _ => Path.mem_strictPrefixes.mpr above,
      fun p member => Path.mem_strictPrefixes.mp member⟩ ?_).mono ?_
  · rintro p rest ⟨ahead, above⟩
    refine (lists.get e.identity p).bind fun o here => .pure ?_
    split
    · next newer =>
      obtain ⟨d, found, newer⟩ := (Option.any_eq_true _ _).mp newer
      obtain ⟨live, identities, paths⟩ := (here d).mp found
      exact ⟨d, live, identities, paths ▸ above p List.mem_cons_self, newer⟩
    · next notNewer =>
      refine ⟨fun d live identities strict newer => ?_,
        fun q member => above q (List.mem_cons_of_mem p member)⟩
      rcases List.mem_cons.mp (ahead d live identities strict newer) with paths | later
      · refine absurd ((Option.any_eq_true _ _).mpr ⟨d, ?_, newer⟩) notNewer
        exact (here d).mpr ⟨live, identities, paths⟩
      · exact later
  · intro b h
    cases b with
    | true => exact ⟨fun _ => h, fun _ => rfl⟩
    | false =>
      refine ⟨by rintro ⟨⟩, ?_⟩
      rintro ⟨d, live, identities, strict, newer⟩
      cases h.1 d live identities strict newer

theorem isObsolete (lists : c.Lists documents) (e : Entry) :
    (Archive.isObsolete e).Reads c fun b => b = true ↔
      ∃ d ∈ documents, d.identity = e.identity ∧
        (d.path = e.path ∧ e.isNewerThan d.entry = false ∨
          d.path.isStrictPrefixOf e.path ∧ d.entry.isNewerThan e) := by
  refine (lists.isObsoleteAt e).bind fun b here => ?_
  cases b with
  | true =>
    obtain ⟨d, live, identities, paths, newest⟩ := here.mp rfl
    exact .pure ⟨fun _ => ⟨d, live, identities, .inl ⟨paths, newest⟩⟩, fun _ => rfl⟩
  | false =>
    refine (lists.isObsoleteBelow e).mono fun b above => ?_
    rw [above]
    constructor
    · rintro ⟨d, live, identities, strict, newer⟩
      exact ⟨d, live, identities, .inr ⟨strict, newer⟩⟩
    · rintro ⟨d, live, identities, ⟨paths, newest⟩ | ⟨strict, newer⟩⟩
      · cases here.mpr ⟨d, live, identities, paths, newest⟩
      · exact ⟨d, live, identities, strict, newer⟩

end Lists

/-- How often a payload is counted. -/
def count (c : Contents) (g : Digest) : Nat := ((c.get? (Key.reference g)).map Bytes.toNat).getD 0

theorem reads_referenceCount {c : Contents} {g : Digest}
    (wide : ∀ value, c.get? (Key.reference g) = some value → value.length = 8) :
    (Archive.referenceCount g).Reads c (· = c.count g) := by
  refine (ArchiveWork.Reads.get (Key.reference g)).bind fun v found => ?_
  cases v with
  | none =>
    refine .pure ?_
    rw [count, ← found]
    rfl
  | some value =>
    dsimp only
    rw [if_pos (wide value found.symm)]
    refine .pure ?_
    rw [count, ← found]
    rfl

end Contents

theorem Archive.documents_of_lists {a : Archive} {documents : Finset Document}
    (lists : a.entries.contents.Lists documents) :
    a.documents.Pairwise (fun d d' => d.key < d'.key) ∧ ∀ d, d ∈ a.documents ↔ d ∈ documents := by
  obtain ⟨ds, same, ascending, member⟩ := lists.items Key.entries fun _ => id
  have live (d : Document) : d ∈ ds ↔ d ∈ documents := by
    rw [member]
    exact and_iff_left d.key_inside
  have read : ∀ d ∈ ds, (Document.decode d.encode).toOption = some d := by
    intro d here
    rw [lists.readable d ((live d).mp here)]
    rfl
  have all : a.documents = ds := by
    rw [Archive.documents, same, List.filterMap_map]
    exact (List.filterMap_congr read).trans List.filterMap_some
  rw [all]
  exact ⟨ascending, live⟩

end DocumentShare
