import DocumentShare.Proofs.Store.Ledger

/-!
# The records of a ledger

`Ledger.Holds` lists the records that a ledger is kept in: three for each document and one for each
digest that is counted. `Ledger.Describes` says that the contents of two backends are these and no
others; each change of a ledger has its change of the contents.
-/

namespace DocumentShare

theorem Document.key_of_pathIndex {d e : Document}
    (same : Key.pathIndex d.entry = Key.pathIndex e.entry) : d.key = e.key := by
  obtain ⟨paths, _, identities⟩ := Key.pathIndex_inj same
  exact Document.key_inj.mpr ⟨identities, paths⟩

theorem Document.key_of_timeIndex {d e : Document}
    (same : Key.timeIndex d.entry = Key.timeIndex e.entry) : d.key = e.key := by
  obtain ⟨_, identities, paths⟩ := Key.timeIndex_inj same
  exact Document.key_inj.mpr ⟨identities, paths⟩

namespace Ledger

/-- A record that the ledger is kept in. -/
inductive Holds (l : Ledger) : (key value : Bytes) → Prop
  | document {d : Document} (live : d ∈ l.documents) : Holds l d.key d.encode
  | path {d : Document} (live : d ∈ l.documents) : Holds l (Key.pathIndex d.entry) d.key
  | time {d : Document} (live : d ∈ l.documents) : Holds l (Key.timeIndex d.entry) d.key
  | count {g : Digest} (counted : g ∈ l.references) :
      Holds l (Key.reference g) (Bytes.ofNat 8 (l.references.count g))

/-- No two documents share a place, all can be read back, and a count fits its eight bytes. -/
structure Sound (l : Ledger) : Prop where
  distinct : ∀ d ∈ l.documents, ∀ e ∈ l.documents, d.key = e.key → d = e
  readable : ∀ d ∈ l.documents, Document.decode d.encode = .ok d
  few : l.references.card < 256 ^ 8

/-- The contents are the records and the payloads of the ledger, and nothing else. -/
structure Describes [Crypto] (l : Ledger) (entries payloads : Contents) : Prop where
  records : ∀ key value, entries.get? key = some value ↔ l.Holds key value
  stored : ∀ g : Digest, g ∈ l.payloads ↔ (payloads.get? g.bytes).isSome
  hashes : ∀ key value, payloads.get? key = some value → key = (Crypto.digest value).bytes

/-! ### Families of records -/

section Families

variable {l : Ledger} {key value rest : Bytes}

theorem holds_entry (h : l.Holds key value) (family : key = 0 :: rest) :
    ∃ d ∈ l.documents, key = d.key ∧ value = d.encode := by
  cases h with
  | document live => exact ⟨_, live, rfl, rfl⟩
  | path live => cases family
  | time live => cases family
  | count counted => cases family

theorem holds_reference {g : Digest} :
    l.Holds (Key.reference g) value ↔
      g ∈ l.references ∧ value = Bytes.ofNat 8 (l.references.count g) := by
  constructor
  · intro h
    generalize same : Key.reference g = key at h
    cases h with
    | document live => cases same
    | path live => cases same
    | time live => cases same
    | count counted =>
      cases Key.reference_inj same
      exact ⟨counted, rfl⟩
  · rintro ⟨counted, rfl⟩
    exact .count counted

end Families

/-! ### Changes of the records -/

section Changes

variable {l l' : Ledger} {d : Document} {g : Digest} {key value : Bytes}

/-- A record is kept as long as its document or its count is. -/
theorem Holds.congr (h : l.Holds key value) (documents : l.documents = l'.documents)
    (counts : ∀ g, key = Key.reference g → l.references.count g = l'.references.count g) :
    l'.Holds key value := by
  cases h with
  | document live => exact .document (documents ▸ live)
  | path live => exact .path (documents ▸ live)
  | time live => exact .time (documents ▸ live)
  | @count g counted =>
    have same := counts g rfl
    rw [same]
    refine .count ?_
    rw [← Multiset.count_pos, ← same, Multiset.count_pos]
    exact counted

theorem holds_retain :
    (l.retain g).Holds key value ↔
      if key = Key.reference g then value = Bytes.ofNat 8 (l.references.count g + 1)
      else l.Holds key value := by
  split
  · next same =>
    subst same
    have counted : g ∈ (l.retain g).references := Multiset.mem_cons_self g l.references
    have more : (l.retain g).references.count g = l.references.count g + 1 :=
      Multiset.count_cons_self g l.references
    rw [holds_reference, more]
    exact and_iff_right counted
  · next other =>
    have counts : ∀ g', key = Key.reference g' →
        (l.retain g).references.count g' = l.references.count g' := by
      intro g' here
      have different : g' ≠ g := fun same => other (by rw [here, same])
      exact Multiset.count_cons_of_ne different l.references
    exact ⟨fun h => h.congr rfl counts, fun h => h.congr rfl fun g' here => (counts g' here).symm⟩

theorem holds_release :
    (l.release g).Holds key value ↔
      if key = Key.reference g then
        1 < l.references.count g ∧ value = Bytes.ofNat 8 (l.references.count g - 1)
      else l.Holds key value := by
  split
  · next same =>
    subst same
    have fewer : (l.release g).references.count g = l.references.count g - 1 :=
      Multiset.count_erase_self g l.references
    rw [holds_reference, ← Multiset.count_pos, fewer]
    exact and_congr_left fun _ => by omega
  · next other =>
    have counts : ∀ g', key = Key.reference g' →
        (l.release g).references.count g' = l.references.count g' := by
      intro g' here
      have different : g' ≠ g := fun same => other (by rw [here, same])
      exact Multiset.count_erase_of_ne different l.references
    exact ⟨fun h => h.congr rfl counts, fun h => h.congr rfl fun g' here => (counts g' here).symm⟩

/-- Two documents with an index key in common share their place. -/
theorem holds_drop (sound : l.Sound) (live : d ∈ l.documents) :
    (l.drop d).Holds key value ↔
      key ≠ d.key ∧ key ≠ Key.pathIndex d.entry ∧ key ≠ Key.timeIndex d.entry ∧
        l.Holds key value := by
  constructor
  · intro h
    have apart : ∀ e ∈ (l.drop d).documents, e ∈ l.documents ∧ e.key ≠ d.key := by
      intro e member
      obtain ⟨different, there⟩ := Finset.mem_erase.mp member
      exact ⟨there, fun same => different (sound.distinct e there d live same)⟩
    cases h with
    | document member =>
      obtain ⟨there, different⟩ := apart _ member
      exact ⟨different, by rintro ⟨⟩, by rintro ⟨⟩, .document there⟩
    | path member =>
      obtain ⟨there, different⟩ := apart _ member
      refine ⟨by rintro ⟨⟩, ?_, by rintro ⟨⟩, .path there⟩
      exact fun same => different (Document.key_of_pathIndex same)
    | time member =>
      obtain ⟨there, different⟩ := apart _ member
      refine ⟨by rintro ⟨⟩, by rintro ⟨⟩, ?_, .time there⟩
      exact fun same => different (Document.key_of_timeIndex same)
    | count counted =>
      exact ⟨by rintro ⟨⟩, by rintro ⟨⟩, by rintro ⟨⟩, .count (l := l) counted⟩
  · rintro ⟨notKey, notPath, notTime, h⟩
    cases h with
    | document there =>
      refine .document (Finset.mem_erase.mpr ⟨?_, there⟩)
      rintro rfl
      exact notKey rfl
    | path there =>
      refine .path (Finset.mem_erase.mpr ⟨?_, there⟩)
      rintro rfl
      exact notPath rfl
    | time there =>
      refine .time (Finset.mem_erase.mpr ⟨?_, there⟩)
      rintro rfl
      exact notTime rfl
    | count counted => exact .count (l := l.drop d) counted

theorem holds_add (vacant : ∀ e ∈ l.documents, e.key ≠ d.key) :
    (l.add d).Holds key value ↔
      if key = Key.timeIndex d.entry then value = d.key
      else if key = Key.pathIndex d.entry then value = d.key
      else if key = d.key then value = d.encode
      else l.Holds key value := by
  have here : d ∈ (l.add d).documents := Finset.mem_insert_self d l.documents
  constructor
  · intro h
    cases h with
    | document member =>
      rw [if_neg (by rintro ⟨⟩), if_neg (by rintro ⟨⟩)]
      rcases Finset.mem_insert.mp member with rfl | there
      · rw [if_pos rfl]
      · rw [if_neg (vacant _ there)]
        exact .document there
    | path member =>
      rw [if_neg (by rintro ⟨⟩)]
      rcases Finset.mem_insert.mp member with rfl | there
      · rw [if_pos rfl]
      · rw [if_neg fun same => vacant _ there (Document.key_of_pathIndex same),
          if_neg (by rintro ⟨⟩)]
        exact .path there
    | time member =>
      rcases Finset.mem_insert.mp member with rfl | there
      · rw [if_pos rfl]
      · rw [if_neg fun same => vacant _ there (Document.key_of_timeIndex same),
          if_neg (by rintro ⟨⟩), if_neg (by rintro ⟨⟩)]
        exact .time there
    | count counted =>
      rw [if_neg (by rintro ⟨⟩), if_neg (by rintro ⟨⟩), if_neg (by rintro ⟨⟩)]
      exact .count (l := l) counted
  · intro h
    split at h
    · next same =>
      rw [same, h]
      exact .time here
    · split at h
      · next same =>
        rw [same, h]
        exact .path here
      · split at h
        · next same =>
          rw [same, h]
          exact .document here
        · cases h with
          | document there => exact .document (Finset.mem_insert_of_mem there)
          | path there => exact .path (Finset.mem_insert_of_mem there)
          | time there => exact .time (Finset.mem_insert_of_mem there)
          | count counted => exact .count (l := l.add d) counted

end Changes

/-! ### Sound ledgers -/

namespace Sound

variable {l : Ledger} {d cause : Document} {g : Digest}

theorem empty : Ledger.empty.Sound where
  distinct d member := absurd member (Finset.notMem_empty d)
  readable d member := absurd member (Finset.notMem_empty d)
  few := by decide

theorem retold (sound : l.Sound) (events : List Event) : (l.retold events).Sound :=
  ⟨sound.distinct, sound.readable, sound.few⟩

theorem retain (sound : l.Sound) (room : l.references.card + 1 < 256 ^ 8) : (l.retain g).Sound where
  distinct := sound.distinct
  readable := sound.readable
  few := by
    rw [Ledger.retain, Multiset.card_cons]
    exact room

theorem add (sound : l.Sound) (vacant : ∀ e ∈ l.documents, e.key ≠ d.key)
    (readable : Document.decode d.encode = .ok d) : (l.add d).Sound where
  distinct e there f there' same := by
    rcases Finset.mem_insert.mp there with rfl | old
    · rcases Finset.mem_insert.mp there' with rfl | old'
      · rfl
      · exact absurd same.symm (vacant f old')
    · rcases Finset.mem_insert.mp there' with rfl | old'
      · exact absurd same (vacant e old)
      · exact sound.distinct e old f old' same
  readable e there := by
    rcases Finset.mem_insert.mp there with rfl | there
    · exact readable
    · exact sound.readable e there
  few := sound.few

end Sound

/-! ### Changes of the contents -/

namespace Describes

variable [Crypto] {l : Ledger} {entries payloads : Contents} {d : Document} {g : Digest}

theorem empty : Ledger.empty.Describes .empty .empty where
  records key value := by
    rw [Contents.get?_empty]
    refine ⟨by rintro ⟨⟩, fun h => ?_⟩
    cases h with
    | document live => exact absurd live (Finset.notMem_empty _)
    | path live => exact absurd live (Finset.notMem_empty _)
    | time live => exact absurd live (Finset.notMem_empty _)
    | count counted => exact absurd counted (Multiset.notMem_zero _)
  stored g := by
    rw [Contents.get?_empty]
    exact ⟨fun member => absurd member (Finset.notMem_empty g), by rintro ⟨⟩⟩
  hashes key value := by
    rw [Contents.get?_empty]
    rintro ⟨⟩

theorem retold (describes : l.Describes entries payloads) (events : List Event) :
    (l.retold events).Describes entries payloads where
  records key value := by
    rw [describes.records]
    exact ⟨fun h => h.congr rfl fun _ _ => rfl, fun h => h.congr rfl fun _ _ => rfl⟩
  stored := describes.stored
  hashes := describes.hashes

theorem store (describes : l.Describes entries payloads) (payload : Bytes) :
    (l.store (Crypto.digest payload)).Describes entries
      (payloads.insert (Crypto.digest payload).bytes payload) where
  records key value := by
    rw [describes.records]
    exact ⟨fun h => h.congr rfl fun _ _ => rfl, fun h => h.congr rfl fun _ _ => rfl⟩
  stored g := by
    rw [Contents.get?_insert, Ledger.store, Finset.mem_insert, describes.stored g]
    by_cases same : g = Crypto.digest payload
    · simp [same]
    · rw [if_neg fun bytes => same (Block.ext bytes)]
      exact or_iff_right same
  hashes key value := by
    rw [Contents.get?_insert]
    split
    · next same =>
      intro written
      cases written
      exact same
    · exact describes.hashes key value

theorem retain (describes : l.Describes entries payloads) (g : Digest) :
    (l.retain g).Describes
      (entries.insert (Key.reference g) (Bytes.ofNat 8 (l.references.count g + 1))) payloads where
  records key value := by
    rw [holds_retain, Contents.get?_insert]
    split
    · rw [Option.some.injEq]
      exact eq_comm
    · exact describes.records key value
  stored := describes.stored
  hashes := describes.hashes

/-- The payload goes with its last reference. -/
theorem release_last (describes : l.Describes entries payloads) (last : l.references.count g = 1) :
    (l.release g).Describes (entries.erase (Key.reference g)) (payloads.erase g.bytes) where
  records key value := by
    rw [holds_release, Contents.get?_erase, last]
    split
    · simp
    · exact describes.records key value
  stored g' := by
    have gone : g ∉ l.references.erase g := by
      rw [← Multiset.count_eq_zero, Multiset.count_erase_self, last]
    rw [Contents.get?_erase, Ledger.release, if_neg gone, Finset.mem_erase, describes.stored g']
    by_cases same : g' = g
    · simp [same]
    · rw [if_neg fun bytes => same (Block.ext bytes)]
      exact and_iff_right same
  hashes key value := by
    rw [Contents.get?_erase]
    split
    · rintro ⟨⟩
    · exact describes.hashes key value

theorem release_more (describes : l.Describes entries payloads) (more : 1 < l.references.count g) :
    (l.release g).Describes
      (entries.insert (Key.reference g) (Bytes.ofNat 8 (l.references.count g - 1))) payloads where
  records key value := by
    rw [holds_release, Contents.get?_insert]
    split
    · rw [Option.some.injEq, eq_comm]
      exact (and_iff_right more).symm
    · exact describes.records key value
  stored g' := by
    have left : g ∈ l.references.erase g := by
      rw [← Multiset.count_pos, Multiset.count_erase_self]
      omega
    rw [Ledger.release, if_pos left]
    exact describes.stored g'
  hashes := describes.hashes

theorem drop (describes : l.Describes entries payloads) (sound : l.Sound) (live : d ∈ l.documents) :
    (l.drop d).Describes
      (((entries.erase d.key).erase (Key.pathIndex d.entry)).erase (Key.timeIndex d.entry))
      payloads where
  records key value := by
    rw [holds_drop sound live, Contents.get?_erase, Contents.get?_erase, Contents.get?_erase,
      ← describes.records key value]
    by_cases time : key = Key.timeIndex d.entry
    · simp [time]
    · by_cases path : key = Key.pathIndex d.entry
      · simp [path]
      · by_cases here : key = d.key
        · simp [here]
        · simp [time, path, here]
  stored := describes.stored
  hashes := describes.hashes

theorem add (describes : l.Describes entries payloads)
    (vacant : ∀ e ∈ l.documents, e.key ≠ d.key) :
    (l.add d).Describes
      (((entries.insert d.key d.encode).insert (Key.pathIndex d.entry) d.key).insert
        (Key.timeIndex d.entry) d.key) payloads where
  records key value := by
    rw [holds_add vacant, Contents.get?_insert, Contents.get?_insert, Contents.get?_insert]
    split
    · rw [Option.some.injEq]
      exact eq_comm
    · split
      · rw [Option.some.injEq]
        exact eq_comm
      · split
        · rw [Option.some.injEq]
          exact eq_comm
        · exact describes.records key value
  stored := describes.stored
  hashes := describes.hashes

end Describes

end Ledger

end DocumentShare
