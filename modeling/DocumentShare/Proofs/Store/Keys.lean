import DocumentShare.Proofs.Authority.Encoding
import DocumentShare.Proofs.Storage.Contents
import DocumentShare.Store.Document
import DocumentShare.Store.Key

/-!
# Keys tell documents apart

Within a family, a key determines what it was made of, and the range below a path contains exactly
the entry keys of the paths that continue it (`Key.entriesBelow_contains`).
-/

namespace DocumentShare

namespace Key

theorem entry_inj {i j : Identity} {p q : Path} (same : entry i p = entry j q) : i = j ∧ p = q := by
  obtain ⟨identities, paths⟩ := Identifier.encode_append_inj (List.cons.inj same).2
  refine ⟨identities, ?_⟩
  exact (Path.ordered_append_inj (s := []) (t := []) (by simpa using paths)).1

theorem pathIndex_inj {e f : Entry} (same : pathIndex e = pathIndex f) :
    e.path = f.path ∧ e.timestamp = f.timestamp ∧ e.identity = f.identity := by
  have bytes := (List.cons.inj same).2
  rw [List.append_assoc, List.append_assoc] at bytes
  obtain ⟨paths, rest⟩ := Path.ordered_append_inj bytes
  obtain ⟨times, rest⟩ := Bytes.ofWord_append_inj rest
  refine ⟨paths, times, ?_⟩
  exact (Identifier.encode_append_inj (s := []) (t := []) (by simpa using rest)).1

theorem timeIndex_inj {e f : Entry} (same : timeIndex e = timeIndex f) :
    e.timestamp = f.timestamp ∧ e.identity = f.identity ∧ e.path = f.path := by
  have bytes := (List.cons.inj same).2
  rw [List.append_assoc, List.append_assoc] at bytes
  obtain ⟨times, rest⟩ := Bytes.ofWord_append_inj bytes
  obtain ⟨identities, rest⟩ := Identifier.encode_append_inj rest
  refine ⟨times, identities, ?_⟩
  exact (Path.ordered_append_inj (s := []) (t := []) (by simpa using rest)).1

theorem reference_inj {g h : Digest} (same : reference g = reference h) : g = h :=
  Block.ext (List.cons.inj same).2

theorem entries_contains {key : Bytes} : entries.contains key ↔ ∃ rest, key = 0 :: rest := by
  refine ⟨KeyRange.cons_of_startingWith, fun ⟨rest, same⟩ => ?_⟩
  exact KeyRange.contains_startingWith.mpr ⟨rest, same.symm⟩

/-- Indexes and counts are kept under keys of other families. -/
theorem entries_contains_cons {family : UInt8} {rest : Bytes} :
    entries.contains (family :: rest) ↔ family = 0 := by
  rw [entries_contains]
  constructor
  · rintro ⟨_, same⟩
    exact (List.cons.inj same).1
  · rintro rfl
    exact ⟨rest, rfl⟩

/-- A key in a range below a path is of the family of entries. -/
theorem of_entriesBelow {i : Identity} {p : Path} {key : Bytes}
    (inside : (entriesBelow i p).contains key) : ∃ rest, key = 0 :: rest :=
  KeyRange.cons_of_startingWith inside

theorem entriesBelow_contains {i j : Identity} {p q : Path} :
    (entriesBelow i p).contains (entry j q) ↔ i = j ∧ p.isPrefixOf q := by
  rw [entriesBelow, KeyRange.contains_startingWith, ← Path.orderedComponents_append_iff]
  constructor
  · rintro ⟨rest, same⟩
    have bytes : i.encode ++ p.orderedComponents ++ rest = j.encode ++ q.ordered :=
      (List.cons.inj same).2
    rw [List.append_assoc] at bytes
    obtain ⟨identities, paths⟩ := Identifier.encode_append_inj bytes
    exact ⟨identities, rest, paths⟩
  · rintro ⟨rfl, rest, same⟩
    refine ⟨rest, ?_⟩
    simp [entry, ← same]

end Key

def Document.key (d : Document) : Bytes := Key.entry d.identity d.path

theorem Document.key_inj {d e : Document} :
    d.key = e.key ↔ d.identity = e.identity ∧ d.path = e.path := by
  constructor
  · exact Key.entry_inj
  · rintro ⟨identities, paths⟩
    rw [key, key, identities, paths]

theorem Document.nodup_of_ascending {ds : List Document} {key : Document → Bytes}
    (ascending : ds.Pairwise fun d d' => key d < key d') : ds.Nodup := by
  refine ascending.imp fun {d d'} less same => ?_
  rw [same] at less
  exact List.lt_irrefl _ less

theorem Document.eq_of_ascending {ds es : List Document}
    (ascending : ds.Pairwise fun d d' => d.key < d'.key)
    (ascending' : es.Pairwise fun d d' => d.key < d'.key) (same : ∀ d, d ∈ ds ↔ d ∈ es) : ds = es := by
  have perm : ds.Perm es := (List.perm_ext_iff_of_nodup (Document.nodup_of_ascending ascending)
    (Document.nodup_of_ascending ascending')).mpr same
  refine perm.eq_of_pairwise (fun d e _ _ less greater => ?_) ascending ascending'
  exact absurd greater (List.lt_asymm less)

end DocumentShare
