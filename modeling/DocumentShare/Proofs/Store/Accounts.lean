import DocumentShare.Proofs.Store.Ledger
import DocumentShare.Proofs.Store.Moves

/-!
# Accounts of references

Storage may fail between any two writes, so counts may exceed what documents refer to, but they must
never fall below it. `Contents.Covers` says that each payload is counted for every document that has
it and once more for each time it is to spare. Deleting the entry of a document leaves its digest to
spare, writing one spends it, and counting moves what is to spare along with the count.
-/

namespace DocumentShare

namespace Contents

/-! ### Entries -/

namespace Lists

variable {c c' : Contents} {documents : Finset Document} {d : Document}

theorem empty : Contents.empty.Lists ∅ where
  records key value _ := by simp
  readable d live := absurd live (Finset.notMem_empty d)

theorem congr (lists : c.Lists documents)
    (same : ∀ key, Key.entries.contains key → c'.get? key = c.get? key) : c'.Lists documents where
  records key value inside := by
    rw [same key inside]
    exact lists.records key value inside
  readable := lists.readable

theorem erase (lists : c.Lists documents) (live : d ∈ documents) :
    (c.erase d.key).Lists (documents.erase d) where
  records key value inside := by
    rw [get?_erase]
    split
    · next here =>
      simp only [reduceCtorEq, false_iff, not_exists, not_and]
      intro e member place
      obtain ⟨different, there⟩ := Finset.mem_erase.mp member
      exact absurd (lists.distinct there live (place.symm.trans here)) different
    · next elsewhere =>
      rw [lists.records key value inside]
      constructor
      · rintro ⟨e, there, rfl, rfl⟩
        exact ⟨e, Finset.mem_erase.mpr ⟨fun same => elsewhere (by rw [same]), there⟩, rfl, rfl⟩
      · rintro ⟨e, member, stored⟩
        exact ⟨e, Finset.mem_of_mem_erase member, stored⟩
  readable e member := lists.readable e (Finset.mem_of_mem_erase member)

theorem insert (lists : c.Lists documents) (vacant : ∀ e ∈ documents, e.key ≠ d.key)
    (readable : Document.decode d.encode = .ok d) :
    (c.insert d.key d.encode).Lists (Insert.insert d documents) where
  records key value inside := by
    simp only [get?_insert, Finset.exists_mem_insert]
    split
    · next here =>
      subst here
      have others : ¬∃ e ∈ documents, d.key = e.key ∧ value = e.encode :=
        fun ⟨e, there, place, _⟩ => vacant e there place.symm
      simp [others, eq_comm]
    · next elsewhere =>
      rw [lists.records key value inside]
      simp [elsewhere]
  readable e member := by
    rcases Finset.mem_insert.mp member with rfl | there
    · exact readable
    · exact lists.readable e there

end Lists

/-! ### Counts -/

section Counts

variable {c c' : Contents} {g h : Digest} {key value : Bytes}

theorem count_congr (same : c'.get? (Key.reference g) = c.get? (Key.reference g)) :
    c'.count g = c.count g := by
  rw [count, count, same]

theorem get?_change_reference {ch : Change} :
    (c.change ch).get? (Key.reference g) = c.get? (Key.reference g) := by
  apply get?_change_of_ne
  cases ch.order <;> decide

theorem count_change (ch : Change) : (c.change ch).count g = c.count g :=
  count_congr get?_change_reference

theorem count_insert (other : Key.reference g ≠ key) : (c.insert key value).count g = c.count g :=
  count_congr (get?_insert_of_ne other)

theorem count_erase (other : Key.reference g ≠ key) : (c.erase key).count g = c.count g :=
  count_congr (get?_erase_of_ne other)

theorem count_insert_reference {n : Nat} (small : n < 256 ^ 8) :
    (c.insert (Key.reference g) (Bytes.ofNat 8 n)).count h = if h = g then n else c.count h := by
  split
  · next same =>
    rw [same, count, get?_insert, if_pos rfl, Option.map_some, Option.getD_some,
      Bytes.toNat_ofNat_of_lt small]
  · next other =>
    apply count_insert
    intro same
    exact other (Key.reference_inj same)

theorem count_erase_reference :
    (c.erase (Key.reference g)).count h = if h = g then 0 else c.count h := by
  split
  · next same =>
    rw [same, count, get?_erase, if_pos rfl, Option.map_none, Option.getD_none]
  · next other =>
    apply count_erase
    intro same
    exact other (Key.reference_inj same)

end Counts

/-! ### Covering -/

/-- Every payload is counted for the documents that have it and as often as it is to spare, and no
more than `most` times. -/
structure Covers (c : Contents) (documents : Finset Document) (spare : Multiset Digest)
    (most : Nat) : Prop where
  lists : c.Lists documents
  wide : ∀ g value, c.get? (Key.reference g) = some value → value.length = 8
  covered : ∀ g, spare.count g + (Ledger.digests documents).count g ≤ c.count g
  few : ∀ g, c.count g ≤ most
  room : most < 256 ^ 8

namespace Covers

variable {c c' : Contents} {documents : Finset Document} {spare : Multiset Digest} {most : Nat}
  {d : Document} {g : Digest}

theorem empty : Contents.empty.Covers ∅ 0 0 where
  lists := .empty
  wide g value stored := by simp at stored
  covered g := Nat.le_refl 0
  few g := Nat.le_refl 0
  room := by decide

theorem positive (covers : c.Covers documents spare most) (live : d ∈ documents) :
    0 < c.count d.entry.payloadDigest := by
  have mine : d.entry.payloadDigest ∈ Ledger.digests documents := Multiset.mem_map_of_mem _ live
  have counted := Multiset.count_pos.mpr mine
  have covered := covers.covered d.entry.payloadDigest
  omega

theorem weaken (covers : c.Covers documents spare most) {most' : Nat} (more : most ≤ most')
    (room : most' < 256 ^ 8) : c.Covers documents 0 most' where
  lists := covers.lists
  wide := covers.wide
  covered g := by
    have covered := covers.covered g
    rw [Multiset.count_zero]
    omega
  few g := (covers.few g).trans more
  room := room

theorem congr (covers : c.Covers documents spare most)
    (entries : ∀ key, Key.entries.contains key → c'.get? key = c.get? key)
    (references : ∀ g, c'.get? (Key.reference g) = c.get? (Key.reference g)) :
    c'.Covers documents spare most where
  lists := covers.lists.congr entries
  wide g value stored := covers.wide g value (references g ▸ stored)
  covered g := count_congr (references g) ▸ covers.covered g
  few g := count_congr (references g) ▸ covers.few g
  room := covers.room

theorem index (covers : c.Covers documents spare most) {m : Move} {o : Order}
    (other : o ≠ .identity) : (c.change ⟨m, o⟩).Covers documents spare most := by
  refine covers.congr (fun key inside => ?_) fun g => get?_change_reference
  obtain ⟨rest, rfl⟩ := Key.entries_contains.mp inside
  apply get?_change_of_ne
  exact fun same => other (Order.family_inj (p := .identity) same)

theorem drop (covers : c.Covers documents spare most) (live : d ∈ documents) :
    (c.erase d.key).Covers (documents.erase d) (d.entry.payloadDigest ::ₘ spare) most := by
  have other (g : Digest) : Key.reference g ≠ d.key := by rintro ⟨⟩
  have mine : Ledger.digests documents
      = d.entry.payloadDigest ::ₘ Ledger.digests (documents.erase d) :=
    (Multiset.cons_erase (Multiset.mem_map_of_mem _ live)).symm.trans
      (congrArg _ (Multiset.map_erase_of_mem _ _ live).symm)
  refine ⟨covers.lists.erase live, fun g value stored => ?_, fun g => ?_, fun g => ?_, covers.room⟩
  · rw [get?_erase_of_ne (other g)] at stored
    exact covers.wide g value stored
  · have covered := covers.covered g
    rw [mine] at covered
    rw [count_erase (other g)]
    simp only [Multiset.count_cons] at covered ⊢
    omega
  · rw [count_erase (other g)]
    exact covers.few g

theorem add (covers : c.Covers documents (d.entry.payloadDigest ::ₘ spare) most)
    (vacant : ∀ e ∈ documents, e.key ≠ d.key) (readable : Document.decode d.encode = .ok d) :
    (c.insert d.key d.encode).Covers (Insert.insert d documents) spare most := by
  have other (g : Digest) : Key.reference g ≠ d.key := by rintro ⟨⟩
  have fresh : d ∉ documents := fun live => vacant d live rfl
  have mine : Ledger.digests (Insert.insert d documents)
      = d.entry.payloadDigest ::ₘ Ledger.digests documents := by
    simp [Ledger.digests, Finset.insert_val_of_notMem fresh]
  refine ⟨covers.lists.insert vacant readable, fun g value stored => ?_, fun g => ?_, fun g => ?_,
    covers.room⟩
  · rw [get?_insert_of_ne (other g)] at stored
    exact covers.wide g value stored
  · have covered := covers.covered g
    rw [mine, count_insert (other g)]
    simp only [Multiset.count_cons] at covered ⊢
    omega
  · rw [count_insert (other g)]
    exact covers.few g

/-- Writing or deleting a count changes what is to spare of that payload. -/
theorem recount (covers : c.Covers documents spare most) {spare' : Multiset Digest} {n most' : Nat}
    (entries : ∀ key, Key.entries.contains key → c'.get? key = c.get? key)
    (wide : ∀ h value, c'.get? (Key.reference h) = some value → value.length = 8)
    (counts : ∀ h, c'.count h = if h = g then n else c.count h)
    (here : spare'.count g + (Ledger.digests documents).count g ≤ n) (fits : n ≤ most')
    (others : ∀ h, h ≠ g → spare'.count h = spare.count h) (more : most ≤ most')
    (room : most' < 256 ^ 8) : c'.Covers documents spare' most' where
  lists := covers.lists.congr entries
  wide := wide
  covered h := by
    rw [counts h]
    split
    · next same =>
      rw [same]
      exact here
    · next other =>
      rw [others h other]
      exact covers.covered h
  few h := by
    rw [counts h]
    split
    · exact fits
    · exact (covers.few h).trans more
  room := room

theorem wide_set (covers : c.Covers documents spare most) (n : Nat) (h : Digest) (value : Bytes)
    (stored : (c.insert (Key.reference g) (Bytes.ofNat 8 n)).get? (Key.reference h) = some value) :
    value.length = 8 := by
  rw [get?_insert] at stored
  split at stored
  · cases stored
    exact Bytes.length_ofNat 8 n
  · exact covers.wide h value stored

theorem get?_insert_reference {key value : Bytes} (inside : Key.entries.contains key) :
    (c.insert (Key.reference g) value).get? key = c.get? key := by
  obtain ⟨rest, rfl⟩ := Key.entries_contains.mp inside
  exact get?_insert_of_ne (by rintro ⟨⟩)

theorem retain (covers : c.Covers documents spare most) (room : most + 1 < 256 ^ 8) (g : Digest) :
    (c.insert (Key.reference g) (Bytes.ofNat 8 (c.count g + 1))).Covers documents (g ::ₘ spare)
      (most + 1) := by
  have few := covers.few g
  have covered := covers.covered g
  refine covers.recount (fun _ => get?_insert_reference) (covers.wide_set _)
    (fun h => count_insert_reference (by omega)) ?_ (by omega) (fun h other => ?_)
    (Nat.le_succ most) room
  · rw [Multiset.count_cons_self]
    omega
  · exact Multiset.count_cons_of_ne other spare

theorem release_more (covers : c.Covers documents (g ::ₘ spare) most) :
    (c.insert (Key.reference g) (Bytes.ofNat 8 (c.count g - 1))).Covers documents spare most := by
  have few := covers.few g
  have room := covers.room
  have covered := covers.covered g
  rw [Multiset.count_cons_self] at covered
  refine covers.recount (fun _ => get?_insert_reference) (covers.wide_set _)
    (fun h => count_insert_reference (by omega)) (by omega) (by omega) (fun h other => ?_)
    (Nat.le_refl most) room
  exact (Multiset.count_cons_of_ne other spare).symm

/-- The last count goes only with the last document. -/
theorem release_last (covers : c.Covers documents (g ::ₘ spare) most) (last : c.count g = 1) :
    (c.erase (Key.reference g)).Covers documents spare most := by
  have covered := covers.covered g
  rw [Multiset.count_cons_self] at covered
  refine covers.recount (fun key inside => ?_) (fun h value stored => ?_)
    (fun h => count_erase_reference) (by omega) (Nat.zero_le most) (fun h other => ?_) (Nat.le_refl most) covers.room
  · obtain ⟨rest, rfl⟩ := Key.entries_contains.mp inside
    exact get?_erase_of_ne (by rintro ⟨⟩)
  · rw [get?_erase] at stored
    split at stored
    · cases stored
    · exact covers.wide h value stored
  · exact (Multiset.count_cons_of_ne other spare).symm

end Covers

end Contents

end DocumentShare
