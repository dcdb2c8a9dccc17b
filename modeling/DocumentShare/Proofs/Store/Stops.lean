import DocumentShare.Proofs.Store.Moves
import DocumentShare.Proofs.Store.Querying

/-!
# Where moves stop

A move changes the entry of a document first and then its indexes, so a list of moves can stop between
two records of a document. `Contents.Lists.stopped` says what is there then: the entries are those of
some documents, and an order has as many records as there are entries iff the next change does not hold
it up.
-/

namespace DocumentShare

theorem Move.card_applyTo (m : Move) {documents : Finset Document} (fits : m.Fits documents) :
    documents.card ≠ (m.applyTo documents).card := by
  cases m with
  | put d =>
    have absent : d ∉ documents := fun live => fits.2 d live rfl
    have more := Finset.card_insert_of_notMem absent
    show _ ≠ (insert d documents).card
    omega
  | drop d =>
    have fewer := Finset.card_erase_add_one (s := documents) (a := d) fits
    show _ ≠ (documents.erase d).card
    omega

namespace Change

/-- Whether an order is behind the entries when a move has stopped before this change. -/
def holdsUp (ch : Change) (o : Order) : Bool :=
  match ch.order with
  | .identity => false
  | .path => o ≠ .identity
  | .timestamp => o = .timestamp

end Change

namespace Contents

variable {c : Contents} {documents documents' : Finset Document} {m : Move} {o p : Order}

theorem Files.change_of_ne (files : c.Files o documents) (other : p ≠ o) :
    (c.change ⟨m, p⟩).Files o documents := by
  intro rest value
  rw [get?_change_of_ne fun same => other (Order.family_inj same)]
  exact files rest value

theorem Files.change (files : c.Files o documents)
    (distinct : ∀ d ∈ documents, ∀ e ∈ documents, d.key = e.key → d = e) (fits : m.Fits documents) :
    (c.change ⟨m, o⟩).Files o (m.applyTo documents) := by
  intro rest value
  have before := files rest value
  cases m with
  | put d =>
    obtain ⟨_, vacant⟩ := fits
    show (c.insert (o.key d) (o.value d)).get? _ = _ ↔ ∃ e ∈ Insert.insert d documents, _
    rw [get?_insert]
    by_cases here : o.family :: rest = o.key d
    · -- No other document has the key, neither in this order nor among the entries.
      rw [if_pos here, here]
      constructor
      · rintro ⟨⟩
        exact ⟨d, Finset.mem_insert_self _ _, rfl, rfl⟩
      · rintro ⟨e, member, place, rfl⟩
        rcases Finset.mem_insert.mp member with rfl | live
        · rfl
        · exact absurd (Order.key_inj place).symm (vacant e live)
    · rw [if_neg here, before]
      constructor
      · rintro ⟨e, live, place⟩
        exact ⟨e, Finset.mem_insert_of_mem live, place⟩
      · rintro ⟨e, member, place, stored⟩
        rcases Finset.mem_insert.mp member with rfl | live
        · exact absurd place here
        · exact ⟨e, live, place, stored⟩
  | drop d =>
    show (c.erase (o.key d)).get? _ = _ ↔ ∃ e ∈ documents.erase d, _
    rw [get?_erase]
    by_cases here : o.family :: rest = o.key d
    · rw [if_pos here, here]
      constructor
      · rintro ⟨⟩
      · rintro ⟨e, member, place, _⟩
        obtain ⟨other, live⟩ := Finset.mem_erase.mp member
        exact absurd (distinct e live d fits (Order.key_inj place).symm) other
    · rw [if_neg here, before]
      constructor
      · rintro ⟨e, live, place, stored⟩
        refine ⟨e, Finset.mem_erase.mpr ⟨?_, live⟩, place, stored⟩
        rintro rfl
        exact here place
      · rintro ⟨e, member, place⟩
        exact ⟨e, (Finset.mem_erase.mp member).2, place⟩

/-- Where a move has come to in an order, before its second change, before its third and behind it. -/
theorem Files.moved (files : c.Files o documents)
    (distinct : ∀ d ∈ documents, ∀ e ∈ documents, d.key = e.key → d = e) (fits : m.Fits documents) :
    (c.change ⟨m, .identity⟩).Files o
      (if Change.holdsUp ⟨m, .path⟩ o then documents else m.applyTo documents) ∧
    ((c.change ⟨m, .identity⟩).change ⟨m, .path⟩).Files o
      (if Change.holdsUp ⟨m, .timestamp⟩ o then documents else m.applyTo documents) ∧
    (c.after m.changes).Files o (m.applyTo documents) := by
  cases o with
  | identity =>
    have first := files.change distinct fits
    have second := first.change_of_ne (m := m) (p := .path) (by decide)
    exact ⟨first, second, second.change_of_ne (by decide)⟩
  | path =>
    have first := files.change_of_ne (m := m) (p := .identity) (by decide)
    have second := first.change distinct fits
    exact ⟨first, second, second.change_of_ne (by decide)⟩
  | timestamp =>
    have first := files.change_of_ne (m := m) (p := .identity) (by decide)
    have second := first.change_of_ne (m := m) (p := .path) (by decide)
    exact ⟨first, second, second.change distinct fits⟩

theorem Lists.moved (lists : c.Lists documents) (fits : m.Fits documents) :
    (c.change ⟨m, .identity⟩).Lists (m.applyTo documents) ∧
    ((c.change ⟨m, .identity⟩).change ⟨m, .path⟩).Lists (m.applyTo documents) ∧
    (c.after m.changes).Lists (m.applyTo documents) := by
  obtain ⟨files, readable⟩ := lists_iff.mp lists
  obtain ⟨first, second, third⟩ := files.moved (fun d live e => lists.distinct live) fits
  have readable' : ∀ e ∈ m.applyTo documents, Document.decode e.encode = .ok e := by
    intro e member
    cases m with
    | put d =>
      rcases Finset.mem_insert.mp member with rfl | live
      · exact fits.1
      · exact readable e live
    | drop d => exact readable e (Finset.mem_erase.mp member).2
  exact ⟨lists_iff.mpr ⟨first, readable'⟩, lists_iff.mpr ⟨second, readable'⟩,
    lists_iff.mpr ⟨third, readable'⟩⟩

/-- Stopped before a change of an index, with the entry moved already. -/
theorem torn {c : Contents} {m : Move} {documents indexed : Finset Document} {o : Order}
    {left : List Change} {ch : Change} (lists : c.Lists (m.applyTo documents))
    (files : c.Files o indexed)
    (indexed' : indexed = if ch.holdsUp o then documents else m.applyTo documents)
    (distinct : ∀ d ∈ documents, ∀ e ∈ documents, d.key = e.key → d = e) (fits : m.Fits documents) :
    ∃ entries indexed : Finset Document,
      c.Lists entries ∧ c.Files o indexed ∧
      (∀ d ∈ indexed, ∀ e ∈ indexed, d.key = e.key → d = e) ∧
      ((∀ ch' ∈ (ch :: left).head?, ch'.holdsUp o = false) → indexed = entries) ∧
      ((∃ ch' ∈ (ch :: left).head?, ch'.holdsUp o) → indexed.card ≠ entries.card) := by
  refine ⟨_, indexed, lists, files, ?_, ?_, ?_⟩
  · rw [indexed']
    split
    · exact distinct
    · exact fun d live e => lists.distinct live
  · intro free
    rw [indexed', free ch rfl]
    rfl
  · rintro ⟨_, ⟨⟩, held⟩
    rw [indexed', held]
    exact m.card_applyTo fits

/-- At the stop the records of an order are those of the entries, unless the next change holds the
order up. -/
theorem Lists.stopped {moves : List Move} (lists : c.Lists documents) (files : c.Files o documents)
    (course : Course documents moves documents') {done left : List Change}
    (cut : done ++ left = moves.flatMap Move.changes) :
    ∃ entries indexed : Finset Document,
      (c.after done).Lists entries ∧ (c.after done).Files o indexed ∧
      (∀ d ∈ indexed, ∀ e ∈ indexed, d.key = e.key → d = e) ∧
      ((∀ ch ∈ left.head?, ch.holdsUp o = false) → indexed = entries) ∧
      ((∃ ch ∈ left.head?, ch.holdsUp o) → indexed.card ≠ entries.card) := by
  induction course generalizing c done with
  | @nil documents =>
    obtain ⟨rfl, rfl⟩ := List.append_eq_nil_iff.mp cut
    refine ⟨documents, documents, lists, files, fun d live e => lists.distinct live,
      fun _ => rfl, ?_⟩
    rintro ⟨ch, ⟨⟩, _⟩
  | @cons documents documents' m moves fits rest ih =>
    have distinct : ∀ d ∈ documents, ∀ e ∈ documents, d.key = e.key → d = e :=
      fun d live e => lists.distinct live
    obtain ⟨entry, path, whole⟩ := lists.moved fits
    obtain ⟨entry', path', whole'⟩ := files.moved distinct fits
    simp only [List.flatMap_cons, Move.changes, List.cons_append, List.nil_append] at cut
    -- The stop is before, within or behind the three changes of the first move.
    rcases done with _ | ⟨first, _ | ⟨second, _ | ⟨third, done⟩⟩⟩
    · obtain rfl : left = _ := cut
      refine ⟨documents, documents, lists, files, distinct, fun _ => rfl, ?_⟩
      rintro ⟨ch, ⟨⟩, held⟩
      cases held
    · simp only [List.cons_append, List.nil_append, List.cons.injEq] at cut
      obtain ⟨rfl, rfl⟩ := cut
      exact torn entry entry' rfl distinct fits
    · simp only [List.cons_append, List.nil_append, List.cons.injEq] at cut
      obtain ⟨rfl, rfl, rfl⟩ := cut
      exact torn path path' rfl distinct fits
    · simp only [List.cons_append, List.cons.injEq] at cut
      obtain ⟨rfl, rfl, rfl, cut⟩ := cut
      exact ih whole whole' cut

theorem Lists.arrived {moves : List Move} (lists : c.Lists documents) (files : c.Files o documents)
    (course : Course documents moves documents') :
    (c.after (moves.flatMap Move.changes)).Lists documents' ∧
      (c.after (moves.flatMap Move.changes)).Files o documents' := by
  induction course generalizing c with
  | nil => exact ⟨lists, files⟩
  | cons fits rest ih =>
    obtain ⟨_, _, whole⟩ := lists.moved fits
    obtain ⟨_, _, whole'⟩ := files.moved (fun d live e => lists.distinct live) fits
    rw [List.flatMap_cons, after_append]
    exact ih whole whole'

theorem Files.length_within (files : c.Files o documents)
    (distinct : ∀ d ∈ documents, ∀ e ∈ documents, d.key = e.key → d = e) (direction : Direction) :
    (c.within (Query.all o direction).range).length = documents.card := by
  obtain ⟨ds, same, ascending, member⟩ := Files.items (q := .all o direction) files distinct
  have all : ds.toFinset = documents := by
    ext d
    rw [List.mem_toFinset, member]
    exact and_iff_left (Query.range_contains_key (Query.matches_all o direction d))
  rw [same, List.length_map, ← all,
    List.toFinset_card_of_nodup (Document.nodup_of_ascending ascending)]

end Contents

end DocumentShare
