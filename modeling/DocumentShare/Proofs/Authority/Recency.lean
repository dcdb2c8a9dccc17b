import DocumentShare.Proofs.Authority.Attenuation
import DocumentShare.Proofs.Naming.Descent
import DocumentShare.Proofs.Naming.Ordering

/-!
# Recency

Entries are ranked by `Entry.recency`, a total order in which only entries with the same timestamp,
digest and length are level. `Entry.Beats` adds the places: an entry beats the older ones of its
identity at its path and below.
-/

namespace DocumentShare

namespace Entry

instance : Std.TransCmp recency :=
  inferInstanceAs (Std.TransCmp (compareLex (compareOn Entry.timestamp)
    (compareLex (compareOn Entry.payloadDigest) (compareOn Entry.payloadLength))))

variable {e f g : Entry}

theorem isNewerThan_iff : e.isNewerThan f ↔ f.recency e = .lt := by
  rw [isNewerThan, decide_eq_true_eq]
  exact Std.OrientedCmp.gt_iff_lt

theorem isNewerThan_trans (first : e.isNewerThan f) (second : f.isNewerThan g) :
    e.isNewerThan g := by
  rw [isNewerThan_iff] at first second ⊢
  exact Std.TransCmp.lt_trans second first

theorem isNewerThan_asymm (newer : e.isNewerThan f) : f.isNewerThan e = false := by
  have less : f.recency e = .lt := isNewerThan_iff.mp newer
  rw [isNewerThan, less]
  rfl

theorem not_isNewerThan_trans (first : e.isNewerThan f = false) (second : f.isNewerThan g = false) :
    e.isNewerThan g = false := by
  simp only [isNewerThan, decide_eq_false_iff_not, ← Ordering.isLE_iff_ne_gt] at *
  exact Std.TransCmp.isLE_trans first second

theorem timestamp_eq_of_level (first : e.isNewerThan f = false) (second : f.isNewerThan e = false) :
    e.timestamp = f.timestamp := by
  have level : e.recency f = .eq := by
    rw [isNewerThan, decide_eq_false_iff_not] at first second
    rw [Std.OrientedCmp.gt_iff_lt] at second
    cases rank : e.recency f with
    | lt => exact absurd rank second
    | eq => rfl
    | gt => exact absurd rank first
  exact Std.LawfulEqCmp.eq_of_compare (Ordering.then_eq_eq.mp level).1

theorem not_isNewerThan_of_earlier (earlier : e.timestamp < f.timestamp) :
    e.isNewerThan f = false := by
  have less : e.recency f = .lt := by
    rw [recency, Std.compare_eq_lt.mpr earlier]
    rfl
  rw [isNewerThan, less]
  rfl

theorem not_isNewerThan_self : e.isNewerThan e = false := by
  have level : e.recency e = .eq := Std.ReflCmp.compare_self
  rw [isNewerThan, level]
  rfl

/-- At one place, an entry that is not newer than another is that other or is older. -/
theorem eq_or_isNewerThan (share : e.share = f.share) (identity : e.identity = f.identity)
    (path : e.path = f.path) (notNewer : e.isNewerThan f = false) : e = f ∨ f.isNewerThan e := by
  rw [isNewerThan_iff]
  cases rank : e.recency f with
  | lt => exact .inr rfl
  | gt => simp [isNewerThan, rank] at notNewer
  | eq =>
    unfold recency at rank
    rw [Ordering.then_eq_eq, Ordering.then_eq_eq] at rank
    obtain ⟨timestamps, digests, lengths⟩ := rank
    have timestamp := Std.LawfulEqCmp.eq_of_compare timestamps
    have digest := Std.LawfulEqCmp.eq_of_compare digests
    have length := Std.LawfulEqCmp.eq_of_compare lengths
    obtain ⟨_, _, _, _, _, _⟩ := e
    obtain ⟨_, _, _, _, _, _⟩ := f
    simp_all

/-- The entry is newer than the other and lies at its place or above. -/
structure Beats (f e : Entry) : Prop where
  identity : f.identity = e.identity
  above : f.path = e.path ∨ f.path.isStrictPrefixOf e.path
  newer : f.isNewerThan e

theorem Beats.trans (first : g.Beats f) (second : f.Beats e) : g.Beats e where
  identity := first.identity.trans second.identity
  above := by
    have upper := Path.isPrefixOf_iff_eq_or_strict.mpr first.above
    have lower := Path.isPrefixOf_iff_eq_or_strict.mpr second.above
    exact Path.isPrefixOf_iff_eq_or_strict.mp (Path.isPrefixOf_trans upper lower)
  newer := isNewerThan_trans first.newer second.newer

theorem Beats.irrefl (h : e.Beats e) : False := by
  have newer := h.newer
  rw [not_isNewerThan_self] at newer
  cases newer

end Entry

end DocumentShare
