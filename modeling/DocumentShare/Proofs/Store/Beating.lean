import DocumentShare.Proofs.Store.Effects

/-!
# Documents that are not beaten

What makes an entry obsolete has pruned, or kept out, whatever the entry would prune, as long as no
document that the store has is beaten by another (`Ledger.Obsoletes.stale_eq_nil`). Every call but a
clear keeps that up (`Store.noneBeats_of_run`).
-/

namespace DocumentShare

open Work

theorem Document.yieldsTo_of_beats {d e : Document} (beats : d.entry.Beats e.entry) :
    e.yieldsTo d := by
  have below : d.path.isPrefixOf e.path := Path.isPrefixOf_iff_eq_or_strict.mpr beats.above
  have same : e.identity = d.identity := beats.identity.symm
  simp [yieldsTo, same, below, beats.newer]

namespace Ledger

/-! ### Documents that are not beaten -/

/-- No document of a kind is beaten by another. -/
def NoneBeats (kind : Entry → Prop) (documents : Finset Document) : Prop :=
  ∀ d ∈ documents, kind d.entry → ∀ a ∈ documents, ¬a.entry.Beats d.entry

section Steps

variable {l l' : Ledger} {d : Document} {e : Entry} {brought : Bool} {previous : Option Document}
  {stale : List Document} {kind : Entry → Prop}

/-- What a new document beats is gone, so it only has to be unbeaten itself. -/
theorem Wrote.noneBeats (wrote : l.Wrote d brought previous stale l')
    (held : NoneBeats kind l.documents)
    (highest : kind d.entry → ∀ a ∈ l.documents, previous ≠ some a → ¬a.entry.Beats d.entry) :
    NoneBeats kind l'.documents := by
  intro e live here a live' beats
  obtain rfl | ⟨there, kept, fresh⟩ := wrote.mem_documents.mp live
  · obtain rfl | ⟨there', kept', _⟩ := wrote.mem_documents.mp live'
    · exact beats.irrefl
    · exact highest here a there' kept' beats
  · obtain rfl | ⟨there', _, _⟩ := wrote.mem_documents.mp live'
    · obtain replaced | pruned := (wrote.yieldsTo_iff there).mp (Document.yieldsTo_of_beats beats)
      · exact kept replaced
      · exact fresh pruned
    · exact held e there here a there' beats

/-- What beats an entry and is not in its place makes it obsolete. -/
theorem obsoletes_of_beats {a : Document} (here : l.At d.identity d.path previous)
    (live : a ∈ l.documents) (other : previous ≠ some a) (beats : a.entry.Beats d.entry) :
    l.Obsoletes d.entry := by
  obtain ⟨sameIdentity, samePath | strict, newer⟩ := beats
  · exact absurd ((here a).mpr ⟨live, sameIdentity, samePath⟩) other
  · exact ⟨a, live, sameIdentity, .inr ⟨strict, newer⟩⟩

/-- A document that is not obsolete when it is written is not beaten. -/
theorem Wrote.noneBeats_of_newest (wrote : l.Wrote d brought previous stale l')
    (held : NoneBeats kind l.documents) (newest : ¬l.Obsoletes d.entry) :
    NoneBeats kind l'.documents :=
  wrote.noneBeats held fun _ _ live other beats =>
    newest (obsoletes_of_beats wrote.here live other beats)

theorem Sets.noneBeats {prune : Bool} {r : Except StoreError Outcome} (sets : l.Sets e prune r l')
    (held : NoneBeats kind l.documents) : NoneBeats kind l'.documents := by
  cases sets with
  | prevented pruned some forbidden => exact held
  | failed error => exact held
  | unauthorised => exact held
  | obsolete h => exact held
  | @written token previous stale newest upright here pruned permitted =>
    have wrote := wrote_tell (d := ⟨e, token⟩) true here pruned (.documentSet ⟨e, token⟩)
    exact wrote.noneBeats_of_newest held newest

variable [Crypto]

theorem Ingests.noneBeats {share : Share} {t : Token} {payload : Option Bytes} {o : Outcome}
    (ingests : l.Ingests share e t payload o l') (held : NoneBeats kind l.documents) :
    NoneBeats kind l'.documents := by
  cases ingests with
  | refused refusal => exact held
  | obsolete accepted h => exact held
  | @written previous stale accepted newest here pruned =>
    have wrote := wrote_acceptance (d := ⟨e, t⟩) payload.isSome here pruned
    exact wrote.noneBeats_of_newest held newest

/-- Clears are left to be looked at, the only calls that do not ask whether they are obsolete. -/
theorem Performs.noneBeats {s : Store} {c : Call} {r : Except StoreError Reply}
    (performs : l.Performs s c r l') (held : NoneBeats kind l.documents)
    (cleared : ∀ identity path r, c = .clear identity path → l.Clears s identity path r l' →
      NoneBeats kind l'.documents) : NoneBeats kind l'.documents := by
  cases performs with
  | set sets => exact sets.noneBeats held
  | setAtAddress named sets => exact sets.noneBeats held
  | misnamed misnamed => exact held
  | clear clears => exact cleared _ _ _ rfl clears
  | ingest ingests => exact ingests.noneBeats held
  | arrived live here => exact held
  | unclaimed => exact held
  | pack p => exact held
  | done => exact held
  | barred error => exact held

end Steps

end Ledger

namespace Store

variable [Crypto] {s : Store} {t u : Site} {log : List Exchange}

theorem noneBeats_of_run {kind : Entry → Prop} (apart : s.Apart) (fresh : s.Fresh t)
    (run : s.Run s.Spares t log u) (few : log.length < 256 ^ 8)
    (cleared : ∀ x ∈ log, ∀ identity path, x.call = .clear identity path → ∀ l l' r,
      Ledger.Clears s l identity path r l' → Ledger.NoneBeats kind l.documents →
        Ledger.NoneBeats kind l'.documents) : Ledger.NoneBeats kind (s.documents u) := by
  induction run with
  | start =>
    rw [fresh.tracks.documents]
    intro d live
    exact absurd live (Finset.notMem_empty d)
  | @aside log u v run spares ih =>
    obtain ⟨⟨l, tracks, _⟩, _⟩ := upkeep_of_run apart fresh run few
    have held := ih few cleared
    rw [tracks.documents] at held
    rw [(spares.tracks tracks).documents]
    exact held
  | @call log u run c ih =>
    rw [List.length_cons] at few
    obtain ⟨⟨l, tracks, upkeep⟩, _⟩ := upkeep_of_run apart fresh run (by omega)
    have room : l.documents.card + 1 < 256 ^ 8 :=
      Nat.lt_of_le_of_lt (Nat.succ_le_succ upkeep.few) few
    obtain ⟨l', performs, tracks'⟩ := tracks.perform apart upkeep.balanced room c
    have held := ih (by omega) fun x member => cleared x (List.mem_cons_of_mem _ member)
    rw [tracks.documents] at held
    rw [tracks'.documents]
    refine performs.noneBeats held fun identity path r same clears => ?_
    exact cleared _ List.mem_cons_self identity path same l l' r clears held

end Store

namespace Ledger

variable {l : Ledger} {e : Entry} {stale : List Document}

/-! ### What an obsolete entry would prune -/

/-- Where nothing is beaten, an obsolete entry is newer than no document below it: that document would
be beaten by what makes the entry obsolete. -/
theorem Obsoletes.stale_eq_nil (obsolete : l.Obsoletes e) (pruned : l.Stale e stale)
    (held : NoneBeats (fun _ => True) l.documents) : stale = [] := by
  apply List.eq_nil_iff_forall_not_mem.mpr
  intro d member
  obtain ⟨live, identity, below, _, newer⟩ := (pruned.mem_iff d).mp member
  obtain ⟨a, there, sameIdentity, atPlace⟩ := obsolete
  refine held d live trivial a there ⟨sameIdentity.trans identity.symm, ?_, ?_⟩
  · apply Path.isPrefixOf_iff_eq_or_strict.mp
    obtain ⟨samePath, _⟩ | ⟨strict, _⟩ := atPlace
    · rw [← samePath] at below
      exact below
    · exact Path.isPrefixOf_trans (Path.isPrefixOf_iff_eq_or_strict.mpr (.inr strict)) below
  · obtain ⟨_, notNewer⟩ | ⟨_, above⟩ := atPlace
    · by_contra notAbove
      have level := Entry.not_isNewerThan_trans notNewer (Bool.not_eq_true _ ▸ notAbove)
      rw [newer] at level
      cases level
    · exact Entry.isNewerThan_trans above newer

end Ledger

end DocumentShare
