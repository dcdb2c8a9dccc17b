import DocumentShare.Proofs.Store.Keys
import DocumentShare.Store.Event
import Mathlib.Data.Finset.Card
import Mathlib.Data.Multiset.AddSub
import Mathlib.Data.Multiset.MapFold

/-!
# Ledgers

A ledger is what an archive stands for: its documents, the digests that are counted, and the payloads
that are stored. Writing a document counts its digest first, then removes what it replaces, and then
what it prunes; `Balanced` is the invariant of these steps, with the digests that are counted in
advance to spare. `mem_payloads_insertion` says which payloads are left.
-/

namespace DocumentShare

structure Ledger where
  documents : Finset Document
  /-- The digests of payloads, each as often as it is counted. -/
  references : Multiset Digest
  payloads : Finset Digest
  /-- What has happened, the last first. -/
  events : List Event

namespace Ledger

def empty : Ledger := ⟨∅, 0, ∅, []⟩

def retold (l : Ledger) (events : List Event) : Ledger := { l with events }

def tell (l : Ledger) (e : Event) : Ledger := l.retold (e :: l.events)

def store (l : Ledger) (g : Digest) : Ledger := { l with payloads := insert g l.payloads }

def retain (l : Ledger) (g : Digest) : Ledger := { l with references := g ::ₘ l.references }

def add (l : Ledger) (d : Document) : Ledger := { l with documents := insert d l.documents }

def drop (l : Ledger) (d : Document) : Ledger := { l with documents := l.documents.erase d }

/-- A payload that is no longer counted is no longer stored. -/
def release (l : Ledger) (g : Digest) : Ledger :=
  { l with
    references := l.references.erase g
    payloads := if g ∈ l.references.erase g then l.payloads else l.payloads.erase g }

def erases (l : Ledger) (g : Digest) : Bool := g ∉ l.references.erase g ∧ g ∈ l.payloads

/-- The ledger without a document that another replaced or pruned. -/
def remove (l : Ledger) (d cause : Document) : Ledger :=
  let g := d.entry.payloadDigest
  let dropped := (l.drop d).tell (.entryRemoved d cause)
  if l.erases g then (dropped.release g).tell (.payloadRemoved g d cause) else dropped.release g

def removeAll (l : Ledger) (ds : List Document) (cause : Document) : Ledger :=
  ds.foldl (fun l d => l.remove d cause) l

/-- The ledger with a document in the place of another. -/
def replacement (l : Ledger) (d : Document) (previous : Option Document) : Ledger :=
  ((l.retain d.entry.payloadDigest).removeAll previous.toList d).add d

/-- The ledger with a document in the place of another and without stale ones. -/
def insertion (l : Ledger) (d : Document) (previous : Option Document) (stale : List Document) :
    Ledger :=
  (l.replacement d previous).removeAll stale d

/-! ### What is read -/

/-- What an identity has at a path. -/
def At (l : Ledger) (identity : Identity) (path : Path) (o : Option Document) : Prop :=
  ∀ d, o = some d ↔ d ∈ l.documents ∧ d.identity = identity ∧ d.path = path

/-- The older documents of the same identity below an entry, in the order of their keys. -/
structure Stale (l : Ledger) (e : Entry) (stale : List Document) : Prop where
  ascending : stale.Pairwise (fun d d' => d.key < d'.key)
  mem_iff : ∀ d, d ∈ stale ↔ d ∈ l.documents ∧ d.identity = e.identity ∧
    e.path.isPrefixOf d.path ∧ d.path ≠ e.path ∧ e.isNewerThan d.entry

/-- A document at the place of an entry is at least as recent, or one above it is newer. -/
def Obsoletes (l : Ledger) (e : Entry) : Prop :=
  ∃ d ∈ l.documents, d.identity = e.identity ∧
    (d.path = e.path ∧ e.isNewerThan d.entry = false ∨
      d.path.isStrictPrefixOf e.path ∧ d.entry.isNewerThan e)

section Stale

variable {l : Ledger} {e : Entry} {stale stale' : List Document}

theorem Stale.nodup (pruned : l.Stale e stale) : stale.Nodup :=
  Document.nodup_of_ascending pruned.ascending

theorem Stale.unique (pruned : l.Stale e stale) (pruned' : l.Stale e stale') : stale = stale' :=
  Document.eq_of_ascending pruned.ascending pruned'.ascending fun d =>
    (pruned.mem_iff d).trans (pruned'.mem_iff d).symm

end Stale

/-! ### What removing does -/

section Removal

variable {l : Ledger} {d e cause : Document} {g : Digest} {ds : List Document}

@[simp] theorem documents_remove : (l.remove d cause).documents = l.documents.erase d := by
  unfold remove
  dsimp only
  split <;> rfl

@[simp] theorem references_remove :
    (l.remove d cause).references = l.references.erase d.entry.payloadDigest := by
  unfold remove
  dsimp only
  split <;> rfl

theorem payloads_remove :
    (l.remove d cause).payloads = (l.release d.entry.payloadDigest).payloads := by
  unfold remove
  dsimp only
  split <;> rfl

theorem mem_documents_removeAll :
    e ∈ (l.removeAll ds cause).documents ↔ e ∈ l.documents ∧ e ∉ ds := by
  induction ds generalizing l with
  | nil => simp [removeAll]
  | cons d ds ih =>
    show e ∈ ((l.remove d cause).removeAll ds cause).documents ↔ _
    rw [ih, documents_remove, Finset.mem_erase, List.mem_cons, not_or]
    tauto

theorem references_removeAll_le : (l.removeAll ds cause).references ≤ l.references := by
  induction ds generalizing l with
  | nil => exact le_refl _
  | cons d ds ih =>
    have fewer := ih (l := l.remove d cause)
    rw [references_remove] at fewer
    exact fewer.trans (Multiset.erase_le _ _)

end Removal

/-! ### Balance -/

def digests (documents : Finset Document) : Multiset Digest :=
  documents.val.map (fun d => d.entry.payloadDigest)

/-- What is counted is what the documents have and what is to spare. -/
def Balanced (l : Ledger) (spare : Multiset Digest) : Prop :=
  l.references = spare + digests l.documents

namespace Balanced

variable {l : Ledger} {spare : Multiset Digest} {d cause : Document} {g : Digest}
  {ds : List Document}

theorem counted (balanced : l.Balanced spare) (live : d ∈ l.documents) :
    d.entry.payloadDigest ∈ l.references := by
  have mine : d.entry.payloadDigest ∈ digests l.documents := Multiset.mem_map_of_mem _ live
  rw [balanced]
  exact Multiset.mem_add.mpr (.inr mine)

theorem retain (balanced : l.Balanced spare) (g : Digest) : (l.retain g).Balanced (g ::ₘ spare) := by
  show g ::ₘ l.references = g ::ₘ spare + digests l.documents
  rw [balanced, Multiset.cons_add]

theorem remove (balanced : l.Balanced spare) (live : d ∈ l.documents) (cause : Document) :
    (l.remove d cause).Balanced spare := by
  have mine : d.entry.payloadDigest ∈ digests l.documents := Multiset.mem_map_of_mem _ live
  unfold Balanced at balanced ⊢
  rw [references_remove, documents_remove, balanced, Multiset.erase_add_right_pos _ mine]
  congr 1
  exact (Multiset.map_erase_of_mem _ _ live).symm

theorem removeAll (balanced : l.Balanced spare) (live : ∀ d ∈ ds, d ∈ l.documents)
    (distinct : ds.Nodup) (cause : Document) : (l.removeAll ds cause).Balanced spare := by
  induction ds generalizing l with
  | nil => exact balanced
  | cons d ds ih =>
    obtain ⟨absent, restDistinct⟩ := List.nodup_cons.mp distinct
    have here := balanced.remove (live d List.mem_cons_self) cause
    refine ih here (fun e member => ?_) restDistinct
    rw [documents_remove, Finset.mem_erase]
    exact ⟨fun same => absent (same ▸ member), live e (List.mem_cons_of_mem _ member)⟩

theorem add (balanced : l.Balanced (d.entry.payloadDigest ::ₘ spare)) (fresh : d ∉ l.documents) :
    (l.add d).Balanced spare := by
  have more : digests (l.add d).documents = d.entry.payloadDigest ::ₘ digests l.documents := by
    simp [digests, Ledger.add, Finset.insert_val_of_notMem fresh]
  unfold Balanced at balanced ⊢
  rw [more, Multiset.add_cons, ← Multiset.cons_add]
  exact balanced

theorem card (balanced : l.Balanced spare) : l.references.card = spare.card + l.documents.card := by
  rw [balanced, Multiset.card_add]
  congr 1
  exact Multiset.card_map _ _

end Balanced

/-! ### Payloads -/

/-- Every payload that is stored is counted. -/
def Backed (l : Ledger) : Prop := ∀ g ∈ l.payloads, g ∈ l.references

theorem mem_payloads_remove {l : Ledger} (backed : l.Backed) {d cause : Document} {g : Digest} :
    g ∈ (l.remove d cause).payloads ↔ g ∈ l.payloads ∧ g ∈ (l.remove d cause).references := by
  rw [payloads_remove, references_remove]
  by_cases same : g = d.entry.payloadDigest
  · subst same
    by_cases left : d.entry.payloadDigest ∈ l.references.erase d.entry.payloadDigest
    · simp [release, left]
    · simp [release, left]
  · rw [Multiset.mem_erase_of_ne same]
    have unchanged : g ∈ (l.release d.entry.payloadDigest).payloads ↔ g ∈ l.payloads := by
      unfold release
      dsimp only
      split
      · rfl
      · rw [Finset.mem_erase]
        exact and_iff_right same
    rw [unchanged]
    exact ⟨fun stored => ⟨stored, backed g stored⟩, And.left⟩

theorem mem_payloads_removeAll {l : Ledger} (backed : l.Backed) {ds : List Document}
    {cause : Document} {g : Digest} :
    g ∈ (l.removeAll ds cause).payloads ↔ g ∈ l.payloads ∧ g ∈ (l.removeAll ds cause).references := by
  induction ds generalizing l with
  | nil => exact ⟨fun stored => ⟨stored, backed g stored⟩, And.left⟩
  | cons d ds ih =>
    have next : (l.remove d cause).Backed := fun g stored =>
      ((mem_payloads_remove backed).mp stored).2
    show g ∈ ((l.remove d cause).removeAll ds cause).payloads ↔
      _ ∧ g ∈ ((l.remove d cause).removeAll ds cause).references
    rw [ih next, mem_payloads_remove backed, and_assoc]
    refine and_congr_right fun _ => and_iff_right_of_imp fun left => ?_
    exact Multiset.mem_of_le references_removeAll_le left

/-! ### Writing a document -/

section Insertion

variable {l : Ledger} {d e : Document} {previous : Option Document} {stale : List Document}

theorem mem_documents_replacement :
    e ∈ (l.replacement d previous).documents ↔ e = d ∨ e ∈ l.documents ∧ previous ≠ some e := by
  have without : e ∈ ((l.retain d.entry.payloadDigest).removeAll previous.toList d).documents ↔
      e ∈ l.documents ∧ previous ≠ some e := by
    rw [mem_documents_removeAll, Option.mem_toList]
    rfl
  rw [← without]
  exact Finset.mem_insert

/-- Stale documents lie elsewhere than what is replaced and what replaces it. -/
theorem Stale.live (pruned : l.Stale d.entry stale) (here : l.At d.identity d.path previous)
    (member : e ∈ stale) : e ∈ (l.replacement d previous).documents ∧ e ≠ d := by
  obtain ⟨there, _, _, elsewhere, _⟩ := (pruned.mem_iff e).mp member
  refine ⟨mem_documents_replacement.mpr (.inr ⟨there, fun found => ?_⟩), ?_⟩
  · exact elsewhere ((here e).mp found).2.2
  · rintro rfl
    exact elsewhere rfl

theorem mem_documents_insertion (here : l.At d.identity d.path previous)
    (pruned : l.Stale d.entry stale) :
    e ∈ (l.insertion d previous stale).documents ↔
      e = d ∨ e ∈ l.documents ∧ previous ≠ some e ∧ e ∉ stale := by
  rw [insertion, mem_documents_removeAll, mem_documents_replacement]
  constructor
  · rintro ⟨rfl | ⟨live, other⟩, notStale⟩
    · exact .inl rfl
    · exact .inr ⟨live, other, notStale⟩
  · rintro (rfl | ⟨live, other, notStale⟩)
    · exact ⟨.inl rfl, fun member => (pruned.live here member).2 rfl⟩
    · exact ⟨.inr ⟨live, other⟩, notStale⟩

/-- What is counted in advance for a document is what it has once it is written. -/
theorem Balanced.replacement (balanced : l.Balanced 0) (here : l.At d.identity d.path previous) :
    (l.replacement d previous).Balanced 0 := by
  have counted := balanced.retain d.entry.payloadDigest
  have replaced : ∀ e ∈ previous.toList, e ∈ l.documents :=
    fun e member => ((here e).mp (Option.mem_toList.mp member)).1
  have without := counted.removeAll replaced (by cases previous <;> simp) d
  refine without.add ?_
  rw [mem_documents_removeAll, Option.mem_toList]
  rintro ⟨live, other⟩
  exact other ((here d).mpr ⟨live, rfl, rfl⟩)

theorem Balanced.insertion (balanced : l.Balanced 0) (here : l.At d.identity d.path previous)
    (pruned : l.Stale d.entry stale) : (l.insertion d previous stale).Balanced 0 :=
  (balanced.replacement here).removeAll (fun _ member => (pruned.live here member).1) pruned.nodup d

theorem mem_payloads_insertion (backed : (l.retain d.entry.payloadDigest).Backed) {g : Digest} :
    g ∈ (l.insertion d previous stale).payloads ↔
      g ∈ l.payloads ∧ g ∈ (l.insertion d previous stale).references := by
  have first (g : Digest) :
      g ∈ ((l.retain d.entry.payloadDigest).removeAll previous.toList d).payloads ↔ g ∈ l.payloads ∧
        g ∈ ((l.retain d.entry.payloadDigest).removeAll previous.toList d).references :=
    mem_payloads_removeAll backed
  have next : (l.replacement d previous).Backed := fun g stored => ((first g).mp stored).2
  rw [insertion, mem_payloads_removeAll next]
  refine and_congr_left fun left => ?_
  have before : g ∈ (l.replacement d previous).references :=
    Multiset.mem_of_le references_removeAll_le left
  exact (first g).trans (and_iff_left before)

end Insertion

/-! ### Documents and payloads together -/

/-- The ledger with the payload of a document, if it is at hand. -/
def bring (l : Ledger) (d : Document) (brought : Bool) : Ledger :=
  if brought then l.store d.entry.payloadDigest else l

def acceptance (l : Ledger) (d : Document) (brought : Bool) (previous : Option Document)
    (stale : List Document) : Ledger :=
  let written := ((l.bring d brought).insertion d previous stale).tell (.entryIngest d)
  if brought then written.tell (.payloadIngest d) else written

section Bringing

variable {l : Ledger} {d : Document} {brought : Bool}

@[simp] theorem documents_bring : (l.bring d brought).documents = l.documents := by
  unfold bring
  split <;> rfl

@[simp] theorem references_bring : (l.bring d brought).references = l.references := by
  unfold bring
  split <;> rfl

theorem at_bring {identity : Identity} {path : Path} {o : Option Document} :
    (l.bring d brought).At identity path o ↔ l.At identity path o := by
  unfold At
  rw [documents_bring]

theorem Stale.bring {e : Entry} {stale : List Document} (h : l.Stale e stale) :
    (l.bring d brought).Stale e stale := by
  refine ⟨h.ascending, fun d => ?_⟩
  rw [documents_bring]
  exact h.mem_iff d

theorem Balanced.bring {spare : Multiset Digest} (h : l.Balanced spare) :
    (l.bring d brought).Balanced spare := by
  unfold Balanced
  rw [documents_bring, references_bring]
  exact h

end Bringing

/-- A document was written in the place of another and without stale ones. -/
structure Wrote (l : Ledger) (d : Document) (brought : Bool) (previous : Option Document)
    (stale : List Document) (l' : Ledger) : Prop where
  here : l.At d.identity d.path previous
  pruned : l.Stale d.entry stale
  documents : l'.documents = ((l.bring d brought).insertion d previous stale).documents
  references : l'.references = ((l.bring d brought).insertion d previous stale).references
  payloads : l'.payloads = ((l.bring d brought).insertion d previous stale).payloads

/-- No document was written; payloads of documents may have arrived. -/
structure Kept (l l' : Ledger) : Prop where
  documents : l'.documents = l.documents
  references : l'.references = l.references
  stored : ∀ g ∈ l.payloads, g ∈ l'.payloads
  arrived : ∀ g ∈ l'.payloads, g ∈ l.payloads ∨ ∃ d ∈ l.documents, d.entry.payloadDigest = g

theorem Kept.refl (l : Ledger) : l.Kept l := ⟨rfl, rfl, fun _ => id, fun _ => .inl⟩

namespace Wrote

variable {l l' : Ledger} {d : Document} {brought : Bool} {previous : Option Document}
  {stale : List Document}

theorem mem_documents (h : l.Wrote d brought previous stale l') {e : Document} :
    e ∈ l'.documents ↔ e = d ∨ e ∈ l.documents ∧ previous ≠ some e ∧ e ∉ stale := by
  rw [h.documents, mem_documents_insertion (at_bring.mpr h.here) h.pruned.bring, documents_bring]

theorem live (h : l.Wrote d brought previous stale l') : d ∈ l'.documents :=
  h.mem_documents.mpr (.inl rfl)

theorem balanced (h : l.Wrote d brought previous stale l') (balanced : l.Balanced 0) :
    l'.Balanced 0 := by
  unfold Balanced
  rw [h.references, h.documents]
  exact balanced.bring.insertion (at_bring.mpr h.here) h.pruned.bring

theorem mem_payloads (h : l.Wrote d brought previous stale l') (backed : l.Backed) {g : Digest} :
    g ∈ l'.payloads ↔ (g ∈ l.payloads ∨ brought ∧ g = d.entry.payloadDigest) ∧ g ∈ l'.references := by
  have stored : g ∈ (l.bring d brought).payloads ↔
      g ∈ l.payloads ∨ brought ∧ g = d.entry.payloadDigest := by
    cases brought with
    | false => simp [bring]
    | true => simp [bring, store, or_comm]
  have counted : ((l.bring d brought).retain d.entry.payloadDigest).Backed := by
    intro g member
    have member : g ∈ (l.bring d brought).payloads := member
    show g ∈ d.entry.payloadDigest ::ₘ (l.bring d brought).references
    rw [references_bring, Multiset.mem_cons]
    cases brought with
    | false => exact .inr (backed g member)
    | true => exact (Finset.mem_insert.mp member).imp id (backed g)
  rw [h.payloads, h.references, mem_payloads_insertion counted, stored]

end Wrote

end Ledger

end DocumentShare
