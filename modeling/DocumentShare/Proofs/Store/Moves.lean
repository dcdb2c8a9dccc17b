import DocumentShare.Proofs.Store.Listing
import DocumentShare.Proofs.Store.Reading

/-!
# Moves of documents

A write is a list of moves: what is in the place of a document goes, the document comes, and what it
prunes goes (`Archive.moves`). A move makes one change in each of the three orders, so contents follow
from the changes that were made to them. The moves of a write are a `Course`: each finds a document where
it drops one and none where it puts one (`Archive.course_moves`).
-/

namespace DocumentShare

inductive Move
  | put (d : Document)
  | drop (d : Document)

/-- What a move does to the records of an order. -/
structure Change where
  move : Move
  order : Order

namespace Move

def changes (m : Move) : List Change := [⟨m, .identity⟩, ⟨m, .path⟩, ⟨m, .timestamp⟩]

def applyTo : Move → Finset Document → Finset Document
  | put d, documents => insert d documents
  | drop d, documents => documents.erase d

/-- A document is put where there is none and dropped where it is. -/
def Fits : Move → Finset Document → Prop
  | put d, documents => Document.decode d.encode = .ok d ∧ ∀ e ∈ documents, e.key ≠ d.key
  | drop d, documents => d ∈ documents

/-- The moves of a write: what is in the place of a document goes, then the document comes, and then
what is stale goes. -/
def writing (previous : Option Document) (d : Document) (stale : List Document) : List Move :=
  previous.toList.map drop ++ put d :: stale.map drop

theorem put_mem_writing {previous : Option Document} {d e : Document} {stale : List Document} :
    put e ∈ writing previous d stale ↔ e = d := by
  simp [writing]

end Move

inductive Course : Finset Document → List Move → Finset Document → Prop
  | nil {documents : Finset Document} : Course documents [] documents
  | cons {documents documents' : Finset Document} {m : Move} {moves : List Move}
      (fits : m.Fits documents) (rest : Course (m.applyTo documents) moves documents') :
      Course documents (m :: moves) documents'

namespace Course

variable {documents documents' documents'' : Finset Document} {moves moves' : List Move}

theorem append (first : Course documents moves documents')
    (second : Course documents' moves' documents'') : Course documents (moves ++ moves') documents'' := by
  induction first with
  | nil => exact second
  | cons fits _ ih => exact .cons fits (ih second)

theorem dropping {ds : List Document} (live : ∀ d ∈ ds, d ∈ documents) (distinct : ds.Nodup) :
    ∃ left, Course documents (ds.map .drop) left := by
  induction ds generalizing documents with
  | nil => exact ⟨documents, .nil⟩
  | cons d ds ih =>
    obtain ⟨absent, distinct⟩ := List.nodup_cons.mp distinct
    have others : ∀ e ∈ ds, e ∈ documents.erase d := by
      intro e member
      apply Finset.mem_erase.mpr
      exact ⟨fun same => absent (same ▸ member), live e (List.mem_cons_of_mem d member)⟩
    obtain ⟨left, rest⟩ := ih others distinct
    exact ⟨left, .cons (live d List.mem_cons_self) rest⟩

end Course

namespace Contents

def change (c : Contents) (ch : Change) : Contents :=
  match ch.move with
  | .put d => c.insert (ch.order.key d) (ch.order.value d)
  | .drop d => c.erase (ch.order.key d)

def after (c : Contents) (changes : List Change) : Contents := changes.foldl change c

theorem after_append (c : Contents) (changes changes' : List Change) :
    c.after (changes ++ changes') = (c.after changes).after changes' :=
  List.foldl_append

variable {c : Contents}

theorem get?_after {changes : List Change} {key value : Bytes}
    (found : (c.after changes).get? key = some value) : c.get? key = some value ∨
      ∃ d o, ⟨.put d, o⟩ ∈ changes ∧ key = o.key d ∧ value = o.value d := by
  induction changes generalizing c with
  | nil => exact .inl found
  | cons ch changes ih =>
    rcases ih found with before | ⟨d, o, later, place⟩
    · obtain ⟨m, o⟩ := ch
      cases m with
      | put d =>
        change (c.insert (o.key d) (o.value d)).get? key = some value at before
        rw [get?_insert] at before
        split at before
        · next here =>
          cases before
          exact .inr ⟨d, o, List.mem_cons_self, here, rfl⟩
        · exact .inl before
      | drop d =>
        change (c.erase (o.key d)).get? key = some value at before
        rw [get?_erase] at before
        split at before
        · cases before
        · exact .inl before
    · exact .inr ⟨d, o, List.mem_cons_of_mem ch later, place⟩

theorem get?_change_of_ne {ch : Change} {family : UInt8} (other : ch.order.family ≠ family)
    (rest : Bytes) : (c.change ch).get? (family :: rest) = c.get? (family :: rest) := by
  have elsewhere (d : Document) : family :: rest ≠ ch.order.key d := by
    obtain ⟨rest', same⟩ := ch.order.key_eq_cons d
    rw [same]
    exact fun equal => other (List.cons.inj equal).1.symm
  unfold change
  split
  · exact get?_insert_of_ne (elsewhere _)
  · exact get?_erase_of_ne (elsewhere _)

end Contents

/-! ### The moves of a write -/

/-- Whether a document lies strictly below an entry of its identity and is older. -/
def Entry.prunes (e : Entry) (d : Document) : Bool :=
  d.identity = e.identity && e.path.isStrictPrefixOf d.path && e.isNewerThan d.entry

namespace Archive

variable {a b : Archive} {documents : Finset Document} {d : Document}

theorem prunes_of_lists (lists : a.entries.contents.Lists documents) (e : Entry) :
    (∀ d ∈ a.documents.filter e.prunes, d ∈ documents ∧ d.path ≠ e.path) ∧
      (a.documents.filter e.prunes).Nodup := by
  obtain ⟨ascending, member⟩ := documents_of_lists lists
  refine ⟨fun d pruned => ?_, (Document.nodup_of_ascending ascending).filter _⟩
  obtain ⟨live, prunes⟩ := List.mem_filter.mp pruned
  simp only [Entry.prunes, Bool.and_eq_true, decide_eq_true_eq] at prunes
  obtain ⟨⟨_, below⟩, _⟩ := prunes
  exact ⟨(member d).mp live, (Path.isStrictPrefixOf_iff.mp below).2⟩

theorem reads_prunable (lists : a.entries.contents.Lists documents) (e : Entry) :
    (prunable e).Reads a.entries.contents (· = a.documents.filter e.prunes) := by
  obtain ⟨ascending, member⟩ := documents_of_lists lists
  apply (lists.prunable e).mono
  intro stale ⟨ascending', older⟩
  apply Document.eq_of_ascending ascending' (ascending.filter _)
  intro d
  rw [older, List.mem_filter, member]
  simp only [Entry.prunes, Path.isStrictPrefixOf_iff, Bool.and_eq_true, decide_eq_true_eq, and_assoc]

def inPlaceOf (a : Archive) (d : Document) : Option Document :=
  a.documents.find? fun e => e.identity = d.identity && e.path = d.path

def moves (a : Archive) (d : Document) : List Move :=
  Move.writing (a.inPlaceOf d) d (a.documents.filter d.entry.prunes)

theorem inPlaceOf_eq_some_iff (lists : a.entries.contents.Lists documents) (e : Document) :
    a.inPlaceOf d = some e ↔ e ∈ documents ∧ e.identity = d.identity ∧ e.path = d.path := by
  obtain ⟨_, member⟩ := documents_of_lists lists
  constructor
  · intro found
    have place := List.find?_some found
    simp only [Bool.and_eq_true, decide_eq_true_eq] at place
    exact ⟨(member e).mp (List.mem_of_find?_eq_some found), place⟩
  · intro ⟨live, place⟩
    cases found : a.inPlaceOf d with
    | none =>
      have absent := List.find?_eq_none.mp found e ((member e).mpr live)
      simp [place] at absent
    | some e' =>
      have place' := List.find?_some found
      simp only [Bool.and_eq_true, decide_eq_true_eq] at place'
      have live' := (member e').mp (List.mem_of_find?_eq_some found)
      refine congrArg some (lists.distinct live' live (Document.key_inj.mpr ?_))
      exact ⟨place'.1.trans place.1.symm, place'.2.trans place.2.symm⟩

theorem course_moves (lists : a.entries.contents.Lists documents)
    (readable : Document.decode d.encode = .ok d) :
    ∃ documents', Course documents (a.moves d) documents' := by
  have here (e : Document) := inPlaceOf_eq_some_iff (d := d) lists e
  have vacated : ∃ others, Course documents ((a.inPlaceOf d).toList.map .drop) others ∧
      ∀ e, e ∈ others ↔ e ∈ documents ∧ e.key ≠ d.key := by
    cases found : a.inPlaceOf d with
    | none =>
      refine ⟨documents, .nil, fun e => (and_iff_left_of_imp fun live same => ?_).symm⟩
      have there := (here e).mpr ⟨live, Document.key_inj.mp same⟩
      rw [found] at there
      cases there
    | some p =>
      obtain ⟨live, place⟩ := (here p).mp found
      have same : p.key = d.key := Document.key_inj.mpr place
      refine ⟨documents.erase p, .cons live .nil, fun e => ?_⟩
      rw [Finset.mem_erase, and_comm]
      refine and_congr_right fun there => not_congr ⟨fun equal => equal ▸ same, fun equal => ?_⟩
      exact lists.distinct there live (equal.trans same.symm)
  obtain ⟨others, first, rest⟩ := vacated
  -- What is stale lies elsewhere, so it is still there when the document has come.
  have fits : (Move.put d).Fits others := ⟨readable, fun e there => ((rest e).mp there).2⟩
  obtain ⟨pruned, distinct⟩ := prunes_of_lists lists d.entry
  have live : ∀ e ∈ a.documents.filter d.entry.prunes, e ∈ Insert.insert d others := by
    intro e stale
    obtain ⟨there, elsewhere⟩ := pruned e stale
    apply Finset.mem_insert_of_mem
    exact (rest e).mpr ⟨there, fun same => elsewhere (Document.key_inj.mp same).2⟩
  obtain ⟨documents', last⟩ := Course.dropping live distinct
  exact ⟨documents', first.append (.cons fits last)⟩

end Archive

end DocumentShare
