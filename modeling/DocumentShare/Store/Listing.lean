import DocumentShare.Store.Archive
import DocumentShare.Store.Query

/-!
# Listing documents

Documents in the order of a query, and the documents at a path by recency.
-/

namespace DocumentShare

structure Tally where
  count : Nat
  /-- The sum of the payload lengths, as far as a word can hold it. -/
  size : Nat
deriving DecidableEq, Inhabited

namespace Tally

def zero : Tally := ⟨0, 0⟩

def add (t : Tally) (e : Entry) : Tally :=
  ⟨t.count + 1, min (t.size + e.payloadLength.toNat) (UInt64.size - 1)⟩

end Tally

namespace Query

/-- Whether a listing already has as many documents as it may. -/
def isFull (q : Query) (t : Tally) : Bool := q.limit.any (· ≤ t.count)

/-- Whether the documents of a listing are larger than they may be. -/
def isOversize (q : Query) (t : Tally) : Bool := q.maxSize.any (· < t.size)

end Query

namespace Archive

/-- The document that an item of a scan stands for: in identity order its value is the document, and
otherwise the key of the document. -/
def ofItem (order : Order) (value : Bytes) : ArchiveWork Document := do
  match order with
  | .identity => ofStored value
  | _ =>
    match ← documentAt value with
    | some d => return d
    | none => throw (.invariant .missingEntry)

def askDocument (order : Order) (value : Bytes) : ArchiveWork Document := do
  askItem
  ofItem order value

/-! ### Queries -/

inductive Verdict
  | skip
  | stop
  | take (t : Tally)
deriving DecidableEq

/-- Whether a document belongs to a listing, and whether the listing goes on. -/
def judge (q : Query) (t : Tally) (d : Document) : Verdict :=
  if !q.selects d.entry then .skip
  else if q.isOversize (t.add d.entry) then .stop
  else .take (t.add d.entry)

def gather (q : Query) : Tally → List (Bytes × Bytes) → ArchiveWork (List Document)
  | _, [] => return []
  | t, (_, value) :: rest => do
    if q.isFull t then return []
    let d ← askDocument q.order value
    match judge q t d with
    | .skip => gather q t rest
    | .stop => return []
    | .take t => return d :: (← gather q t rest)

/-- The items that a listing visits. A listing that is full from the start visits none. -/
def itemsOf (q : Query) : ArchiveWork (List (Bytes × Bytes)) := do
  if q.isFull .zero then return [] else onEntries (Backend.scan q.range q.direction)

def query (q : Query) : ArchiveWork (List Document) := do gather q .zero (← itemsOf q)

/-- Distinct paths of the documents that a query selects, in the order in which they come first. -/
def paths (q : Query) : ArchiveWork (List Path) := do
  return ((← query q).map Document.path).eraseDups

/-- Distinct identities of the documents that a query selects, in the order in which they come
first. -/
def identities (q : Query) : ArchiveWork (List Identity) := do
  return ((← query q).map Document.identity).eraseDups

/-! ### Documents at a path -/

/-- Every document at a path, by timestamp and identity. -/
def indexedAt (path : Path) (direction : Direction) : ArchiveWork (List Document) := do
  let items ← onEntries (Backend.scan (Key.pathIndexAt path) direction)
  items.mapM (fun (_, value) => askDocument .path value)

/-- The first document among the most recent ones. -/
def newest? (documents : List Document) : Option Document :=
  documents.foldl (fun newest? d =>
    if newest?.all (fun newest => d.entry.isNewerThan newest.entry) then some d else newest?) none

/-- The most recent document at a path. -/
def latest (path : Path) : ArchiveWork (Option Document) := do
  return newest? (← indexedAt path .ascending)

/-- The documents, the most recent first; those that are equally recent stay in order. -/
def newestFirst (documents : List Document) : List Document :=
  documents.mergeSort (fun a b => b.entry.recency a.entry != .gt)

/-- Documents in descending order of time, with those of one timestamp ranked by recency. -/
def rank (documents : List Document) : List Document :=
  (documents.splitBy (fun a b => a.timestamp = b.timestamp)).flatMap newestFirst

def atPath (path : Path) : ArchiveWork (List Document) := do
  return rank (← indexedAt path .descending)

end Archive

end DocumentShare
