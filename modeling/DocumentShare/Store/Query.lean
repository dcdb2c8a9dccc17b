import DocumentShare.Storage.Scan
import DocumentShare.Store.Document
import DocumentShare.Store.Key

/-!
# Queries

Which documents are listed, in which order, and where the listing stops.
-/

namespace DocumentShare

inductive Order
  /-- Path, then timestamp, then identity. -/
  | path
  /-- Timestamp, then identity, then path. -/
  | timestamp
  /-- Identity, then path. -/
  | identity
deriving DecidableEq, Repr

/-- A selection of documents; what is not given selects all. -/
structure Query where
  path : Option Path
  identity : Option Identity
  start : Option UInt64
  stop : Option UInt64
  limit : Option Nat
  maxSize : Option Nat
  order : Order
  direction : Direction
deriving DecidableEq

namespace Query

def all (order : Order) (direction : Direction) : Query :=
  ⟨none, none, none, none, none, none, order, direction⟩

def selects (q : Query) (e : Entry) : Bool :=
  q.path.all (·.isPrefixOf e.path) && q.identity.all (· = e.identity) &&
    q.start.all (· ≤ e.timestamp) && q.stop.all (e.timestamp < ·)

/-- The keys that are scanned: as few as the order allows. -/
def range (q : Query) : KeyRange :=
  let path := q.path.getD .empty
  match q.order with
  | .path => Key.pathIndexBelow path
  | .timestamp => Key.timeIndexBetween q.start q.stop
  | .identity =>
    match q.identity with
    | some identity => Key.entriesBelow identity path
    | none => Key.entries

end Query

end DocumentShare
