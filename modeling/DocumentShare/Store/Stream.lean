import DocumentShare.Store.Listing

/-!
# Streams

Listings that are pulled document by document and see what is written between two pulls. A stream
begins its scan with the first pull, and once it has ended or failed it yields no more.
-/

namespace DocumentShare

structure QueryStream where
  query : Query
  tally : Tally
  /-- The scan, once it has begun. -/
  scan : Option Scan
  ended : Bool

structure PathStream where
  path : Path
  /-- The scan, once it has begun. -/
  scan : Option Scan
  /-- Documents of the last timestamp that was reached. -/
  tied : List Document
  /-- Documents that are ranked and still to be yielded. -/
  ranked : List Document
  ended : Bool

namespace Archive

def beginStream (scan : Option Scan) (range : KeyRange) (direction : Direction) :
    ArchiveWork Scan := do
  match scan with
  | some s => return s
  | none =>
    onEntries Backend.beginScan
    return .start range direction

def pending (s : Scan) : ArchiveWork (List (Bytes × Bytes)) := do
  return s.pending (← getThe Archive).entries.contents

/-- The first document of a listing among the items to come, its key, and the tally after it. -/
def pull (q : Query) (t : Tally) :
    List (Bytes × Bytes) → ArchiveWork (Option (Bytes × Document × Tally))
  | [] => return none
  | (key, value) :: rest => do
    let d ← askDocument q.order value
    match judge q t d with
    | .skip => pull q t rest
    | .stop => return none
    | .take t => return some (key, d, t)

/-- Documents of one timestamp, ranked, from items to come; then the first document of another
timestamp and its key, if there is one. -/
def pullTied (tied : List Document) :
    List (Bytes × Bytes) → ArchiveWork (List Document × Option (Bytes × Document))
  | [] => return (newestFirst tied, none)
  | (key, value) :: rest => do
    let d ← askDocument .path value
    if tied.all (·.timestamp = d.timestamp) then pullTied (tied ++ [d]) rest
    else return (newestFirst tied, some (key, d))

end Archive

namespace QueryStream

def start (q : Query) : QueryStream := ⟨q, .zero, none, false⟩

def step (s : QueryStream) : ArchiveWork (Option (Document × QueryStream)) := do
  if s.ended || s.query.isFull s.tally then return none
  let scan ← Archive.beginStream s.scan s.query.range s.query.direction
  match ← Archive.pull s.query s.tally (← Archive.pending scan) with
  | none => return none
  | some (key, d, tally) =>
    return some (d, { s with tally, scan := some { scan with cursor := some key } })

end QueryStream

namespace PathStream

def start (path : Path) : PathStream := ⟨path, none, [], [], false⟩

/-- Yields the first of the ranked documents. -/
def yield (s : PathStream) : Option (Document × PathStream) :=
  match s.ranked with
  | [] => none
  | d :: ranked => some (d, { s with ranked })

def step (s : PathStream) : ArchiveWork (Option (Document × PathStream)) := do
  if s.ended || !s.ranked.isEmpty then return s.yield
  let scan ← Archive.beginStream s.scan (Key.pathIndexAt s.path) .descending
  match ← Archive.pullTied s.tied (← Archive.pending scan) with
  | (ranked, none) => return { s with ranked, tied := [], ended := true }.yield
  | (ranked, some (key, d)) =>
    let scan := { scan with cursor := some key }
    return { s with ranked, tied := [d], scan := some scan }.yield

end PathStream

inductive Stream
  | query (s : QueryStream)
  | path (s : PathStream)
  | ended

namespace Stream

def step : Stream → ArchiveWork (Option (Document × Stream))
  | query s => return (← s.step).map (fun (d, s) => (d, query s))
  | path s => return (← s.step).map (fun (d, s) => (d, path s))
  | ended => return none

def next : Work (Stream × Archive) StoreError (Option Document) :=
  .ofStep fun (s, a) =>
    match s.step.runOn a with
    | (.ok (some (d, s)), a) => (.ok (some d), s, a)
    | (.ok none, a) => (.ok none, ended, a)
    | (.error e, a) => (.error e, ended, a)

end Stream

end DocumentShare
