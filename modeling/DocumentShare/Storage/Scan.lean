import DocumentShare.Storage.Backend

/-!
# Scans

A scan visits the keys of a range in ascending or descending order. It remembers only the last key
it yielded and looks for the next one in the contents of the moment, so writes ahead of it are seen.
-/

namespace DocumentShare

inductive Direction
  | ascending
  | descending
deriving DecidableEq, Inhabited, Repr

structure Scan where
  range : KeyRange
  direction : Direction
  /-- The key of the last item. -/
  cursor : Option Bytes
  ended : Bool
deriving DecidableEq, Inhabited

namespace Scan

def start (range : KeyRange) (direction : Direction) : Scan := ⟨range, direction, none, false⟩

/-- What is left of the range behind the cursor. -/
def remaining (s : Scan) : KeyRange :=
  match s.cursor, s.direction with
  | none, _ => s.range
  | some key, .ascending => ⟨.excluded key, s.range.stop⟩
  | some key, .descending => ⟨s.range.start, .excluded key⟩

/-- The items to come, in order, if the contents stay as they are. -/
def pending (s : Scan) (c : Contents) : List (Bytes × Bytes) :=
  if s.ended then []
  else match s.direction with
    | .ascending => c.within s.remaining
    | .descending => (c.within s.remaining).reverse

/-- The first pair of what is left, from the side that the scan comes from. Ends that leave no room are
not looked between. -/
def seek (s : Scan) (c : Contents) : Option (Bytes × Bytes) :=
  if void : s.remaining.isVoid then none
  else
    let pairs := c.between s.remaining (KeyRange.ordered_of_not_isVoid void)
    match s.direction with
    | .ascending => pairs.head?
    | .descending => pairs.getLast?

/-- The next item of a scan, if one is left. A scan that has ended or failed yields no more. -/
def next : Work (Scan × Backend) StorageError (Option (Bytes × Bytes)) :=
  .ofStep fun (s, b) =>
    match if s.ended then none else s.seek b.contents with
    | none => (.ok none, { s with ended := true }, b)
    | some (key, value) =>
      match (Backend.ask .scan).runOn b with
      | (.ok (), b) => (.ok (some (key, value)), { s with cursor := some key }, b)
      | (.error e, b) => (.error e, { s with ended := true }, b)

end Scan

namespace Backend

def beginScan : BackendWork Unit :=
  .ofStep fun b => (.ok (), { b with counts.scans := b.counts.scans + 1 })

/-- Begins a scan and answers its items, each of which is still to be asked for. -/
def scan (range : KeyRange) (direction : Direction) : BackendWork (List (Bytes × Bytes)) := do
  beginScan
  return (Scan.start range direction).pending (← getThe Backend).contents

def items (range : KeyRange) (direction : Direction) : BackendWork (List (Bytes × Bytes)) := do
  let items ← scan range direction
  items.forM (fun _ => ask .scan)
  return items

end Backend

end DocumentShare
