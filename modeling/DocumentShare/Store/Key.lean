import DocumentShare.Authority.Entry
import DocumentShare.Storage.KeyRange

/-!
# The keys of a store

Keys of four families, told apart by their first byte: entries by identity and path, which hold
documents; an index by path, time and identity and one by time, identity and path, which hold the
keys of entries; and the counts of references to payloads. Byte order within a family is the order
of what its keys are made of.
-/

namespace DocumentShare.Key

def entry (identity : Identity) (path : Path) : Bytes := 0 :: (identity.encode ++ path.ordered)

def pathIndex (e : Entry) : Bytes :=
  1 :: (e.path.ordered ++ Bytes.ofWord e.timestamp ++ e.identity.encode)

def timeIndex (e : Entry) : Bytes :=
  2 :: (Bytes.ofWord e.timestamp ++ e.identity.encode ++ e.path.ordered)

/-- The key of the number of documents with a payload. -/
def reference (digest : Digest) : Bytes := 3 :: digest.bytes

/-- The entries of an identity at or below a path. -/
def entriesBelow (identity : Identity) (path : Path) : KeyRange :=
  .startingWith (0 :: (identity.encode ++ path.orderedComponents))

def entries : KeyRange := .startingWith [0]

/-- The path index at a path. -/
def pathIndexAt (path : Path) : KeyRange := .startingWith (1 :: path.ordered)

/-- The path index at or below a path. -/
def pathIndexBelow (path : Path) : KeyRange := .startingWith (1 :: path.orderedComponents)

/-- The time index from `start` on and before `stop`. -/
def timeIndexBetween (start stop : Option UInt64) : KeyRange :=
  ⟨.included (match start with
    | some t => 2 :: Bytes.ofWord t
    | none => [2]),
   .excluded (match stop with
    | some t => 2 :: Bytes.ofWord t
    | none => [3])⟩

end DocumentShare.Key
