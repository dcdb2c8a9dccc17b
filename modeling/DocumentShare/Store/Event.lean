import DocumentShare.Store.Document

/-!
# Events

What subscribers are told of changes. A subscriber that falls too far behind misses the oldest
events and is told how many.
-/

namespace DocumentShare

inductive Event
  /-- A local write succeeded. -/
  | documentSet (document : Document)
  /-- An entry from elsewhere was accepted. -/
  | entryIngest (document : Document)
  /-- The payload of a document arrived from elsewhere. -/
  | payloadIngest (document : Document)
  /-- A document was replaced or pruned. -/
  | entryRemoved (removed cause : Document)
  /-- The last document with a payload was removed, and the payload with it. -/
  | payloadRemoved (digest : Digest) (removed cause : Document)
deriving DecidableEq

namespace Event

/-- How many events a subscriber may fall behind. -/
def capacity : Nat := 256

/-- How many of the events after the first `seen` are missed, and the others, the oldest first.
`events` has the last first. -/
def backlog (seen : Nat) (events : List Event) : Nat × List Event :=
  let waiting := events.length - seen
  (waiting - capacity, (events.take (min waiting capacity)).reverse)

end Event

end DocumentShare
