import DocumentShare.Authority.Area
import DocumentShare.Naming.Digest

/-!
# Entries

An entry says who wrote what where and when. Entries that conflict are ranked by `recency`, the
same way for everyone.
-/

namespace DocumentShare

structure Entry where
  share : Share
  identity : Identity
  path : Path
  /-- Microseconds since the Unix epoch. -/
  timestamp : UInt64
  payloadLength : UInt64
  payloadDigest : Digest
deriving DecidableEq

namespace Entry

/-- The bytes that a token signs. -/
def encode (e : Entry) : Bytes :=
  e.share.encode ++ e.identity.encode ++ e.path.ordered ++ Bytes.ofWord e.timestamp
    ++ Bytes.ofWord e.payloadLength ++ e.payloadDigest.bytes

def decode : Decoder Entry := do
  return ⟨← Identifier.decode .share, ← Identifier.decode .identity, ← Path.decodeOrdered,
    ← Decoder.word64, ← Decoder.word64, ← Decoder.block 32⟩

def isIn (e : Entry) (a : Area) : Bool := a.includes e.identity e.path e.timestamp

/-- By timestamp, then digest, then length. -/
def recency (e f : Entry) : Ordering :=
  (compare e.timestamp f.timestamp).then
    ((compare e.payloadDigest f.payloadDigest).then (compare e.payloadLength f.payloadLength))

def isNewerThan (e f : Entry) : Bool := e.recency f = .gt

end Entry

end DocumentShare
