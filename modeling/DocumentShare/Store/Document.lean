import DocumentShare.Authority.Token

/-!
# Documents

A document is an entry and the token that authorised it; its payload is kept apart. It is stored as
its entry followed by its token.
-/

namespace DocumentShare

structure Document where
  entry : Entry
  token : Token
deriving DecidableEq

namespace Document

def identity (d : Document) : Identity := d.entry.identity

def path (d : Document) : Path := d.entry.path

def timestamp (d : Document) : UInt64 := d.entry.timestamp

/-- The identity whose capability authorised the write. -/
def signer (d : Document) : Identity := d.token.capability.receiver

def encode (d : Document) : Bytes := d.entry.encode ++ d.token.encode

def decode (b : Bytes) : Except ValidationError Document :=
  Decoder.runAll (do return ⟨← Entry.decode, ← Token.decode⟩) b

/-- A document is described without its token. -/
def describe (d : Document) : String :=
  s!"Document \x7b identity: {d.identity}, path: {d.path.describe}, timestamp: {d.timestamp}, " ++
    s!"size: {d.entry.payloadLength}, digest: {d.entry.payloadDigest.brief}, .. \x7d"

/-- The payload of a document as it is named in descriptions. -/
def describePayload (d : Document) : String :=
  s!"Payload \x7b digest: {d.entry.payloadDigest.brief}, length: {d.entry.payloadLength} \x7d"

end Document

end DocumentShare
