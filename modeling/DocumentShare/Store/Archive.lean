import DocumentShare.Storage.Payloads
import DocumentShare.Storage.Scan
import DocumentShare.Store.Event
import DocumentShare.Store.Key
import DocumentShare.Store.Outcome

/-!
# Archives

The documents of a store and their payloads. There is one document for an identity and path, the
most recent one, and none that a more recent document of the identity above it has pruned. Payloads
are counted by the documents that refer to them and erased with the last of these.
-/

namespace DocumentShare

structure Archive where
  entries : Backend
  payloads : Backend
  /-- What has happened, the last first. -/
  events : List Event

abbrev ArchiveWork (α : Type) := Work Archive StoreError α

namespace Archive

variable {α : Type}

def onEntries (w : BackendWork α) : ArchiveWork α :=
  (w.onPart entries (fun b a => { a with entries := b })).reporting .ofStorage

def onPayloads (w : BackendWork α) : ArchiveWork α :=
  (w.onPart payloads (fun b a => { a with payloads := b })).reporting .ofStorage

def emit (e : Event) : ArchiveWork Unit := modify fun a => { a with events := e :: a.events }

/-! ### Reading -/

def ofStored (value : Bytes) : ArchiveWork Document :=
  Work.check (fun e => .invariant (.corruptEntry e.message)) (Document.decode value)

def documentAt (key : Bytes) : ArchiveWork (Option Document) := do
  match ← onEntries (Backend.get key) with
  | some value => return some (← ofStored value)
  | none => return none

def get (identity : Identity) (path : Path) : ArchiveWork (Option Document) :=
  documentAt (Key.entry identity path)

def askItem : ArchiveWork Unit := onEntries (Backend.ask .scan)

/-- The older documents of the same identity strictly below an entry. -/
def prunable (e : Entry) : ArchiveWork (List Document) := do
  let items ← onEntries (Backend.scan (Key.entriesBelow e.identity e.path) .ascending)
  items.filterMapM fun (_, value) => do
    askItem
    let d ← ofStored value
    return if d.path ≠ e.path && e.isNewerThan d.entry then some d else none

/-- Whether an entry is no newer than the document in its own place. -/
def isObsoleteAt (e : Entry) : ArchiveWork Bool := do
  return (← get e.identity e.path).any (fun d => !e.isNewerThan d.entry)

/-- Whether a document above an entry is newer. -/
def isObsoleteBelow (e : Entry) : ArchiveWork Bool :=
  e.path.strictPrefixes.anyM fun p => do
    return (← get e.identity p).any (fun d => d.entry.isNewerThan e)

/-- Whether a document that the archive has makes an entry obsolete. -/
def isObsolete (e : Entry) : ArchiveWork Bool := do
  if ← isObsoleteAt e then return true else isObsoleteBelow e

/-! ### References to payloads -/

/-- How many documents refer to a payload. -/
def referenceCount (digest : Digest) : ArchiveWork Nat := do
  match ← onEntries (Backend.get (Key.reference digest)) with
  | none => return 0
  | some value =>
    if value.length = 8 then return Bytes.toNat value
    else throw (.invariant (.corruptCount (toString digest)))

def setReferenceCount (digest : Digest) (count : Nat) : ArchiveWork Unit :=
  onEntries (Backend.set (Key.reference digest) (Bytes.ofNat 8 count))

def retain (digest : Digest) : ArchiveWork Unit := do
  setReferenceCount digest ((← referenceCount digest) + 1)

/-- Drops a reference to a payload, and the payload with the last one. Answers whether the payload
was there to be erased. -/
def release (digest : Digest) : ArchiveWork Bool := do
  let count ← referenceCount digest
  if count = 0 then throw (.invariant (.overReleased (toString digest)))
  else if 1 < count then
    setReferenceCount digest (count - 1)
    return false
  else
    let _ ← onEntries (Backend.delete (Key.reference digest))
    onPayloads (Payloads.erase digest)

/-! ### Writing -/

def deleteKey (key : Bytes) : ArchiveWork Unit := do
  let _ ← onEntries (Backend.delete key)

def remove (d cause : Document) : ArchiveWork Unit := do
  deleteKey (Key.entry d.identity d.path)
  deleteKey (Key.pathIndex d.entry)
  deleteKey (Key.timeIndex d.entry)
  emit (.entryRemoved d cause)
  if ← release d.entry.payloadDigest then
    emit (.payloadRemoved d.entry.payloadDigest d cause)

/-- Removes whatever is in the place of a document that is about to be written. -/
def vacate (d : Document) : ArchiveWork Unit := do
  match ← get d.identity d.path with
  | some previous => remove previous d
  | none => return ()

/-- Writes a document in the place of whatever is there, and removes the stale documents below. -/
def insert (d : Document) (stale : List Document) : ArchiveWork (List Path) := do
  let key := Key.entry d.identity d.path
  retain d.entry.payloadDigest
  vacate d
  onEntries (Backend.set key d.encode)
  onEntries (Backend.set (Key.pathIndex d.entry) key)
  onEntries (Backend.set (Key.timeIndex d.entry) key)
  stale.forM (remove · d)
  return stale.map Document.path

variable [Crypto]

def storePayload (payload : Bytes) : ArchiveWork Unit := do
  let _ ← onPayloads (Payloads.store payload)

/-- Writes a document, with its payload if that is at hand, and answers the paths that were
pruned. -/
def place (d : Document) (payload : Option Bytes) (stale : List Document) :
    ArchiveWork (List Path) := do
  payload.forM storePayload
  insert d stale

/-- Writes a document made here, with its payload. -/
def write (d : Document) (payload : Bytes) (stale : List Document) : ArchiveWork (List Path) := do
  let pruned ← place d (some payload) stale
  emit (.documentSet d)
  return pruned

/-- Whether a payload is the one that an entry names. -/
def matchesPayload (e : Entry) (payload : Bytes) : Bool :=
  payload.length = e.payloadLength.toNat && Crypto.digest payload = e.payloadDigest

/-- Why an entry from elsewhere is refused before anything is read. -/
def refusal? (share : Share) (e : Entry) (t : Token) (payload : Option Bytes) :
    Option StoreError :=
  if e.share ≠ share then
    some (.validation (.identifier (.otherShare (toString e.share) (toString share))))
  else if !t.authorises e then
    some (.authorisation (.invalidToken (toString e.identity) (toString e.path)))
  else if !payload.all (matchesPayload e) then
    some (.validation (.payload (toString e.identity) (toString e.path)))
  else none

/-- Writes a document made elsewhere, with its payload if that is at hand. Older documents below are
pruned without asking. -/
def accept (d : Document) (payload : Option Bytes) : ArchiveWork Outcome := do
  let stale ← prunable d.entry
  let pruned ← place d payload stale
  emit (.entryIngest d)
  payload.forM fun _ => emit (.payloadIngest d)
  return .success d pruned

/-- Accepts an entry from elsewhere unless it is refused or obsolete. -/
def ingest (share : Share) (e : Entry) (t : Token) (payload : Option Bytes) :
    ArchiveWork Outcome := do
  match refusal? share e t payload with
  | some error => return .refused error
  | none => if ← isObsolete e then return .obsolete else accept ⟨e, t⟩ payload

/-- Accepts a payload if the document of an identity at a path names it. -/
def ingestPayload (identity : Identity) (path : Path) (payload : Bytes) : ArchiveWork Bool := do
  match ← get identity path with
  | none => return false
  | some d =>
    if matchesPayload d.entry payload then
      storePayload payload
      emit (.payloadIngest d)
      return true
    else return false

/-- The payload of a document, if it has arrived. -/
def payload (d : Document) : ArchiveWork (Option Bytes) :=
  onPayloads (Payloads.read d.entry.payloadDigest)

end Archive

end DocumentShare
