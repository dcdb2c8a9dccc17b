import DocumentShare.Credentials.Basic
import DocumentShare.Site.Basic
import DocumentShare.Store.Stream

/-!
# Stores

The documents of one share. Writes made here are authorised by a capability that the vault of the
store keeps.
-/

namespace DocumentShare

structure Store where
  share : Share
  /-- The backend of the documents. -/
  entries : Nat
  payloads : Nat
  /-- The credentials that writes are authorised with. -/
  vault : Vault
  feed : Nat

structure Subscription where
  feed : Nat
  /-- How many events it has been told or has missed. -/
  seen : Nat

namespace Store

variable {ε α : Type}

def make (share : Share) (entries payloads : Nat) (vault : Vault) : SiteWork ε Store :=
  return ⟨share, entries, payloads, vault, ← Site.addFeed⟩

def onArchive (s : Store) (w : Work Archive ε α) : SiteWork ε α :=
  w.onPart
    (fun t => ⟨t.backends.get s.entries, t.payloads.get s.payloads, t.feeds.get s.feed⟩)
    (fun a t => { t with
      backends := t.backends.set s.entries a.entries,
      payloads := t.payloads.set s.payloads a.payloads,
      feeds := t.feeds.set s.feed a.events })

def subscribe (s : Store) : SiteWork ε Subscription :=
  return ⟨s.feed, ((← getThe Site).feeds.get s.feed).length⟩

/-- How many events a subscriber has missed, the others that it has not been told, the oldest
first, and the subscriber afterwards. -/
def receive (s : Subscription) : SiteWork ε (Nat × List Event × Subscription) := do
  let events := (← getThe Site).feeds.get s.feed
  let (missed, waiting) := Event.backlog s.seen events
  return (missed, waiting, { s with seen := events.length })

variable [Crypto]

/-- The entry of a write to a share. -/
def entryOf (share : Share) (identity : Identity) (path : Path) (timestamp : UInt64)
    (payload : Bytes) : Entry :=
  ⟨share, identity, path, timestamp, payload.length.toUInt64, Crypto.digest payload⟩

/-- A token for an entry, if a capability that is held covers it. -/
def authorise (s : Store) (e : Entry) : SiteWork StoreError (Option Token) :=
  s.vault.work fun c => (Credentials.authorise c e).reporting .auth

/-- The error of a write that no capability covers. -/
def noCapability (e : Entry) : AuthorisationError :=
  .noCapability (toString e.share) (toString e.identity) (toString e.path)

/-- Writes a payload at a path as an identity. A write that would prune older documents below is
prevented unless `prune` permits it. -/
def set (s : Store) (identity : Identity) (path : Path) (payload : Bytes) (timestamp : UInt64)
    (prune : Bool) : SiteWork StoreError Outcome := do
  let e := entryOf s.share identity path timestamp payload
  let stale ← s.onArchive (Archive.prunable e)
  if !stale.isEmpty && !prune then return .pruningPrevented stale
  match ← s.authorise e with
  | none => return .refused (.authorisation (noCapability e))
  | some token =>
    if ← s.onArchive (Archive.isObsolete e) then return .obsolete
    let d : Document := ⟨e, token⟩
    return .success d (← s.onArchive (Archive.write d payload stale))

/-- Writes as the identity that an address names. -/
def setAtAddress (s : Store) (address : String) (path : Path) (payload : Bytes)
    (timestamp : UInt64) (prune : Bool) : SiteWork StoreError Outcome :=
  match Identifier.parse .identity address with
  | .ok identity => s.set identity path payload timestamp prune
  | .error e => return .refused (.validation e)

/-- The entry that clears a document: an empty payload, one microsecond later if there is one. -/
def clearing (s : Store) (existing : Document) (identity : Identity) (path : Path) : Entry :=
  entryOf s.share identity path (min (existing.timestamp.toNat + 1) (UInt64.size - 1)).toUInt64 []

/-- Puts an empty payload in the place of a document. -/
def clear (s : Store) (identity : Identity) (path : Path) : SiteWork StoreError Document := do
  match ← s.onArchive (Archive.get identity path) with
  | none => throw (.validation (.noSuchDocument (toString path) (toString identity)))
  | some existing =>
    let e := s.clearing existing identity path
    match ← s.authorise e with
    | none => throw (.authorisation (noCapability e))
    | some token =>
      let stale ← s.onArchive (Archive.prunable e)
      let d : Document := ⟨e, token⟩
      let _ ← s.onArchive (Archive.write d [] stale)
      return d

def ingest (s : Store) (e : Entry) (t : Token) (payload : Option Bytes) :
    SiteWork StoreError Outcome :=
  s.onArchive (Archive.ingest s.share e t payload)

end Store

end DocumentShare
