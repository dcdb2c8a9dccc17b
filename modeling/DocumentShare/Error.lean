import DocumentShare.Text.Hex

/-!
# Errors

What can be wrong with an input, a write or a stored record. Each inductive lists causes, and its
`message` words them.
-/

namespace DocumentShare

inductive ShortnameFault
  /-- The name of the role, and its least and greatest length. -/
  | length (role : String) (least greatest : Nat)
  | character (c : Char)
  | leadingDigit
deriving DecidableEq, Repr

namespace ShortnameFault

def message : ShortnameFault → String
  | length role least greatest =>
    if least = greatest then s!"{role} shortnames must be exactly {greatest} characters"
    else s!"{role} shortnames must be {least} to {greatest} characters"
  | character c => s!"'{c}' is not in [a-z0-9]"
  | leadingDigit => "the first character may not be a digit"

end ShortnameFault

inductive IdentifierFault
  | emptyAddress (address : String)
  | noSeparator (address : String)
  | notBase32 (address : String)
  | keyLength (address : String)
  | unknownSigil (address : String)
  | notUtf8 (role : String)
  | foreignSecret (address : String)
  /-- An entry of one share was offered to the store of another. -/
  | otherShare (found expected : String)
deriving DecidableEq, Repr

namespace IdentifierFault

def message : IdentifierFault → String
  | emptyAddress address => s!"'{address}' is empty"
  | noSeparator address => s!"'{address}' has no '.' separator"
  | notBase32 address => s!"'{address}' has a key that is not base32"
  | keyLength address => s!"'{address}' has a key that is not 32 bytes"
  | unknownSigil address => s!"'{address}' has an unknown sigil"
  | notUtf8 role => s!"{role} shortname is not UTF-8"
  | foreignSecret address => s!"secret key does not belong to {address}"
  | otherShare found expected => s!"entry belongs to {found}, not {expected}"

end IdentifierFault

inductive PathFault
  | components (count greatest : Nat)
  | componentLength (length greatest : Nat)
  | totalLength (total greatest : Nat)
  | character (component : String) (c : Char)
  | notRooted (text : String)
deriving DecidableEq, Repr

namespace PathFault

def message : PathFault → String
  | components count greatest => s!"{count} components exceeds the maximum of {greatest}"
  | componentLength length greatest =>
    s!"component of {length} bytes exceeds the maximum of {greatest}"
  | totalLength total greatest => s!"{total} bytes exceeds the maximum path length of {greatest}"
  | character component c => s!"component '{component}' contains disallowed character '{c}'"
  | notRooted text => s!"'{text}' does not start with '/'"

end PathFault

inductive CapabilityFault
  | needsOwner (share : String)
  | noOwner (share : String)
  | subspaceOfCommunal (share : String)
  | chainFull (length : Nat)
  | subspaceOnWrite
  /-- The access mode and receiver of a pack that does not validate. -/
  | notValid (mode receiver : String)
deriving DecidableEq, Repr

namespace CapabilityFault

def message : CapabilityFault → String
  | needsOwner share => s!"{share} is owned, so capabilities must be signed by its keypair"
  | noOwner share => s!"{share} is communal and has no owner to sign capabilities"
  | subspaceOfCommunal share =>
    s!"subspace capabilities only exist for owned shares, and {share} is communal"
  | chainFull length => s!"already delegated {length} times, the most a capability can carry"
  | subspaceOnWrite => "write capabilities do not carry a subspace capability"
  | notValid mode receiver => s!"{mode} capability for {receiver} does not validate"

end CapabilityFault

inductive EncodingFault
  | short (wanted offset found : Nat)
  | trailing (count : Nat)
  | escape (byte : UInt8)
  | timeFlag (flag : Nat)
  | subspaceFlag (flag : Nat)
  | accessMode (mode : Nat)
  | capabilityKind (kind : Nat)
  | packTag (tag : Nat)
deriving DecidableEq, Repr

namespace EncodingFault

def message : EncodingFault → String
  | short wanted offset found =>
    s!"expected {wanted} more bytes at offset {offset}, found {found}"
  | trailing count => s!"{count} trailing bytes"
  | escape byte => "unexpected escape sequence 00 " ++ Hex.encode [byte] ++ " in path"
  | timeFlag flag => s!"unknown time range end flag {flag}"
  | subspaceFlag flag => s!"unknown area subspace flag {flag}"
  | accessMode mode => s!"unknown access mode {mode}"
  | capabilityKind kind => s!"unknown capability kind {kind}"
  | packTag tag => s!"unknown capability pack tag {tag}"

end EncodingFault

/-- Malformed input, or an attempt to widen a capability. -/
inductive ValidationError
  | shortname (text : String) (fault : ShortnameFault)
  | identifier (fault : IdentifierFault)
  | sigilMismatch (sigil : Char) (address : String)
  | path (fault : PathFault)
  /-- A time range that ends before it starts. -/
  | invertedTimes (start stop : Nat)
  | areaWidened (asked held : String)
  | notReceiver (holder receiver : String)
  | missingSubspaceCapability
  | capability (fault : CapabilityFault)
  | encoding (fault : EncodingFault)
  /-- The payload offered for an entry of this identity at this path is not the one it names. -/
  | payload (identity path : String)
  | noSuchDocument (path identity : String)
deriving DecidableEq, Repr

namespace ValidationError

def message : ValidationError → String
  | shortname text fault => s!"Invalid shortname '{text}': " ++ fault.message
  | identifier fault => "Invalid identifier: " ++ fault.message
  | sigilMismatch sigil address =>
    s!"Sigil '{sigil}' does not match the kind of share '{address}'"
  | path fault => "Invalid path: " ++ fault.message
  | invertedTimes start stop =>
    s!"Invalid area: time range ends ({stop}) before it starts ({start})"
  | areaWidened asked held =>
    s!"Restriction is not contained in the granted area: {asked} is not within {held}"
  | notReceiver holder receiver =>
    s!"'{holder}' cannot delegate a capability received by '{receiver}'"
  | missingSubspaceCapability => "Owned read capability is missing its subspace capability"
  | capability fault => "Invalid capability: " ++ fault.message
  | encoding fault => "Invalid encoding: " ++ fault.message
  | payload writer place =>
    s!"Invalid payload: payload does not match entry {writer} at {place}"
  | noSuchDocument place writer => s!"No document exists at {place} for {writer}"

end ValidationError

/-- No usable capability or keypair exists for an action. -/
inductive AuthorisationError
  | missingIdentityKeypair (identity : String)
  | missingShareKeypair (share : String)
  | noCapability (share identity path : String)
  /-- The token does not prove the write of an entry of this identity at this path. -/
  | invalidToken (identity path : String)
deriving DecidableEq, Repr

namespace AuthorisationError

def message : AuthorisationError → String
  | missingIdentityKeypair identity => s!"No keypair is held for identity {identity}"
  | missingShareKeypair share => s!"No keypair is held for share {share}"
  | noCapability share identity path =>
    s!"No write capability covers {identity} at {path} in {share}"
  | invalidToken identity path =>
    s!"Authorisation token does not authorise the entry: {identity} at {path}"

end AuthorisationError

inductive StorageError
  | backend (reason : String)
  | decode (reason : String)
  | verification (reason : String)
deriving DecidableEq, Repr

namespace StorageError

def message : StorageError → String
  | backend reason => "Storage backend error: " ++ reason
  | decode reason => "Failed to decode a stored value: " ++ reason
  | verification reason => "Byte hash verification failed: " ++ reason

end StorageError

inductive VaultError
  | wrongPassword
  /-- The check record is too short to hold a salt. -/
  | truncatedCheck
  /-- A password cannot be stretched by zero rounds. -/
  | noRounds
  | randomness (reason : String)
  | storage (reason : String)
deriving DecidableEq, Repr

namespace VaultError

def message : VaultError → String
  | wrongPassword => "Wrong password for vault"
  | truncatedCheck => "Decryption failed: vault check record is truncated"
  | noRounds => "Key derivation failed: at least one iteration is required"
  | randomness reason => "RNG error: " ++ reason
  | storage reason => "Vault storage error: " ++ reason

def ofStorage (e : StorageError) : VaultError := .storage e.message

end VaultError

inductive KeypairError
  | validation (e : ValidationError)
  | randomness (reason : String)
deriving DecidableEq, Repr

namespace KeypairError

def message : KeypairError → String
  | validation e => e.message
  | randomness reason => "RNG error: " ++ reason

end KeypairError

inductive AuthError
  | validation (e : ValidationError)
  | authorisation (e : AuthorisationError)
  | storage (reason : String)
  | vault (e : VaultError)
deriving DecidableEq, Repr

namespace AuthError

def message : AuthError → String
  | validation e => e.message
  | authorisation e => e.message
  | storage reason => "Storage error: " ++ reason
  | vault e => e.message

def ofStorage (e : StorageError) : AuthError := .storage e.message

def ofKeypair : KeypairError → AuthError
  | .validation e => .validation e
  | .randomness reason => .vault (.randomness reason)

end AuthError

/-- How stored data contradicts itself. -/
inductive InvariantFault
  | corruptEntry (reason : String)
  | missingEntry
  | corruptCount (digest : String)
  | overReleased (digest : String)
deriving DecidableEq, Repr

namespace InvariantFault

def message : InvariantFault → String
  | corruptEntry reason => "Stored entry is corrupt: " ++ reason
  | missingEntry => "Index refers to a missing entry"
  | corruptCount digest => s!"Reference count of payload {digest} is corrupt"
  | overReleased digest => s!"Payload {digest} is released more often than it is referenced"

end InvariantFault

inductive StoreError
  | validation (e : ValidationError)
  | authorisation (e : AuthorisationError)
  | storage (reason : String)
  | auth (e : AuthError)
  | invariant (fault : InvariantFault)
deriving DecidableEq, Repr

namespace StoreError

def message : StoreError → String
  | validation e => e.message
  | authorisation e => e.message
  | storage reason => "Storage operation failed: " ++ reason
  | auth e => e.message
  | invariant fault => "Invariant violated: " ++ fault.message

def ofStorage (e : StorageError) : StoreError := .storage e.message

end StoreError

end DocumentShare
