import DocumentShare.Authority.Token
import DocumentShare.Credentials.Query
import DocumentShare.Vault.Basic

/-!
# Credentials

The keypairs and capabilities that a vault keeps, and the choice of a capability for a write.
Records that open but cannot be decoded are passed over.
-/

namespace DocumentShare

abbrev CredentialWork (α : Type) := Work Vault.State AuthError α

namespace Credentials

variable [Crypto]

def ready (c : Vault.Config) : CredentialWork Unit := (Vault.ready c).reporting .vault

/-! ### Keypairs -/

/-- The kind of record that keeps the keypairs of a role. -/
def keypairKind : Role → Vault.RecordKind
  | .identity => .identityKeypair
  | .share => .shareKeypair

/-- Every keypair of a role, in key order. -/
def keypairs (c : Vault.Config) (r : Role) : CredentialWork (List (Keypair r)) := do
  let records ← (Vault.records c (keypairKind r)).reporting .vault
  return records.filterMap (fun (_, plaintext) => (Keypair.decode r plaintext).toOption)

def keypair? {r : Role} (c : Vault.Config) (id : Identifier r) : VaultWork (Option (Keypair r)) :=
  Vault.find c (keypairKind r) fun plaintext =>
    return match Keypair.decode r plaintext with
      | .ok k => if k.id = id then some k else none
      | .error _ => none

def addKeypair {r : Role} (c : Vault.Config) (k : Keypair r) : CredentialWork Unit :=
  Work.reporting .vault do
    if (← keypair? c k.id).isNone then
      let _ ← Vault.put c (keypairKind r) k.encode

/-- The keypair of an identity, which has to be held. -/
def heldKeypair (c : Vault.Config) (id : Identity) : CredentialWork IdentityKeypair := do
  match ← (keypair? c id).reporting .vault with
  | some k => return k
  | none => throw (.authorisation (.missingIdentityKeypair (toString id)))

/-! ### Capabilities -/

def holds (c : Vault.Config) (p : Pack) : VaultWork Bool := do
  let found ← Vault.find c p.mode.recordKind fun plaintext =>
    return if plaintext = p.encode then some () else none
  return found.isSome

/-- Stores a pack that is not yet held. It must be valid, and its receiver's keypair held. -/
def store (c : Vault.Config) (p : Pack) : CredentialWork Unit := do
  let _ ← heldKeypair c p.receiver
  if !p.isValid then
    throw (.validation (.capability (.notValid (toString p.mode) (toString p.receiver))))
  Work.reporting .vault do
    if !(← holds c p) then
      let _ ← Vault.put c p.mode.recordKind p.encode

/-- A pack over all that an identity can be granted in a share by the keypair of that share. -/
def mintOwned (k : ShareKeypair) (user : Identity) (mode : AccessMode) :
    Except ValidationError Pack := do
  let subspace ← match mode with
    | .read => (SubspaceCapability.ofOwned k user).map some
    | .write => pure none
  Pack.ofCapability (← Capability.ofOwned k user mode) subspace

/-- A pack over all that an identity can be granted in a share: its own part of a communal share,
or the whole of an owned one, whose keypair must then be held. -/
def issue (c : Vault.Config) (share : Share) (user : Identity) (mode : AccessMode) :
    CredentialWork Pack := do
  if share.isCommunal then
    let capability ← Work.check .validation (Capability.ofCommunal share user mode)
    Work.check .validation (Pack.ofCapability capability none)
  else
    match ← (keypair? c share).reporting .vault with
    | some k => Work.check .validation (mintOwned k user mode)
    | none => throw (.authorisation (.missingShareKeypair (toString share)))

/-- Makes a pack over all that an identity can be granted in a share, and stores it if `persist`. -/
def mint (c : Vault.Config) (share : Share) (user : Identity) (mode : AccessMode) (persist : Bool) :
    CredentialWork Pack := do
  let pack ← issue c share user mode
  if persist then store c pack
  return pack

/-- The packs that a query selects, kind by kind and in key order. -/
def capabilities (c : Vault.Config) (q : CapabilityQuery) : CredentialWork (List Pack) := do
  let records ← Work.reporting .vault (q.kinds.mapM (Vault.records c))
  return records.flatten.filterMap fun (_, plaintext) =>
    (Pack.decode plaintext).toOption.filter q.selects

def delegate (c : Vault.Config) (p : Pack) (recipient : Identity) (r : Restriction) :
    CredentialWork Pack := do
  let holder ← heldKeypair c p.receiver
  Work.check .validation (p.delegate holder recipient r)

def covering (e : Entry) : CapabilityQuery :=
  ⟨some e.share, some .write, some ⟨e.identity, e.path, e.timestamp⟩⟩

/-- A token for an entry, by the first capability in key order that covers it and whose receiver's
keypair is held. -/
def authorise (c : Vault.Config) (e : Entry) : CredentialWork (Option Token) :=
  Work.reporting .vault <| Vault.find c .write fun plaintext => do
    match (Pack.decode plaintext).toOption.filter (covering e).selects with
    | none => return none
    | some pack =>
      return (← keypair? c pack.receiver).map (fun k => ⟨pack.capability, k.sign e.encode⟩)

def wipe (c : Vault.Config) : CredentialWork Unit := (Vault.wipe c).reporting .vault

end Credentials

end DocumentShare
