import DocumentShare.Naming.Identifier

/-!
# Keypairs

An identifier together with the secret of its key. A seed determines a keypair; the seed of a share
is hashed again until the key is of the wanted kind.
-/

namespace DocumentShare

structure Keypair [Crypto] (r : Role) where
  id : Identifier r
  secret : Secret
  publicKey_secret : Crypto.publicKey secret = id.key

namespace Keypair

variable [Crypto] {r : Role}

@[ext] theorem ext {a b : Keypair r} (hid : a.id = b.id) (hsecret : a.secret = b.secret) :
    a = b := by
  cases a; cases b; simp_all

instance : DecidableEq (Keypair r) := fun a b =>
  decidable_of_iff (a.id = b.id ∧ a.secret = b.secret)
    ⟨fun ⟨h, h'⟩ => ext h h', fun h => by simp [h]⟩

/-- The keypair of an identifier and a secret that belong together. -/
def ofParts (id : Identifier r) (secret : Secret) : Except ValidationError (Keypair r) :=
  if h : Crypto.publicKey secret = id.key then .ok ⟨id, secret, h⟩
  else .error (.identifier (.foreignSecret (toString id)))

/-- The keypair of a secret under the shortname that `text` spells. -/
def ofSecret (r : Role) (text : String) (secret : Secret) :
    Except ValidationError (Keypair r) :=
  (Shortname.parse r text).map (fun name => ⟨⟨name, Crypto.publicKey secret⟩, secret, rfl⟩)

def sign (k : Keypair r) (message : Bytes) : Signature := Crypto.sign k.secret message

/-- A keypair is described without its secret. -/
def describe (k : Keypair r) : String := "Keypair \x7b id: " ++ toString k.id ++ ", .. \x7d"

/-- The encoded identifier, then the secret. -/
def encode (k : Keypair r) : Bytes := k.id.encode ++ k.secret.bytes

def decode (r : Role) (b : Bytes) : Except ValidationError (Keypair r) := do
  let (id, secret) ← Decoder.runAll (do return (← Identifier.decode r, ← Decoder.block 32)) b
  ofParts id secret

/-- The first of `n` secrets, each the digest of the one before, whose key is communal or not as
wanted. -/
def searchSecret (communal : Bool) : (n : Nat) → Secret → Option Secret
  | 0, _ => none
  | n + 1, secret =>
    if Identifier.communalKey (Crypto.publicKey secret) = communal then some secret
    else searchSecret communal n (Crypto.digest secret.bytes)

/-- How many secrets are tried before the search for a share's key is given up. Half of all keys
are communal, so it is never reached in practice. -/
def searchLimit : Nat := 65536

/-- The keypair of a share, of the wanted kind, that a seed determines. -/
def shareOfSeed (text : String) (communal : Bool) (seed : Secret) :
    Except KeypairError (Keypair .share) :=
  match Shortname.parse .share text with
  | .error e => .error (.validation e)
  | .ok name =>
    match searchSecret communal searchLimit seed with
    | none => .error (.randomness "no key of the wanted kind was found")
    | some secret => .ok ⟨⟨name, Crypto.publicKey secret⟩, secret, rfl⟩

end Keypair

abbrev IdentityKeypair [Crypto] := Keypair .identity

abbrev ShareKeypair [Crypto] := Keypair .share

end DocumentShare
