import DocumentShare.Bytes.Basic

/-!
# Cryptographic primitives

What identifiers, capabilities and vaults need of cryptography, as one class. The rest of the
library is written over any instance, so that its properties can be stated from the laws of
`Crypto.Lawful` alone; `Crypto.Standard` gives the instance in use.
-/

namespace DocumentShare

abbrev Digest := Block 32
abbrev PublicKey := Block 32
abbrev Secret := Block 32
abbrev Signature := Block 64
/-- A key that records are sealed under. -/
abbrev SealingKey := Block 32
abbrev Salt := Block 16
abbrev Nonce := Block 12

class Crypto where
  digest : Bytes → Digest
  publicKey : Secret → PublicKey
  sign : Secret → Bytes → Signature
  verify : PublicKey → Bytes → Signature → Bool
  /-- The key stretched from a password by a positive number of rounds. -/
  stretch : (password : Bytes) → Salt → (rounds : Nat) → SealingKey
  /-- The key expanded from a master key for the purpose `info`. -/
  expand : (master : SealingKey) → Salt → (info : Bytes) → SealingKey
  encrypt : SealingKey → Nonce → (plaintext : Bytes) → Bytes
  decrypt : SealingKey → Nonce → (ciphertext : Bytes) → Option Bytes

/-- What makes signing and sealing work. -/
class Crypto.Lawful [Crypto] : Prop where
  verify_sign (secret : Secret) (message : Bytes) :
    verify (publicKey secret) message (sign secret message) = true
  decrypt_encrypt (key : SealingKey) (nonce : Nonce) (plaintext : Bytes) :
    decrypt key nonce (encrypt key nonce plaintext) = some plaintext

end DocumentShare
