import DocumentShare.Naming.Keypair
import DocumentShare.Naming.Path

/-!
# Transparent cryptography

The laws that signing and sealing rest on, met by primitives that keep nothing secret: a public key
is its secret, a signature names the key and the front of the message, and a sealed text is the
text. Statements over `Crypto.Lawful` are tried out here, on keypairs that a byte determines.
-/

namespace DocumentShare.Crypto

/-- Primitives that obey the laws and hide nothing. -/
@[reducible] def transparent : Crypto where
  digest message := .fit 32 message
  publicKey secret := secret
  sign secret message := .fit 64 (secret.bytes ++ message)
  verify key message signature := signature = .fit 64 (key.bytes ++ message)
  stretch password salt rounds := .fit 32 (salt.bytes ++ rounds.toUInt8 :: password)
  expand master salt info := .fit 32 (master.bytes.take 16 ++ salt.bytes ++ info)
  encrypt _ _ plaintext := plaintext
  decrypt _ _ ciphertext := some ciphertext

theorem transparent_lawful : @Lawful transparent := by
  refine @Lawful.mk transparent ?_ ?_
  · intro secret message
    exact decide_eq_true rfl
  · intro key nonce plaintext
    rfl

namespace Transparent

attribute [local instance] transparent

def name (r : Role) : Shortname r := ⟨[115, 117, 122, 121], by cases r <;> decide⟩

/-- The keypair whose secret repeats a byte. A share of an odd byte is communal. -/
def keypair (r : Role) (byte : UInt8) : Keypair r :=
  let secret : Secret := ⟨List.replicate 32 byte, List.length_replicate⟩
  ⟨⟨name r, secret⟩, secret, rfl⟩

def identity (byte : UInt8) : Identity := (keypair .identity byte).id

def share (byte : UInt8) : Share := (keypair .share byte).id

def path (byte : UInt8) : Path :=
  ⟨[[byte]], .of_count_length (by simp [Path.maxCount]) (by simp [Path.maxLength])⟩

def below (byte last : UInt8) : Path :=
  ⟨[[byte], [last]], .of_count_length (by simp [Path.maxCount]) (by simp [Path.maxLength])⟩

end Transparent

end DocumentShare.Crypto
