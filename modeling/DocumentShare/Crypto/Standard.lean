import DocumentShare.Crypto.Aes
import DocumentShare.Crypto.Basic
import DocumentShare.Crypto.Blake3
import DocumentShare.Crypto.Ed25519
import DocumentShare.Crypto.KeyDerivation

/-!
# The primitives in use

BLAKE3 digests, Ed25519 signatures, keys from PBKDF2 and HKDF, and sealing by AES-256 in
Galois/counter mode.
-/

namespace DocumentShare

instance Crypto.standard : Crypto where
  digest message := .fit 32 (Blake3.hash message)
  publicKey secret := .fit 32 (Ed25519.publicKey secret.bytes)
  sign secret message := .fit 64 (Ed25519.sign secret.bytes message)
  verify key message signature := Ed25519.verify key.bytes message signature.bytes
  stretch password salt rounds := .fit 32 (Pbkdf2.stretch password salt.bytes rounds)
  expand master salt info := .fit 32 (Hkdf.derive master.bytes salt.bytes info)
  encrypt key nonce plaintext := Aes.encrypt key.bytes nonce.bytes plaintext
  decrypt key nonce ciphertext := Aes.decrypt key.bytes nonce.bytes ciphertext

end DocumentShare
