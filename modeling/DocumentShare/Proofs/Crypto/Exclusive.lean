import DocumentShare.Proofs.Crypto.Transparent

/-!
# Sealing for one key

Authenticated encryption opens a text only under the key that it was sealed under, which
`Crypto.Exclusive` says. The primitives `Crypto.keyed` obey this law too: a sealed text begins with
its key.
-/

namespace DocumentShare.Crypto

/-- What sets those who hold different keys apart. -/
class Exclusive [Crypto] : Prop where
  key_of_decrypt {key key' : SealingKey} {nonce : Nonce} {plaintext opened : Bytes} :
    decrypt key nonce (encrypt key' nonce plaintext) = some opened → key = key'

/-- The transparent primitives, with the key before each sealed text. -/
@[reducible] def keyed : Crypto :=
  { transparent with
    encrypt := fun key _ plaintext => key.bytes ++ plaintext
    decrypt := fun key _ ciphertext =>
      if ciphertext.take 32 = key.bytes then some (ciphertext.drop 32) else none }

theorem take_key (key : SealingKey) (plaintext : Bytes) :
    (key.bytes ++ plaintext).take 32 = key.bytes :=
  List.take_left' key.length_bytes

theorem keyed_lawful : @Lawful keyed := by
  refine @Lawful.mk keyed ?_ ?_
  · intro secret message
    exact decide_eq_true rfl
  · intro key nonce plaintext
    show (if (key.bytes ++ plaintext).take 32 = key.bytes
      then some ((key.bytes ++ plaintext).drop 32) else none) = some plaintext
    rw [if_pos (take_key key plaintext), List.drop_left' key.length_bytes]

theorem keyed_exclusive : @Exclusive keyed := by
  refine @Exclusive.mk keyed ?_
  intro key key' nonce plaintext opened opens
  have checked : (if (key'.bytes ++ plaintext).take 32 = key.bytes
      then some ((key'.bytes ++ plaintext).drop 32) else none) = some opened := opens
  rw [take_key] at checked
  split at checked
  · next same => exact Block.ext same.symm
  · cases checked

end DocumentShare.Crypto
