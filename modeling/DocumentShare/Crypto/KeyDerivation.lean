import DocumentShare.Crypto.Sha256

/-!
# Key derivation

HMAC over SHA-256, the password stretching PBKDF2 and the key expansion HKDF, each giving one
32-byte key.
-/

namespace DocumentShare

/-- An HMAC key: the states after the inner and the outer padded key block. -/
structure Hmac where
  inner : Sha256.State
  outer : Sha256.State

namespace Hmac

/-- The state after the key block whose bytes are combined with `pad`. -/
def absorb (key : Bytes) (pad : UInt8) : Sha256.State :=
  let block := ((Bytes.resize 64 key).map (· ^^^ pad)).toArray
  Sha256.compress Sha256.initial (Sha256.blockWords block 0)

/-- A key longer than a block is hashed first. -/
def ofKey (key : Bytes) : Hmac :=
  let key := if key.length > 64 then Sha256.hash key else key
  ⟨absorb key 0x36, absorb key 0x5c⟩

/-- The block of 32 bytes of chaining words that end a message whose first block is a key. -/
def tailBlock (s : Sha256.State) : Array UInt32 :=
  #[s.a, s.b, s.c, s.d, s.e, s.f, s.g, s.h, 0x80000000, 0, 0, 0, 0, 0, 0, 768]

/-- The code of 32 bytes, given and answered as chaining words. -/
def macWords (k : Hmac) (s : Sha256.State) : Sha256.State :=
  Sha256.compress k.outer (tailBlock (Sha256.compress k.inner (tailBlock s)))

/-- The code of a message, as chaining words. -/
def macState (k : Hmac) (message : Bytes) : Sha256.State :=
  Sha256.compress k.outer (tailBlock (Sha256.finishFrom k.inner 64 message))

def mac (key message : Bytes) : Bytes := ((ofKey key).macState message).bytes

end Hmac

namespace Pbkdf2

def xor (s t : Sha256.State) : Sha256.State :=
  ⟨s.a ^^^ t.a, s.b ^^^ t.b, s.c ^^^ t.c, s.d ^^^ t.d,
    s.e ^^^ t.e, s.f ^^^ t.f, s.g ^^^ t.g, s.h ^^^ t.h⟩

/-- `n` more rounds after `last`, gathered into `sum`. -/
def iterate (k : Hmac) : (n : Nat) → (last sum : Sha256.State) → Sha256.State
  | 0, _, sum => sum
  | n + 1, last, sum =>
    let next := k.macWords last
    iterate k n next (xor sum next)

/-- The 32-byte key stretched from a password by `rounds ≥ 1` rounds. -/
def stretch (password salt : Bytes) (rounds : Nat) : Bytes :=
  let k := Hmac.ofKey password
  let first := k.macState (salt ++ [0, 0, 0, 1])
  (iterate k (rounds - 1) first first).bytes

end Pbkdf2

namespace Hkdf

/-- The 32-byte key expanded from `secret` for the purpose `info`. -/
def derive (secret salt info : Bytes) : Bytes :=
  Hmac.mac (Hmac.mac salt secret) (info ++ [1])

end Hkdf

end DocumentShare
