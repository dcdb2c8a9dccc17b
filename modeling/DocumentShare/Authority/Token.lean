import DocumentShare.Authority.Capability
import DocumentShare.Authority.Entry

/-!
# Tokens

A token proves that an entry may be written: a write capability, and its receiver's signature over
the entry.
-/

namespace DocumentShare

structure Token where
  capability : Capability
  signature : Signature
deriving DecidableEq

namespace Token

def encode (t : Token) : Bytes := t.capability.encode ++ t.signature.bytes

def decode : Decoder Token := do return ⟨← Capability.decode, ← Decoder.block 64⟩

/-- Whether the token proves the write of an entry. -/
def authorises [Crypto] (t : Token) (e : Entry) : Bool :=
  t.capability.mode = .write && t.capability.share = e.share && e.isIn t.capability.area &&
    t.capability.isValid && t.capability.receiver.verify e.encode t.signature

end Token

end DocumentShare
