import DocumentShare.Naming.Digest
import DocumentShare.Storage.Backend

/-!
# Payloads

A backend whose keys are digests holds payloads. Reading checks that the bytes found hash to the
digest they were asked for by.
-/

namespace DocumentShare.Payloads

def store [Crypto] (payload : Bytes) : BackendWork Digest := do
  let digest := Crypto.digest payload
  Backend.set digest.bytes payload
  return digest

def read [Crypto] (digest : Digest) : BackendWork (Option Bytes) := do
  match ← Backend.get digest.bytes with
  | none => return none
  | some payload =>
    if Crypto.digest payload = digest then return payload
    else throw (.verification s!"payload stored under {digest} does not hash to it")

/-- The length of the bytes stored under a digest, whatever they are. -/
def length (digest : Digest) : BackendWork (Option Nat) := do
  return (← Backend.get digest.bytes).map List.length

def erase (digest : Digest) : BackendWork Bool := Backend.delete digest.bytes

end DocumentShare.Payloads
