import DocumentShare.Naming.Keypair
import DocumentShare.Site.Entropy

/-!
# Generating keypairs

Keypairs whose secrets are drawn at random.
-/

namespace DocumentShare.Keypair

variable [Crypto]

def generateIdentity (text : String) : Work Entropy KeypairError IdentityKeypair := do
  let _ ← Work.check .validation (Shortname.parse .identity text)
  let seed ← Entropy.draw 32
  Work.check .validation (ofSecret .identity text seed)

def generateShare (text : String) (communal : Bool) : Work Entropy KeypairError ShareKeypair := do
  let _ ← Work.check .validation (Shortname.parse .share text)
  let seed ← Entropy.draw 32
  Work.check (fun e => e) (shareOfSeed text communal seed)

end DocumentShare.Keypair
