import DocumentShare.Authority.Pack
import DocumentShare.Vault.Config

/-!
# Selecting capabilities

Which of the capabilities that a vault keeps are wanted.
-/

namespace DocumentShare

structure Position where
  identity : Identity
  path : Path
  timestamp : UInt64
deriving DecidableEq

/-- Which capabilities are wanted; what is not given selects all. -/
structure CapabilityQuery where
  share : Option Share
  mode : Option AccessMode
  /-- Only capabilities whose area includes this position. -/
  target : Option Position
deriving DecidableEq

namespace AccessMode

def recordKind : AccessMode → Vault.RecordKind
  | read => .read
  | write => .write

end AccessMode

namespace CapabilityQuery

/-- The kinds of record that are searched, in order. -/
def kinds (q : CapabilityQuery) : List Vault.RecordKind :=
  match q.mode with
  | none => [.read, .write]
  | some mode => [mode.recordKind]

def selects (q : CapabilityQuery) (p : Pack) : Bool :=
  q.share.all (p.share = ·) && q.target.all (fun t => p.area.includes t.identity t.path t.timestamp)

end CapabilityQuery

end DocumentShare
