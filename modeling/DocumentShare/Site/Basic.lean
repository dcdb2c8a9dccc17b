import DocumentShare.Site.Slots
import DocumentShare.Store.Archive
import DocumentShare.Vault.Basic

/-!
# Sites

The backends, payloads, locks of vaults and feeds of events in one place, each known by a number,
so that vaults and stores can share them.
-/

namespace DocumentShare

/-- What the first unlocking of a vault came to, once there was one. -/
abbrev Lock := Option (Except VaultError SealingKey)

structure Site where
  backends : Slots Backend
  /-- Backends whose keys are digests. -/
  payloads : Slots Backend
  locks : Slots Lock
  /-- The events of stores, the last first. -/
  feeds : Slots (List Event)
  entropy : Entropy

abbrev SiteWork (ε α : Type) := Work Site ε α

namespace Site

def empty (entropy : Entropy) : Site := ⟨.empty, .empty, .empty, .empty, entropy⟩

variable {ε α : Type}

def addBackend : SiteWork ε Nat :=
  .ofStep fun s =>
    let (i, backends) := s.backends.add .empty
    (.ok i, { s with backends })

def addPayloads : SiteWork ε Nat :=
  .ofStep fun s =>
    let (i, payloads) := s.payloads.add .empty
    (.ok i, { s with payloads })

def addLock : SiteWork ε Nat :=
  .ofStep fun s =>
    let (i, locks) := s.locks.add none
    (.ok i, { s with locks })

def addFeed : SiteWork ε Nat :=
  .ofStep fun s =>
    let (i, feeds) := s.feeds.add []
    (.ok i, { s with feeds })

def onBackend (i : Nat) (w : Work Backend ε α) : SiteWork ε α :=
  w.onPart (fun s => s.backends.get i) (fun b s => { s with backends := s.backends.set i b })

def onPayloads (i : Nat) (w : Work Backend ε α) : SiteWork ε α :=
  w.onPart (fun s => s.payloads.get i) (fun b s => { s with payloads := s.payloads.set i b })

end Site

/-- A vault of a site. Vaults with one lock unlock together. -/
structure Vault where
  config : Vault.Config
  backend : Nat
  lock : Nat
deriving DecidableEq

namespace Vault

variable {ε α : Type}

/-- A vault over a backend. Nothing is read until it is first used. -/
def make (backend : Nat) (config : Config) : SiteWork ε Vault :=
  return ⟨config, backend, ← Site.addLock⟩

def work (v : Vault) (w : Config → Work State ε α) : SiteWork ε α :=
  (w v.config).onPart
    (fun s => ⟨s.backends.get v.backend, s.locks.get v.lock, s.entropy⟩)
    (fun t s => { s with
      backends := s.backends.set v.backend t.backend,
      locks := s.locks.set v.lock t.lock,
      entropy := t.entropy })

end Vault

end DocumentShare
