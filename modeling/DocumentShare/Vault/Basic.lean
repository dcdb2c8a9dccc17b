import DocumentShare.Site.Entropy
import DocumentShare.Storage.Backend
import DocumentShare.Storage.Scan
import DocumentShare.Vault.Sealing

/-!
# Vaults

A vault keeps sealed records in a backend. Its master key is stretched from the password when it is
first needed, against a check record that the first unlocking writes; what that came to, a key or
an error, is kept for good.
-/

namespace DocumentShare

namespace Vault

structure State where
  backend : Backend
  /-- What the first unlocking came to. -/
  lock : Option (Except VaultError SealingKey)
  entropy : Entropy

end Vault

abbrev VaultWork (α : Type) := Work Vault.State VaultError α

namespace Vault

def onBackend {α : Type} (w : Work Backend StorageError α) : VaultWork α :=
  (w.onPart State.backend (fun b s => { s with backend := b })).reporting .ofStorage

def draw (n : Nat) : VaultWork (Block n) :=
  (Entropy.draw n).onPart State.entropy (fun entropy s => { s with entropy })

def scan (range : KeyRange) : VaultWork (List (Bytes × Bytes)) :=
  onBackend (Backend.scan range .ascending)

def askItem : VaultWork Unit := onBackend (Backend.ask .scan)

variable [Crypto]

def stretch (c : Config) (salt : Salt) : Except VaultError SealingKey :=
  if c.rounds = 0 then .error .noRounds
  else .ok (Crypto.stretch (Bytes.ofText c.password) salt c.rounds)

/-- Whether a key opens the text of a check record. -/
def passes (key : SealingKey) (sealed : Bytes) : Bool := openText? key sealed = some checkText

/-- The master key that a check record proves. -/
def checkMaster (c : Config) (record : Bytes) : Except VaultError SealingKey := do
  if record.length < 16 then throw .truncatedCheck
  let key ← stretch c (.fit 16 record)
  if passes key (record.drop 16) then return key else throw .wrongPassword

/-- Checks the password, or sets it where there is no check record. -/
def unlock (c : Config) : VaultWork SealingKey := do
  match ← onBackend (Backend.get c.checkKey) with
  | some record => Work.check id (checkMaster c record)
  | none =>
    let salt ← draw 16
    let key ← Work.check id (stretch c salt)
    let nonce ← draw 12
    onBackend (Backend.set c.checkKey (salt.bytes ++ sealText key nonce checkText))
    return key

/-- The master key. Only the first call unlocks; the others repeat what it came to. -/
def masterKey (c : Config) : VaultWork SealingKey :=
  .ofStep fun s =>
    match s.lock with
    | some result => (result, s)
    | none =>
      let (result, s) := (unlock c).runOn s
      (result, { s with lock := some result })

def ready (c : Config) : VaultWork Unit := do let _ ← masterKey c

/-- Seals a text under a master key as a record of a kind and answers its storage key. -/
def putUnder (c : Config) (master : SealingKey) (kind : RecordKind) (plaintext : Bytes) :
    VaultWork Bytes := do
  let salt ← draw 16
  let nonce ← draw 12
  let record := sealRecord master salt nonce plaintext
  let key := storageKey c kind record
  onBackend (Backend.set key record)
  return key

def put (c : Config) (kind : RecordKind) (plaintext : Bytes) : VaultWork Bytes := do
  let master ← masterKey c
  putUnder c master kind plaintext

/-- The records of a kind that open, in key order, each as its key and text. -/
def records (c : Config) (kind : RecordKind) : VaultWork (List (Bytes × Bytes)) := do
  let master ← masterKey c
  (← scan (.startingWith (c.front kind))).filterMapM fun (key, record) => do
    askItem
    return (openRecord? master record).map (key, ·)

/-- What `visit` finds in the texts of a kind, in key order; the records after it are not read. -/
def find {α : Type} (c : Config) (kind : RecordKind) (visit : Bytes → VaultWork (Option α)) :
    VaultWork (Option α) := do
  let master ← masterKey c
  (← scan (.startingWith (c.front kind))).findSomeM? fun (_, record) => do
    askItem
    match openRecord? master record with
    | some plaintext => visit plaintext
    | none => return none

/-- Removes the record under a key and answers whether there was one. -/
def delete (c : Config) (key : Bytes) : VaultWork Bool := do
  let _ ← masterKey c
  onBackend (Backend.delete key)

/-- Removes the records of a kind that open. Those that do not may belong to a vault whose name
continues this one's. -/
def wipeKind (c : Config) (kind : RecordKind) : VaultWork Unit := do
  (← records c kind).forM fun (key, _) => do
    let _ ← onBackend (Backend.delete key)

/-- Removes every record that opens, kind by kind, and then the check record. -/
def wipe (c : Config) : VaultWork Unit := do
  RecordKind.all.forM (wipeKind c)
  let _ ← onBackend (Backend.delete c.checkKey)

end Vault

end DocumentShare
