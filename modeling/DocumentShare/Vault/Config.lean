import DocumentShare.Bytes.Basic
import DocumentShare.Text.Quoted

/-!
# Vault configurations

The name, password and rounds of stretching of a vault, and the kinds of record it keeps. Vaults
that share a backend are told apart by their names, which begin all their keys.
-/

namespace DocumentShare

namespace Vault

structure Config where
  name : String
  password : String
  rounds : Nat
deriving DecidableEq

/-- The rounds of a vault whose configuration names none. -/
def defaultRounds : Nat := 250000

inductive RecordKind
  | identityKeypair
  | shareKeypair
  | read
  | write
deriving DecidableEq, Repr

namespace RecordKind

def name : RecordKind → String
  | identityKeypair => "identitykeypair"
  | shareKeypair => "sharekeypair"
  | read => "read"
  | write => "write"

def all : List RecordKind := [identityKeypair, shareKeypair, read, write]

end RecordKind

namespace Config

/-- A configuration is described without its password. -/
def describe (c : Config) : String :=
  "VaultConfig \x7b namespace: " ++ Quoted.encode c.name ++ ", kdf_iterations: " ++ toString c.rounds
    ++ ", .. \x7d"

/-- The key of the record by which a password is checked. -/
def checkKey (c : Config) : Bytes := Bytes.ofText (c.name ++ "_vault_check")

/-- What every key of a kind of record begins with. -/
def front (c : Config) (kind : RecordKind) : Bytes :=
  Bytes.ofText (c.name ++ "_" ++ kind.name ++ "_")

end Config

end Vault

end DocumentShare
