import DocumentShare.Crypto.Basic
import DocumentShare.Text.Base64
import DocumentShare.Vault.Config

/-!
# Sealed records

A sealed text is a nonce and a ciphertext. A record is a salt and a text sealed under the key
expanded from the master key with that salt; `openRecord?_sealRecord` says that a record opens under
the key it was sealed under.
-/

namespace DocumentShare

namespace Vault

variable [Crypto]

def checkText : Bytes := Bytes.ofText "quill vault check"

def recordPurpose : Bytes := Bytes.ofText "quill vault record"

def sealText (key : SealingKey) (nonce : Nonce) (plaintext : Bytes) : Bytes :=
  nonce.bytes ++ Crypto.encrypt key nonce plaintext

/-- The text that was sealed under a key, if it is long enough and was not changed. -/
def openText? (key : SealingKey) (sealed : Bytes) : Option Bytes :=
  if sealed.length < 12 then none
  else Crypto.decrypt key (.fit 12 sealed) (sealed.drop 12)

/-- The key of the record with a salt. -/
def recordKey (master : SealingKey) (salt : Salt) : SealingKey :=
  Crypto.expand master salt recordPurpose

def sealRecord (master : SealingKey) (salt : Salt) (nonce : Nonce) (plaintext : Bytes) : Bytes :=
  salt.bytes ++ sealText (recordKey master salt) nonce plaintext

def openRecord? (master : SealingKey) (record : Bytes) : Option Bytes :=
  if record.length < 16 then none
  else openText? (recordKey master (.fit 16 record)) (record.drop 16)

/-- The storage key of a record: its ciphertext's digest in base64, after the front of its kind. -/
def storageKey (c : Config) (kind : RecordKind) (record : Bytes) : Bytes :=
  c.front kind ++ Bytes.ofText (Base64.encode (Crypto.digest (record.drop 28)).bytes)

theorem openText?_sealText [Crypto.Lawful] (key : SealingKey) (nonce : Nonce) (plaintext : Bytes) :
    openText? key (sealText key nonce plaintext) = some plaintext := by
  have hfit : Block.fit 12 (nonce.bytes ++ Crypto.encrypt key nonce plaintext) = nonce :=
    Block.fit_append nonce _
  simp [openText?, sealText, nonce.length_bytes, hfit, Crypto.Lawful.decrypt_encrypt]

theorem openRecord?_sealRecord [Crypto.Lawful] (master : SealingKey) (salt : Salt) (nonce : Nonce)
    (plaintext : Bytes) : openRecord? master (sealRecord master salt nonce plaintext)
      = some plaintext := by
  have hfit (rest : Bytes) : Block.fit 16 (salt.bytes ++ rest) = salt := Block.fit_append salt rest
  simp [openRecord?, sealRecord, salt.length_bytes, hfit, openText?_sealText]

end Vault

end DocumentShare
