import DocumentShare.Bytes.Reader
import DocumentShare.Crypto.Basic
import DocumentShare.Naming.Shortname
import DocumentShare.Text.Base32

/-!
# Identifiers

An identifier is a shortname and a public key. It has an address, such as `@suzy.…`, whose sigil
tells its kind, and a byte encoding that is ordered like the identifier itself.
-/

namespace DocumentShare

structure Identifier (r : Role) where
  name : Shortname r
  key : PublicKey
deriving DecidableEq

/-- The name of a writer or reader. -/
abbrev Identity := Identifier .identity

/-- The name of a share. -/
abbrev Share := Identifier .share

namespace Identifier

variable {r : Role}

def make (r : Role) (text : String) (key : PublicKey) : Except ValidationError (Identifier r) :=
  (Shortname.parse r text).map (fun name => ⟨name, key⟩)

instance : Ord (Identifier r) :=
  ⟨fun a b => (compare a.name.bytes b.name.bytes).then (compare a.key b.key)⟩

/-- Whether a key is that of a share which every identity may write to. -/
def communalKey (key : PublicKey) : Bool := key.bytes.getLastD 0 &&& 1 = 1

/-- Whether a share is open to every identity, each in its own part. -/
def isCommunal (s : Share) : Bool := communalKey s.key

/-- The character that an address begins with. -/
def sigil (i : Identifier r) : Char :=
  match r with
  | .identity => '@'
  | .share => if communalKey i.key then '+' else '-'

/-- Whether a signature over a message was made with the secret of this identifier. -/
def verify [Crypto] (i : Identifier r) (message : Bytes) (signature : Signature) : Bool :=
  Crypto.verify i.key message signature

/-! ### Bytes -/

/-- The shortname, a zero byte if it is shorter than the longest, and the key. -/
def encode (i : Identifier r) : Bytes :=
  i.name.bytes ++ (if i.name.bytes.length < r.greatestLength then [0] else []) ++ i.key.bytes

/-- Reads a shortname of `length` bytes, the bytes that end it, and a key. -/
def decodeParts (r : Role) (length terminator : Nat) : Decoder (Identifier r) := do
  let raw ← Decoder.take length
  let _ ← Decoder.take terminator
  match Bytes.toText? raw with
  | none => Decoder.reject (.identifier (.notUtf8 r.name))
  | some text =>
    let key ← Decoder.block 32
    match make r text key with
    | .ok i => return i
    | .error e => Decoder.reject e

/-- Reads an encoded identifier. A zero byte ends a shortname that is shorter than the longest. -/
def decode (r : Role) : Decoder (Identifier r) := fun reader =>
  match (reader.rest.take r.greatestLength).idxOf? 0 with
  | some length => decodeParts r length 1 reader
  | none => decodeParts r r.greatestLength 0 reader

/-! ### Addresses -/

instance : ToString (Identifier r) :=
  ⟨fun i => i.sigil.toString ++ toString i.name ++ "." ++ Base32.encode i.key.bytes⟩

def parse (r : Role) (address : String) : Except ValidationError (Identifier r) :=
  match address.toList with
  | [] => .error (.identifier (.emptyAddress address))
  | sigil :: rest =>
    match rest.dropWhile (· ≠ '.') with
    | [] => .error (.identifier (.noSeparator address))
    | _ :: keyText =>
      match Base32.decodeChars keyText with
      | none => .error (.identifier (.notBase32 address))
      | some keyBytes =>
        match Block.ofBytes? keyBytes with
        | none => .error (.identifier (.keyLength address))
        | some key =>
          match make r (String.ofList (rest.takeWhile (· ≠ '.'))) key with
          | .error e => .error e
          | .ok i =>
            if i.sigil = sigil then .ok i
            else if sigil ∈ ['@', '+', '-'] then .error (.sigilMismatch sigil address)
            else .error (.identifier (.unknownSigil address))

/-! ### Counting -/

def nextByte? (b : UInt8) : Option UInt8 := if b = 255 then none else some (b + 1)

/-- The following key, if this is not the last. -/
def nextKey? (key : PublicKey) : Option PublicKey :=
  match h : Shortname.countUp nextByte? 0 key.bytes with
  | none => none
  | some b => some ⟨b, (Shortname.length_countUp h).trans key.length_bytes⟩

/-- The following identifier with as long a shortname, if this is not the last. -/
def next? (i : Identifier r) : Option (Identifier r) :=
  match nextKey? i.key with
  | some key => some { i with key }
  | none => i.name.next?.map (fun name => ⟨name, .zero 32⟩)

end Identifier

end DocumentShare
