import DocumentShare.Bytes.Reader
import DocumentShare.Text.Base32

/-!
# Paths

A path is a bounded list of byte strings. Paths are ordered component by component, so a path comes
before every path it is a prefix of; `ordered` writes a path so that comparing bytes compares paths.
-/

namespace DocumentShare

namespace Path

def maxCount : Nat := 16

def maxLength : Nat := 64

/-- The greatest length of all components together. -/
def maxTotal : Nat := 1024

/-- The bounds on the components of a path. -/
structure Fits (components : List Bytes) : Prop where
  count : components.length ≤ maxCount
  length : ∀ c ∈ components, c.length ≤ maxLength
  total : components.flatten.length ≤ maxTotal

instance (components : List Bytes) : Decidable (Fits components) :=
  decidable_of_iff (components.length ≤ maxCount ∧ (∀ c ∈ components, c.length ≤ maxLength) ∧
      components.flatten.length ≤ maxTotal)
    ⟨fun ⟨h, h', h''⟩ => ⟨h, h', h''⟩, fun ⟨h, h', h''⟩ => ⟨h, h', h''⟩⟩

theorem length_flatten_le {components : List Bytes} (length : ∀ c ∈ components, c.length ≤ maxLength) :
    components.flatten.length ≤ components.length * maxLength := by
  induction components with
  | nil => exact Nat.zero_le _
  | cons c rest ih =>
    obtain ⟨here, later⟩ := List.forall_mem_cons.mp length
    rw [List.flatten_cons, List.length_append, List.length_cons, Nat.succ_mul, Nat.add_comm]
    exact Nat.add_le_add (ih later) here

/-- The last bound cannot be broken alone: sixteen components of 64 bytes have 1024. -/
theorem Fits.of_count_length {components : List Bytes} (count : components.length ≤ maxCount)
    (length : ∀ c ∈ components, c.length ≤ maxLength) : Fits components where
  count := count
  length := length
  total := Nat.le_trans (length_flatten_le length) (Nat.mul_le_mul_right maxLength count)

end Path

/-- A place in an identity's part of a share. -/
structure Path where
  components : List Bytes
  fits : Path.Fits components
deriving DecidableEq

namespace Path

@[ext] theorem ext {p q : Path} (h : p.components = q.components) : p = q := by
  cases p; cases q; simp_all

/-- The first bound that components break. -/
def fault (components : List Bytes) : PathFault :=
  if components.length > maxCount then .components components.length maxCount
  else match components.find? (fun c => c.length > maxLength) with
    | some c => .componentLength c.length maxLength
    | none => .totalLength components.flatten.length maxTotal

def ofComponents (components : List Bytes) : Except ValidationError Path :=
  if h : Fits components then .ok ⟨components, h⟩ else .error (.path (fault components))

def empty : Path := ⟨[], by decide⟩

instance : Inhabited Path := ⟨empty⟩

instance : Ord Path := ⟨fun p q => compare p.components q.components⟩

def count (p : Path) : Nat := p.components.length

def size (p : Path) : Nat := p.components.flatten.length

def take (p : Path) (n : Nat) : Path :=
  ⟨p.components.take n,
    .of_count_length (Nat.le_trans (List.length_take_le' n p.components) p.fits.count)
      fun c h => p.fits.length c (List.mem_of_mem_take h)⟩

/-- Whether `q` continues `p` or equals it. -/
def isPrefixOf (p q : Path) : Bool := p.components.isPrefixOf q.components

/-- Whether `q` continues `p` by at least one component. -/
def isStrictPrefixOf (p q : Path) : Bool := p.count < q.count && p.isPrefixOf q

/-- The paths that `p` continues, the shortest first. -/
def strictPrefixes (p : Path) : List Path := (List.range p.count).map p.take

def append (p q : Path) : Except ValidationError Path := ofComponents (p.components ++ q.components)

def push (p : Path) (c : Bytes) : Except ValidationError Path := ofComponents (p.components ++ [c])

theorem isPrefixOf_iff {p q : Path} : p.isPrefixOf q = true ↔ p.components <+: q.components := by
  simp [isPrefixOf]

theorem isPrefixOf_refl (p : Path) : p.isPrefixOf p := isPrefixOf_iff.mpr List.prefix_rfl

theorem isPrefixOf_trans {p q r : Path} (first : p.isPrefixOf q) (second : q.isPrefixOf r) :
    p.isPrefixOf r :=
  isPrefixOf_iff.mpr ((isPrefixOf_iff.mp first).trans (isPrefixOf_iff.mp second))

/-! ### Text -/

/-- The characters of a readable component. -/
def isPlainChar (c : Char) : Bool := c.isAlphanum || c = '.' || c = '_' || c = '-'

/-- The first character that keeps a text from being a readable component. -/
def oddChar? (text : String) : Option Char := text.toList.find? (fun c => !isPlainChar c)

/-- The path of readable components. Each character is one byte. -/
def ofTexts (texts : List String) : Except ValidationError Path :=
  match texts.findSome? (fun text => (oddChar? text).map (PathFault.character text)) with
  | some fault => .error (.path fault)
  | none => ofComponents (texts.map (fun text => text.toList.map Char.toUInt8))

/-- The pieces of a text between slashes. -/
def pieces : List Char → List (List Char)
  | [] => [[]]
  | c :: rest =>
    if c = '/' then [] :: pieces rest
    else match pieces rest with
      | [] => [[c]]
      | piece :: others => (c :: piece) :: others

/-- The path that a text such as `/a/b` stands for; `/` alone is the empty path. -/
def parse (text : String) : Except ValidationError Path :=
  match text.toList with
  | ['/'] => .ok empty
  | '/' :: rest => ofTexts ((pieces rest).map String.ofList)
  | _ => .error (.path (.notRooted text))

/-- The form that `parse` reads, if every byte is a readable character. -/
def plain? (p : Path) : Option String :=
  let texts := p.components.map (List.map Char.ofUInt8)
  if texts.all (fun text => text.all isPlainChar) then
    some (if texts.isEmpty then "/" else String.ofList (texts.flatMap ('/' :: ·)))
  else none

/-- The form with every component in base32. -/
def base32 (p : Path) : String :=
  if p.components.isEmpty then "/"
  else String.join (p.components.map (fun c => "/" ++ Base32.encode c))

instance : ToString Path := ⟨fun p => p.plain?.getD p.base32⟩

def describe (p : Path) : String := s!"Path({p})"

/-! ### The ordered encoding -/

/-- A component with every zero byte escaped. -/
def escape (c : Bytes) : Bytes := c.flatMap (fun b => if b = 0 then [0, 0xff] else [b])

/-- The components, each escaped and ended by `00 01`. Every path that continues `p` is written with
these bytes in front. -/
def orderedComponents (p : Path) : Bytes := p.components.flatMap (fun c => escape c ++ [0, 1])

/-- The encoding, ended by `00 00`. -/
def ordered (p : Path) : Bytes := p.orderedComponents ++ [0, 0]

/-- Reads ordered components up to their end. `done` and `current` hold what is already read, the
last first. -/
def readOrdered : (rest : Bytes) → (offset : Nat) → (done : List Bytes) → (current : Bytes) →
    Except ValidationError (List Bytes × Reader)
  | [], offset, _, _ => .error (.encoding (.short 1 offset 0))
  | b :: rest, offset, done, current =>
    if b ≠ 0 then readOrdered rest (offset + 1) done (b :: current)
    else match rest with
      | [] => .error (.encoding (.short 1 (offset + 1) 0))
      | e :: rest =>
        if e = 0xff then readOrdered rest (offset + 2) done (0 :: current)
        else if e = 1 then readOrdered rest (offset + 2) (current.reverse :: done) []
        else if e = 0 ∧ current = [] then .ok (done.reverse, ⟨rest, offset + 2⟩)
        else .error (.encoding (.escape e))

def decodeOrdered : Decoder Path := fun r => do
  let (components, r) ← readOrdered r.rest r.offset [] []
  let p ← ofComponents components
  return (p, r)

end Path

end DocumentShare
