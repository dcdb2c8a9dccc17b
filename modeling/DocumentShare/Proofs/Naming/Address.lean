import DocumentShare.Proofs.Naming.Canonical
import DocumentShare.Proofs.Text.Base32
import Mathlib.Data.Fintype.BigOperators
import Mathlib.Data.Set.Card

/-!
# Addresses

What is in front of the key of an address is written in one way, and a share's sigil tells its kind
(`Identifier.address_tells`). The key is written in base32, which leaves four bits of its last character
unused and does not look at them, so each identifier has sixteen addresses (`Identifier.address_spellings`).
-/

namespace DocumentShare.Identifier

variable {r : Role} {i : Identifier r} {text : String}

/-! ### The parts of an address -/

/-- The sigil and the shortname. -/
def front (i : Identifier r) : List Char := i.sigil :: (toString i.name).toList

theorem sigil_cases (i : Identifier r) :
    i.sigil = '@' ∨ i.sigil = '+' ∨ i.sigil = '-' := by
  unfold sigil
  split
  · exact .inl rfl
  · split
    · exact .inr (.inl rfl)
    · exact .inr (.inr rfl)

theorem sigil_share (s : Share) : s.sigil = if s.isCommunal then '+' else '-' := rfl

theorem point_notMem_name (n : Shortname r) : '.' ∉ (toString n).toList := by
  show '.' ∉ (String.ofList (n.bytes.map Char.ofUInt8)).toList
  rw [String.toList_ofList]
  intro member
  obtain ⟨x, here, same⟩ := List.mem_map.mp member
  have plain := n.legal.plain x here
  have point : x = 46 := by
    have values : x.toUInt32.toNat = 46 := congrArg Char.toNat same
    rw [UInt8.toNat_toUInt32] at values
    exact UInt8.toNat_inj.mp values
  subst point
  revert plain
  decide

theorem point_notMem_front (i : Identifier r) : '.' ∉ i.front := by
  refine List.not_mem_cons_of_ne_of_not_mem ?_ (point_notMem_name i.name)
  intro same
  rcases i.sigil_cases with sigil | sigil | sigil
  all_goals
    rw [sigil] at same
    revert same
    decide

theorem toList_toString (i : Identifier r) :
    (toString i).toList = i.front ++ '.' :: Base32.encodeChars i.key.bytes := by
  show (i.sigil.toString ++ toString i.name ++ "." ++ Base32.encode i.key.bytes).toList = _
  simp [front, Base32.encode]

/-- A text whose shortname and key are those of an identifier is its address if it has its sigil. -/
theorem parse_of_parts {c : Char} {key : List Char}
    (parts : text.toList = c :: ((toString i.name).toList ++ '.' :: key))
    (read : Base32.decodeChars key = some i.key.bytes) : parse r text =
      if i.sigil = c then .ok i
      else if c ∈ ['@', '+', '-'] then .error (.sigilMismatch c text)
      else .error (.identifier (.unknownSigil text)) := by
  have plain : ∀ x ∈ (toString i.name).toList, x ≠ '.' :=
    fun x member same => point_notMem_name i.name (same ▸ member)
  have taken : ((toString i.name).toList ++ '.' :: key).takeWhile (· ≠ '.') =
      (toString i.name).toList := by
    rw [List.takeWhile_append_of_pos (by simpa using plain)]
    simp
  have left : ((toString i.name).toList ++ '.' :: key).dropWhile (· ≠ '.') = '.' :: key := by
    rw [List.dropWhile_append_of_pos (by simpa using plain)]
    simp
  have block : Block.ofBytes? i.key.bytes = some i.key := dif_pos i.key.length_bytes
  have made : make r (toString i.name) i.key = .ok i := by
    rw [make, i.name.parse_toString]
    rfl
  unfold parse
  rw [parts]
  dsimp only
  rw [left]
  dsimp only
  rw [read]
  dsimp only
  rw [block]
  dsimp only
  rw [taken, String.ofList_toList, made]

theorem parts_of_parse (parsed : parse r text = .ok i) : ∃ key : List Char,
    text.toList = i.front ++ '.' :: key ∧ Base32.decodeChars key = some i.key.bytes := by
  unfold parse at parsed
  split at parsed
  · cases parsed
  rename_i c rest chars
  split at parsed
  · cases parsed
  rename_i x key left
  split at parsed
  · cases parsed
  rename_i bytes read
  split at parsed
  · cases parsed
  rename_i block whole
  split at parsed
  · cases parsed
  rename_i j made
  split at parsed
  swap
  · split at parsed <;> cases parsed
  rename_i sigil
  cases parsed
  obtain ⟨named, keyed⟩ := name_of_make made
  have name : toString i.name = String.ofList (rest.takeWhile (· ≠ '.')) :=
    Bytes.ofText_inj (i.name.ofText_toString.trans named)
  have point : x = '.' := by
    have ends := List.head?_dropWhile_not (· ≠ '.') rest
    rw [left] at ends
    simpa using ends
  subst point
  have bytes_eq : bytes = i.key.bytes := by
    unfold Block.ofBytes? at whole
    split at whole
    · cases whole
      rw [keyed]
    · cases whole
  refine ⟨key, ?_, read.trans (congrArg some bytes_eq)⟩
  rw [chars, front, sigil, name, String.toList_ofList, List.cons_append, ← left,
    List.takeWhile_append_dropWhile]

/-- An address is a sigil, a shortname and a key that is read from what is behind the point. -/
theorem parse_eq_ok_iff : parse r text = .ok i ↔ ∃ key : List Char,
    text.toList = i.front ++ '.' :: key ∧ Base32.decodeChars key = some i.key.bytes := by
  refine ⟨parts_of_parse, ?_⟩
  rintro ⟨key, parts, read⟩
  rw [parse_of_parts parts read, if_pos rfl]

theorem parse_toString (i : Identifier r) : parse r (toString i) = .ok i :=
  parse_eq_ok_iff.mpr ⟨_, i.toList_toString, Base32.decodeChars_encodeChars i.key.bytes⟩

/-- An address with another character in place of its sigil. -/
def withSigil (c : Char) (address : String) : String := String.ofList (c :: address.toList.tail)

theorem parse_withSigil {c : Char} (other : c ≠ i.sigil) : parse r (withSigil c (toString i)) =
    .error (if c ∈ ['@', '+', '-'] then .sigilMismatch c (withSigil c (toString i))
      else .identifier (.unknownSigil (withSigil c (toString i)))) := by
  have parts : (withSigil c (toString i)).toList =
      c :: ((toString i.name).toList ++ '.' :: Base32.encodeChars i.key.bytes) := by
    rw [withSigil, String.toList_ofList, toList_toString]
    rfl
  rw [parse_of_parts parts (Base32.decodeChars_encodeChars _), if_neg (Ne.symm other)]
  split
  · rfl
  · rfl

theorem head?_of_parse {s : Share} (parsed : parse .share text = .ok s) :
    text.toList.head? = some (if s.isCommunal then '+' else '-') := by
  obtain ⟨key, parts, _⟩ := parse_eq_ok_iff.mp parsed
  rw [parts, ← sigil_share]
  rfl

/-- An address is read as its identifier, and what is read as an identifier begins like its address.
With any other sigil it is refused. -/
theorem address_tells (i : Identifier r) (text : String) :
    parse r (toString i) = .ok i ∧
    ((toString i).toList = i.front ++ '.' :: Base32.encodeChars i.key.bytes ∧ '.' ∉ i.front) ∧
    (parse r text = .ok i → ∃ key, text.toList = i.front ++ '.' :: key) ∧
    (∀ s : Share, parse .share text = .ok s →
      (text.toList.head? = some '+' ↔ s.isCommunal) ∧
      (text.toList.head? = some '-' ↔ s.isCommunal = false)) ∧
    ∀ c ≠ i.sigil, parse r (withSigil c (toString i)) =
      .error (if c ∈ ['@', '+', '-'] then .sigilMismatch c (withSigil c (toString i))
        else .identifier (.unknownSigil (withSigil c (toString i)))) := by
  refine ⟨i.parse_toString, ⟨i.toList_toString, i.point_notMem_front⟩, ?_, ?_, ?_⟩
  · intro parsed
    obtain ⟨key, parts, _⟩ := parse_eq_ok_iff.mp parsed
    exact ⟨key, parts⟩
  · intro s parsed
    rw [head?_of_parse parsed]
    cases s.isCommunal with
    | true => decide
    | false => decide
  · exact fun c other => parse_withSigil other

/-! ### The bits behind the key -/

/-- The address with these bits behind those of the key. -/
def address (i : Identifier r) (spare : List Bool) : String :=
  String.ofList (i.front ++ '.' ::
    (Bits.digits 4 (Bits.ofBytes i.key.bytes ++ spare)).map Base32.digitChar)

theorem length_key_bits (i : Identifier r) (spare : List Bool) :
    (Bits.ofBytes i.key.bytes ++ spare).length = 256 + spare.length := by
  rw [List.length_append, Bits.length_ofBytes, i.key.length_bytes]

theorem spells_address (i : Identifier r) {spare : List Bool} (four : spare.length = 4) :
    Base32.Spells ((Bits.digits 4 (Bits.ofBytes i.key.bytes ++ spare)).map Base32.digitChar)
      (Bits.ofBytes i.key.bytes ++ spare) := by
  apply Base32.spells_digits
  rw [i.length_key_bits, four]
  decide

theorem length_spare {key : List Char} {spare : List Bool}
    (spells : Base32.Spells key (Bits.ofBytes i.key.bytes ++ spare)) (few : spare.length < 8) :
    spare.length = 4 := by
  -- The bits of whole characters are a multiple of five, and the key has 256 of them.
  have whole := spells.length
  rw [i.length_key_bits] at whole
  omega

/-- What is read as an identifier is its address with any four bits behind the key. -/
theorem parse_eq_ok_iff_address :
    parse r text = .ok i ↔ ∃ spare, spare.length = 4 ∧ text = i.address spare := by
  rw [parse_eq_ok_iff]
  constructor
  · rintro ⟨key, parts, read⟩
    obtain ⟨spare, spells, few⟩ := Base32.decodeChars_eq_some_iff.mp read
    have four := length_spare spells few
    refine ⟨spare, four, ?_⟩
    rw [address, ← spells.text_eq (i.spells_address four), ← parts, String.ofList_toList]
  · rintro ⟨spare, four, rfl⟩
    refine ⟨_, String.toList_ofList, ?_⟩
    exact Base32.decodeChars_eq_some_iff.mpr ⟨spare, i.spells_address four, by omega⟩

theorem toString_eq_address (i : Identifier r) :
    toString i = i.address [false, false, false, false] := by
  obtain ⟨spare, spells, few, zeros⟩ := Base32.eq_encodeChars_iff.mp
    (rfl : Base32.encodeChars i.key.bytes = Base32.encodeChars i.key.bytes)
  have four := length_spare spells (by omega)
  have zero : spare = [false, false, false, false] := by
    rw [List.eq_replicate_of_mem zeros, four]
    rfl
  subst zero
  rw [address, ← spells.text_eq (i.spells_address four), ← toList_toString, String.ofList_toList]

theorem address_inj {spare spare' : List Bool} (four : spare.length = 4) (four' : spare'.length = 4)
    (same : i.address spare = i.address spare') : spare = spare' := by
  have keys := List.append_cancel_left (String.ofList_injective same)
  have bits := (i.spells_address four).bits_eq ((List.cons.inj keys).2 ▸ i.spells_address four')
  exact List.append_cancel_left bits

theorem ncard_addresses (i : Identifier r) : { text | parse r text = .ok i }.ncard = 16 := by
  have image : { text | parse r text = .ok i } = i.address '' { spare | spare.length = 4 } := by
    ext text
    rw [Set.mem_ofPred_eq, parse_eq_ok_iff_address, Set.mem_image]
    refine exists_congr fun spare => and_congr_right fun _ => ?_
    exact eq_comm
  have apart : Set.InjOn i.address { spare | spare.length = 4 } :=
    fun _ four _ four' same => address_inj four four' same
  rw [image, apart.ncard_image]
  show Nat.card (List.Vector Bool 4) = 16
  rw [Nat.card_eq_fintype_card, card_vector]
  rfl

/-- Base32 reads whole bytes and ignores fewer than five bits behind them, so it reads each
identifier from sixteen texts. Its address is the one where these bits are zero. -/
theorem address_spellings (b : Bytes) (i : Identifier r) (text : String) :
    Base32.decode (Base32.encode b) = some b ∧
    ((∃ b, Base32.decode text = some b) ↔ ∀ c ∈ text.toList, c ∈ Base32.alphabet) ∧
    (Base32.decode text = some b ↔
      ∃ spare, Base32.Spells text.toList (Bits.ofBytes b ++ spare) ∧ spare.length < 8) ∧
    (text = Base32.encode b ↔
      ∃ spare, Base32.Spells text.toList (Bits.ofBytes b ++ spare) ∧ spare.length < 5 ∧
        ∀ bit ∈ spare, bit = false) ∧
    (parse r text = .ok i ↔ ∃ spare, spare.length = 4 ∧ text = i.address spare) ∧
    toString i = i.address [false, false, false, false] ∧
    { text | parse r text = .ok i }.ncard = 16 := by
  refine ⟨?_, Base32.exists_decodeChars_iff, Base32.decodeChars_eq_some_iff, ?_,
    parse_eq_ok_iff_address, i.toString_eq_address, i.ncard_addresses⟩
  · rw [Base32.decode, Base32.encode, String.toList_ofList]
    exact Base32.decodeChars_encodeChars b
  · rw [← Base32.eq_encodeChars_iff, Base32.encode, ← String.toList_inj, String.toList_ofList]

/-- An identity with the least key. -/
def suzy : Identity := ⟨⟨[115, 117, 122, 121], by decide⟩, .zero 32⟩

/-- A text that is not how any bytes are written is read, and a text that is not its address is read as an
identity. -/
theorem suzy_spelled_twice :
    (Base32.decode "ab" = some [0] ∧ Base32.encode [0] = "aa" ∧ Base32.decode "aa" = some [0]) ∧
    toString suzy = "@suzy.aaaaaaaaaaaaaaaaaaaaaaaaaaaaaaaaaaaaaaaaaaaaaaaaaaaa" ∧
    parse .identity "@suzy.aaaaaaaaaaaaaaaaaaaaaaaaaaaaaaaaaaaaaaaaaaaaaaaaaaab" = .ok suzy := by
  refine ⟨⟨?_, ?_, ?_⟩, ?_, parse_eq_ok_iff.mpr ⟨List.replicate 51 'a' ++ ['b'], ?_, ?_⟩⟩
  all_goals decide +kernel

end DocumentShare.Identifier
