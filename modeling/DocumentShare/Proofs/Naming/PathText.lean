import DocumentShare.Naming.Path
import DocumentShare.Proofs.Naming.Descent

/-!
# Paths as text

Splitting a text at its slashes undoes writing a slash in front of each component, so a path of readable
components is read back from its text. The only exception is the path of one empty component, which is
written like the empty path (`Path.plain_exact`).
-/

namespace DocumentShare.Path

variable {p q : Path} {text : String}

/-! ### Pieces between slashes -/

/-- Texts with a slash in front of each. -/
abbrev slashed (texts : List (List Char)) : List Char := texts.flatMap ('/' :: ·)

theorem pieces_ne_nil (cs : List Char) : pieces cs ≠ [] := by
  cases cs with
  | nil => simp [pieces]
  | cons c rest =>
    unfold pieces
    split
    · simp
    · split <;> simp

theorem slashed_pieces (cs : List Char) : slashed (pieces cs) = '/' :: cs := by
  induction cs with
  | nil => rfl
  | cons c rest ih =>
    unfold pieces
    split
    · next slash => simp [slash, ih]
    · split
      · next none => exact absurd none (pieces_ne_nil rest)
      · next piece others found =>
        rw [found] at ih
        simpa using ih

theorem pieces_append {piece : List Char} (whole : '/' ∉ piece) (rest : List Char) :
    pieces (piece ++ '/' :: rest) = piece :: pieces rest := by
  induction piece with
  | nil => simp [pieces]
  | cons c piece ih =>
    obtain ⟨other, whole⟩ := List.ne_and_not_mem_of_not_mem_cons whole
    rw [List.cons_append, pieces, if_neg (Ne.symm other), ih whole]

theorem pieces_of_whole {piece : List Char} (whole : '/' ∉ piece) : pieces piece = [piece] := by
  induction piece with
  | nil => rfl
  | cons c piece ih =>
    obtain ⟨other, whole⟩ := List.ne_and_not_mem_of_not_mem_cons whole
    rw [pieces, if_neg (Ne.symm other), ih whole]

theorem pieces_slashed {piece : List Char} {others : List (List Char)}
    (whole : ∀ text ∈ piece :: others, '/' ∉ text) :
    pieces (piece ++ slashed others) = piece :: others := by
  induction others generalizing piece with
  | nil => simpa using pieces_of_whole (whole piece List.mem_cons_self)
  | cons next others ih =>
    obtain ⟨here, later⟩ := List.forall_mem_cons.mp whole
    rw [slashed, List.flatMap_cons, List.cons_append, pieces_append here]
    exact congrArg (piece :: ·) (ih later)

/-! ### Readable components -/

/-- Every byte is a readable character. -/
def Readable (p : Path) : Prop := ∀ c ∈ p.components, ∀ x ∈ c, isPlainChar (Char.ofUInt8 x)

/-- The components as characters. -/
def texts (p : Path) : List (List Char) := p.components.map (List.map Char.ofUInt8)

theorem small_of_isPlainChar {c : Char} (plain : isPlainChar c) : c.toNat < 256 := by
  have below {n : UInt32} (least : c.val ≤ n) (small : n.toNat < 256) : c.toNat < 256 :=
    Nat.lt_of_le_of_lt (UInt32.le_iff_toNat_le.mp least) small
  rw [isPlainChar, Bool.or_eq_true, Bool.or_eq_true, Bool.or_eq_true] at plain
  rcases plain with ((word | same) | same) | same
  · have kinds : (c.isUpper || c.isLower) || c.isDigit := word
    rw [Bool.or_eq_true, Bool.or_eq_true] at kinds
    rcases kinds with (upper | lower) | figure
    · exact below (of_decide_eq_true upper).2 (by decide)
    · exact below (of_decide_eq_true (Bool.and_eq_true_iff.mp lower).2) (by decide)
    · exact below (of_decide_eq_true (Bool.and_eq_true_iff.mp figure).2) (by decide)
  all_goals
    rw [of_decide_eq_true same]
    decide

theorem ne_slash_of_isPlainChar {c : Char} (plain : isPlainChar c) : '/' ≠ c := by
  rintro rfl
  revert plain
  decide

theorem ofUInt8_toUInt8 {c : Char} (small : c.toNat < 256) : Char.ofUInt8 c.toUInt8 = c := by
  apply Char.ext
  apply UInt32.toNat_inj.mp
  show c.val.toUInt8.toUInt32.toNat = c.val.toNat
  rw [UInt8.toNat_toUInt32, UInt32.toNat_toUInt8]
  exact Nat.mod_eq_of_lt small

theorem toUInt8_ofUInt8 (x : UInt8) : (Char.ofUInt8 x).toUInt8 = x := by
  show x.toUInt32.toUInt8 = x
  simp

theorem readable_iff : p.Readable ↔ ∀ text ∈ p.texts, ∀ c ∈ text, isPlainChar c := by
  simp only [Readable, texts, List.mem_map, forall_exists_index, and_imp,
    forall_apply_eq_imp_iff₂]

theorem components_eq (p : Path) : p.components = p.texts.map (List.map Char.toUInt8) := by
  simp [texts, Function.comp_def, toUInt8_ofUInt8]

theorem plain?_eq_some_iff : p.plain? = some text ↔
    p.Readable ∧ text = if p.components = [] then "/" else String.ofList (slashed p.texts) := by
  have checked : (p.texts.all fun text => text.all isPlainChar) ↔ p.Readable := by
    simp only [readable_iff, List.all_eq_true]
  have empty : p.texts.isEmpty ↔ p.components = [] := by
    rw [List.isEmpty_iff, texts, List.map_eq_nil_iff]
  show (if p.texts.all fun text => text.all isPlainChar then
    some (if p.texts.isEmpty then "/" else String.ofList (slashed p.texts)) else none) = _ ↔ _
  by_cases readable : p.Readable
  · rw [if_pos (checked.mpr readable), Option.some.injEq, eq_comm]
    simp only [readable, empty, true_and]
  · rw [if_neg (fun all => readable (checked.mp all))]
    simp [readable]

theorem ofTexts_eq_ok_iff {texts : List (List Char)} :
    ofTexts (texts.map String.ofList) = .ok p ↔
      (∀ text ∈ texts, ∀ c ∈ text, isPlainChar c) ∧
        p.components = texts.map (List.map Char.toUInt8) := by
  have checked : (texts.map String.ofList).findSome?
      (fun text => (oddChar? text).map (PathFault.character text)) = none ↔
      ∀ text ∈ texts, ∀ c ∈ text, isPlainChar c := by
    simp [List.findSome?_eq_none_iff, oddChar?]
  unfold ofTexts
  split
  · next fault found =>
    rw [found] at checked
    constructor
    · intro refused
      cases refused
    · intro ⟨plain, _⟩
      cases checked.mpr plain
  · next none =>
    rw [ofComponents_eq_ok_iff, List.map_map, and_iff_right (checked.mp none)]
    simp [Function.comp_def]

/-! ### Reading and writing -/

theorem texts_eq {texts : List (List Char)} (plain : ∀ text ∈ texts, ∀ c ∈ text, isPlainChar c)
    (same : p.components = texts.map (List.map Char.toUInt8)) : p.texts = texts := by
  have back (text : List Char) (member : text ∈ texts) :
      (text.map Char.toUInt8).map Char.ofUInt8 = text := by
    rw [List.map_map, List.map_congr_left, List.map_id]
    exact fun c here => ofUInt8_toUInt8 (small_of_isPlainChar (plain text member c here))
  rw [Path.texts, same, List.map_map]
  exact (List.map_congr_left back).trans (List.map_id' texts)

theorem parse_slash {rest : List Char} (more : rest ≠ []) :
    parse (String.ofList ('/' :: rest)) = ofTexts ((pieces rest).map String.ofList) := by
  unfold parse
  rw [String.toList_ofList]
  cases rest with
  | nil => exact absurd rfl more
  | cons c rest => rfl

/-- The path of one empty component. -/
def emptyComponent : Path := ⟨[[]], by decide⟩

theorem parse_root : parse "/" = .ok empty := rfl

theorem plain?_of_parse (parsed : parse text = .ok p) : p.plain? = some text ∧ p ≠ emptyComponent := by
  unfold parse at parsed
  split at parsed
  · next chars =>
    cases parsed
    refine ⟨?_, by decide⟩
    rw [← String.ofList_toList (s := text), chars]
    rfl
  · next rest more chars =>
    obtain ⟨plain, components⟩ := ofTexts_eq_ok_iff.mp parsed
    have texts := texts_eq plain components
    have some : p.components ≠ [] := by
      rw [components]
      simpa using pieces_ne_nil rest
    constructor
    · rw [plain?_eq_some_iff, readable_iff, texts, if_neg some, slashed_pieces, ← chars,
        String.ofList_toList]
      exact ⟨plain, rfl⟩
    · rintro rfl
      have whole := slashed_pieces rest
      rw [← texts] at whole
      exact more (List.cons.inj whole).2.symm
  · cases parsed

theorem parse_of_plain? (written : p.plain? = some text) (other : p ≠ emptyComponent) :
    parse text = .ok p := by
  obtain ⟨readable, rfl⟩ := plain?_eq_some_iff.mp written
  split
  · next none =>
    rw [parse_root]
    exact congrArg Except.ok (Path.ext none.symm)
  · next some =>
    rw [readable_iff] at readable
    have components := p.components_eq
    cases texts : p.texts with
    | nil =>
      rw [texts] at components
      exact absurd components some
    | cons piece others =>
      rw [texts] at components readable
      have whole : ∀ text ∈ piece :: others, '/' ∉ text :=
        fun text member slash => ne_slash_of_isPlainChar (readable text member _ slash) rfl
      -- Nothing is behind the first slash only if one component is there and it is empty.
      have more : piece ++ slashed others ≠ [] := by
        intro none
        obtain ⟨rfl, none⟩ := List.append_eq_nil_iff.mp none
        cases others with
        | nil => exact other (Path.ext components)
        | cons next others => cases none
      show parse (String.ofList ('/' :: (piece ++ slashed others))) = _
      rw [parse_slash more, pieces_slashed whole]
      exact ofTexts_eq_ok_iff.mpr ⟨readable, components⟩

theorem parse_of_plain?_ite (written : p.plain? = some text) :
    parse text = .ok (if p = emptyComponent then empty else p) := by
  split
  · next same =>
    subst same
    cases written
    exact parse_root
  · next other => exact parse_of_plain? written other

/-- The text of a path is read back, but for the path of one empty component, which is written like
the empty path. -/
theorem plain_exact (p q : Path) (text : String) :
    (parse text = .ok p ↔ p.plain? = some text ∧ p ≠ emptyComponent) ∧
    (p.plain? = some text → parse text = .ok (if p = emptyComponent then empty else p)) ∧
    (p.plain? = some text → q.plain? = some text →
      p = q ∨ p = empty ∧ q = emptyComponent ∨ p = emptyComponent ∧ q = empty) ∧
    ((∃ text, p.plain? = some text) ↔ p.Readable) := by
  refine ⟨⟨plain?_of_parse, fun h => parse_of_plain? h.1 h.2⟩, parse_of_plain?_ite, ?_, ?_⟩
  · intro written written'
    have read := parse_of_plain?_ite written
    rw [parse_of_plain?_ite written'] at read
    have same := Except.ok.inj read
    by_cases first : p = emptyComponent <;> by_cases second : q = emptyComponent
    · exact .inl (first.trans second.symm)
    · rw [if_pos first, if_neg second] at same
      exact .inr (.inr ⟨first, same⟩)
    · rw [if_neg first, if_pos second] at same
      exact .inr (.inl ⟨same.symm, second⟩)
    · rw [if_neg first, if_neg second] at same
      exact .inl same.symm
  · simp [plain?_eq_some_iff]

/-- The path of one empty component is not what its text is read as. -/
theorem emptyComponent_not_read_back :
    emptyComponent.plain? = some "/" ∧ empty.plain? = some "/" ∧ parse "/" = .ok empty ∧ emptyComponent ≠ empty :=
  ⟨rfl, rfl, rfl, by decide⟩

end DocumentShare.Path
