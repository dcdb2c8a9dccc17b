import DocumentShare.Naming.Identifier
import DocumentShare.Naming.Path
import DocumentShare.Proofs.Bytes.Reading
import DocumentShare.Proofs.Bytes.Text

/-!
# Encodings of identifiers and paths

Both are read back from in front of anything (`Identifier.reads_decode`, `Path.reads_decodeOrdered`).
The ordered components of a path begin exactly the encodings of the paths that continue it
(`Path.orderedComponents_append_iff`).
-/

namespace DocumentShare

open Decoder

/-! ### Identifiers -/

namespace Shortname

theorem ascii {r : Role} (n : Shortname r) : ∀ x ∈ n.bytes, 0 < x.toNat ∧ x.toNat < 128 := by
  intro x member
  have plain := n.legal.plain x member
  simp only [isLetter, isDigit, Bool.or_eq_true, Bool.and_eq_true, decide_eq_true_eq,
    UInt8.le_iff_toNat_le] at plain
  simp only [UInt8.reduceToNat] at plain
  omega

theorem zero_notMem {r : Role} (n : Shortname r) : (0 : UInt8) ∉ n.bytes := by
  intro member
  have positive := (n.ascii 0 member).1
  simp at positive

theorem parse_of_bytes {r : Role} (n : Shortname r) {text : String}
    (same : Bytes.ofText text = n.bytes) : parse r text = .ok n := by
  have legal : Legal r (Bytes.ofText text) := same ▸ n.legal
  unfold parse
  rw [dif_pos legal]
  congr 1
  obtain ⟨bytes, _⟩ := n
  cases same
  rfl

/-- The characters of a shortname are its bytes. -/
theorem ofText_toString {r : Role} (n : Shortname r) : Bytes.ofText (toString n) = n.bytes :=
  Bytes.ofText_of_ascii fun x member => (n.ascii x member).2

/-- A shortname passes its own rules. -/
theorem parse_toString {r : Role} (n : Shortname r) : parse r (toString n) = .ok n :=
  n.parse_of_bytes n.ofText_toString

end Shortname

theorem List.idxOf?_append_zero {b rest : Bytes} (absent : (0 : UInt8) ∉ b) :
    (b ++ 0 :: rest).idxOf? 0 = some b.length := by
  induction b with
  | nil => rfl
  | cons x b ih =>
    simp only [List.mem_cons, not_or] at absent
    have other : (x == 0) = false := beq_false_of_ne (Ne.symm absent.1)
    simp [List.idxOf?_cons, other, ih absent.2]

namespace Identifier

variable {r : Role}

theorem reads_decodeParts (i : Identifier r) (ending : Bytes) :
    (decodeParts r i.name.bytes.length ending.length).Reads i
      (i.name.bytes ++ ending ++ i.key.bytes) True := by
  have spelled : Bytes.toText? i.name.bytes = some (toString i.name) :=
    Bytes.toText?_eq_some_iff.mpr i.name.ofText_toString
  have made : make r (toString i.name) i.key = .ok i := by
    rw [make, i.name.parse_toString]
    rfl
  have read : (decodeParts r i.name.bytes.length ending.length).Reads i
      (i.name.bytes ++ (ending ++ (i.key.bytes ++ []))) (True ∧ True ∧ True ∧ True) := by
    unfold decodeParts
    refine (Reads.take _).bind ((Reads.take _).bind ?_)
    rw [spelled]
    refine (Reads.block i.key).bind ?_
    rw [made]
    exact .pure i
  exact read.congr (by simp) (by simp)

theorem reads_decode (i : Identifier r) : (decode r).Reads i i.encode True := by
  intro rest offset
  rcases Nat.lt_or_ge i.name.bytes.length r.greatestLength with short | long
  · -- The zero byte lies within the window and after the shortname.
    have window : ((i.encode ++ rest).take r.greatestLength).idxOf? 0 = some i.name.bytes.length := by
      obtain ⟨n, hn⟩ := Nat.exists_eq_add_of_lt short
      simp only [encode, short, if_true, List.append_assoc, List.singleton_append]
      rw [List.take_append, List.take_of_length_le (Nat.le_of_lt short), hn,
        show i.name.bytes.length + n + 1 - i.name.bytes.length = n + 1 by omega, List.cons_append,
        List.take_succ_cons]
      exact List.idxOf?_append_zero i.name.zero_notMem
    have read := reads_decodeParts i [0] rest offset
    simp only [decode, window]
    simpa [encode, short] using read
  · have full : i.name.bytes.length = r.greatestLength :=
      Nat.le_antisymm i.name.legal.greatest long
    have window : ((i.encode ++ rest).take r.greatestLength).idxOf? 0 = none := by
      simp only [encode, full, Nat.lt_irrefl, if_false, List.append_assoc, List.nil_append]
      rw [← full, List.take_left, List.idxOf?_eq_none_iff]
      exact i.name.zero_notMem
    have read := reads_decodeParts i [] rest offset
    rw [full] at read
    simp only [decode, window]
    simpa [encode, full] using read

theorem encode_append_inj {i j : Identifier r} {s t : Bytes} (same : i.encode ++ s = j.encode ++ t) :
    i = j ∧ s = t :=
  (reads_decode i).unique (reads_decode j) trivial trivial same

end Identifier

/-! ### Paths -/

namespace Path

theorem ofComponents_components (p : Path) : ofComponents p.components = .ok p := by
  unfold ofComponents
  rw [dif_pos p.fits]

theorem components_of_ofComponents {components : List Bytes} {p : Path}
    (made : ofComponents components = .ok p) : p.components = components := by
  unfold ofComponents at made
  split at made
  · cases made
    rfl
  · cases made

theorem escape_cons (x : UInt8) (c : Bytes) :
    escape (x :: c) = (if x = 0 then [0, 0xff] else [x]) ++ escape c := by
  simp [escape]

section Reading

variable (rest : Bytes) (offset : Nat) (done : List Bytes) (current : Bytes)

theorem readOrdered_plain {x : UInt8} (plain : x ≠ 0) :
    readOrdered (x :: rest) offset done current
      = readOrdered rest (offset + 1) done (x :: current) := by
  rw [readOrdered.eq_def]
  simp [plain]

theorem readOrdered_zero :
    readOrdered (0 :: 0xff :: rest) offset done current
      = readOrdered rest (offset + 2) done (0 :: current) := by
  simp [readOrdered]

theorem readOrdered_next :
    readOrdered (0 :: 1 :: rest) offset done current
      = readOrdered rest (offset + 2) (current.reverse :: done) [] := by
  simp [readOrdered]

theorem readOrdered_end :
    readOrdered (0 :: 0 :: rest) offset done [] = .ok (done.reverse, ⟨rest, offset + 2⟩) := by
  simp [readOrdered]

end Reading

theorem readOrdered_escape (c rest : Bytes) (offset : Nat) (done : List Bytes) (current : Bytes) :
    readOrdered (escape c ++ rest) offset done current
      = readOrdered rest (offset + (escape c).length) done (c.reverse ++ current) := by
  induction c generalizing offset current with
  | nil => rfl
  | cons x c ih =>
    have turned : (x :: c).reverse ++ current = c.reverse ++ x :: current := by simp
    rw [escape_cons, turned]
    by_cases zero : x = 0
    · subst zero
      rw [if_pos rfl]
      show readOrdered (0 :: 0xff :: (escape c ++ rest)) offset done current = _
      rw [readOrdered_zero, ih, List.length_append, List.length_cons, List.length_singleton,
        Nat.add_assoc]
    · rw [if_neg zero]
      show readOrdered (x :: (escape c ++ rest)) offset done current = _
      rw [readOrdered_plain _ _ _ _ zero, ih, List.length_append, List.length_singleton,
        Nat.add_assoc]

/-- The components as they stand in an ordered encoding. -/
abbrev written (components : List Bytes) : Bytes := components.flatMap (fun c => escape c ++ [0, 1])

theorem written_cons_append (c : Bytes) (components : List Bytes) (rest : Bytes) :
    written (c :: components) ++ rest = escape c ++ 0 :: 1 :: (written components ++ rest) := by
  simp [written]

theorem readOrdered_components (components : List Bytes) (rest : Bytes) (offset : Nat)
    (done : List Bytes) :
    readOrdered (written components ++ 0 :: 0 :: rest) offset done []
      = .ok (done.reverse ++ components, ⟨rest, offset + (written components).length + 2⟩) := by
  induction components generalizing offset done with
  | nil => simpa using readOrdered_end rest offset done
  | cons c components ih =>
    have length : (written (c :: components)).length
        = (escape c).length + 2 + (written components).length := by
      simp only [written, List.flatMap_cons, List.length_append, List.length_cons, List.length_nil]
    have turned : (c :: done).reverse ++ components = done.reverse ++ c :: components := by simp
    rw [written_cons_append, readOrdered_escape, readOrdered_next, List.append_nil,
      List.reverse_reverse, ih, turned, length]
    simp only [Nat.add_assoc]

theorem reads_decodeOrdered (p : Path) : decodeOrdered.Reads p p.ordered True := by
  intro rest offset
  refine ⟨fun _ => ?_, fun unfit => absurd trivial unfit⟩
  have bytes : p.ordered ++ rest = written p.components ++ 0 :: 0 :: rest := by
    simp [ordered, orderedComponents]
  have length : p.ordered.length = (written p.components).length + 2 := by
    simp only [ordered, orderedComponents, List.length_append, List.length_cons, List.length_nil]
  have read := readOrdered_components p.components rest offset []
  rw [bytes, length, ← Nat.add_assoc]
  unfold decodeOrdered
  simp only [read, bind, Except.bind, List.reverse_nil, List.nil_append, ofComponents_components]
  rfl

theorem ordered_append_inj {p q : Path} {s t : Bytes} (same : p.ordered ++ s = q.ordered ++ t) :
    p = q ∧ s = t :=
  (reads_decodeOrdered p).unique (reads_decodeOrdered q) trivial trivial same

/-- No escape begins with the bytes that follow a component, so of two components in front of such
bytes neither runs on into what follows the other. -/
theorem escape_append_inj {c c' : Bytes} {x x' : UInt8} {s s' : Bytes} (ends : x ≠ 0xff)
    (ends' : x' ≠ 0xff) (same : escape c ++ 0 :: x :: s = escape c' ++ 0 :: x' :: s') :
    c = c' ∧ x = x' ∧ s = s' := by
  induction c generalizing c' with
  | nil =>
    cases c' with
    | nil => simpa [escape] using same
    | cons y c' =>
      rw [escape_cons] at same
      by_cases zero : y = 0
      · simp [escape, zero, ends] at same
      · simp [escape, zero, Ne.symm zero] at same
  | cons y c ih =>
    rw [escape_cons] at same
    cases c' with
    | nil =>
      by_cases zero : y = 0
      · simp [escape, zero, Ne.symm ends'] at same
      · simp [escape, zero] at same
    | cons y' c' =>
      rw [escape_cons] at same
      by_cases zero : y = 0 <;> by_cases zero' : y' = 0
      · simp only [zero, zero', if_true, List.cons_append, List.nil_append, List.cons.injEq,
          true_and] at same
        obtain ⟨rfl, rest⟩ := ih same
        exact ⟨by rw [zero, zero'], rest⟩
      · simp [zero, zero', Ne.symm zero'] at same
      · simp [zero, zero'] at same
      · simp only [zero, zero', if_false, List.cons_append, List.nil_append, List.cons.injEq] at same
        obtain ⟨rfl, rest⟩ := ih same.2
        exact ⟨by rw [same.1], rest⟩

theorem prefix_of_written {p q : List Bytes} {s t : Bytes}
    (same : written p ++ s = written q ++ 0 :: 0 :: t) : p <+: q := by
  induction p generalizing q with
  | nil => exact List.nil_prefix
  | cons c p ih =>
    rw [written_cons_append] at same
    cases q with
    | nil =>
      have empty : escape c ++ 0 :: 1 :: (written p ++ s) = escape [] ++ 0 :: 0 :: t := same
      have impossible := (escape_append_inj (by decide) (by decide) empty).2.1
      simp at impossible
    | cons c' q =>
      rw [written_cons_append] at same
      obtain ⟨rfl, -, rest⟩ := escape_append_inj (by decide) (by decide) same
      exact List.cons_prefix_cons.mpr ⟨rfl, ih rest⟩

/-- The components of a path begin what is written, whatever is behind it, exactly if the path begins the
one that is written. -/
theorem orderedComponents_prefix_iff {p q : Path} (rest : Bytes) :
    p.orderedComponents <+: q.ordered ++ rest ↔ p.isPrefixOf q := by
  rw [isPrefixOf_iff]
  constructor
  · rintro ⟨s, same⟩
    refine prefix_of_written (s := s) (t := rest) ?_
    simpa [ordered, orderedComponents] using same
  · rintro ⟨later, same⟩
    refine ⟨written later ++ ([0, 0] ++ rest), ?_⟩
    simp [ordered, orderedComponents, ← same]

theorem orderedComponents_append_iff {p q : Path} :
    (∃ s, p.orderedComponents ++ s = q.ordered) ↔ p.isPrefixOf q := by
  have whole := orderedComponents_prefix_iff (p := p) (q := q) []
  rwa [List.append_nil] at whole

end Path

end DocumentShare
