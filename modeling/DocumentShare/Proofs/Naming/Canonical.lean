import DocumentShare.Proofs.Bytes.Canonical
import DocumentShare.Proofs.Naming.Ordering

/-!
# One encoding for one name

An identifier is read from the bytes that write it and from no others: within the window of the longest
shortname, the zero byte is where the shortname ends. What the reader of ordered encodings holds of a
path, written again in front of what it has not read, is always the input
(`Path.written_of_readOrdered`). `Identifier.encode_exact` and `Path.ordered_exact` set this beside the
order of the encodings.
-/

namespace DocumentShare

open Decoder

/-! ### Identifiers -/

namespace Identifier

variable {r : Role}

theorem name_of_make {text : String} {key : PublicKey} {i : Identifier r}
    (made : make r text key = .ok i) : i.name.bytes = Bytes.ofText text ∧ i.key = key := by
  unfold make Shortname.parse at made
  split at made
  · cases made
    exact ⟨rfl, rfl⟩
  · cases made

theorem consumes_decodeParts (length terminator : Nat) :
    (decodeParts r length terminator).Consumes fun b i =>
      ∃ ending, b = i.name.bytes ++ ending ++ i.key.bytes ∧ i.name.bytes.length = length ∧
        ending.length = terminator := by
  refine (Consumes.take length).bind fun raw b ⟨same, short⟩ => ?_
  refine (Consumes.take terminator).bind fun ending b' ⟨same', ends⟩ => ?_
  split
  · exact .reject _
  · next text spelled =>
    refine (Consumes.block 32).field fun key => ?_
    split
    · next i made =>
      obtain ⟨name, rfl⟩ := name_of_make made
      rw [Bytes.toText?_eq_some_iff.mp spelled] at name
      refine .pure ⟨ending, ?_, ?_, ends⟩
      · simp [same, same', name]
      · rw [name, short]
    · exact .reject _

theorem consumes_decode : (decode r).Consumes fun b i => b = i.encode := by
  intro reader i after read
  unfold decode at read
  split at read
  · next length window =>
    obtain ⟨b, front, ending, rfl, named, ends⟩ := consumes_decodeParts length 1 _ _ _ read
    -- The zero byte lies within the window, so the shortname is shorter than the longest.
    obtain ⟨within, zero, -⟩ := List.idxOf?_eq_some_iff.mp window
    obtain ⟨x, rfl⟩ := List.length_eq_one_iff.mp ends
    have shorter : length < r.greatestLength := by
      rw [List.length_take] at within
      omega
    have ended : x = 0 := by
      simpa [front, ← named] using zero
    refine ⟨i.encode, ?_, rfl⟩
    rw [front, encode, named, if_pos shorter, ended]
  · next window =>
    obtain ⟨b, front, ending, rfl, named, ends⟩ := consumes_decodeParts _ 0 _ _ _ read
    rw [List.length_eq_zero_iff.mp ends] at front
    refine ⟨i.encode, ?_, rfl⟩
    rw [front, encode, named, if_neg (Nat.lt_irrefl _)]

theorem exact_decode : (decode r).Exact encode := .of_reads reads_decode consumes_decode

/-- What an identifier is written as, said of the bytes alone: a legal shortname, a zero byte behind it
if it does not fill its place, and a key. -/
def WellSpelled (r : Role) (b : Bytes) : Prop :=
  ∃ name key : Bytes, Shortname.Legal r name ∧ key.length = 32 ∧
    b = name ++ name.padding r.greatestLength ++ key

theorem wellSpelled_iff {b : Bytes} : WellSpelled r b ↔ ∃ i : Identifier r, i.encode = b := by
  constructor
  · rintro ⟨name, key, legal, length, rfl⟩
    exact ⟨⟨⟨name, legal⟩, ⟨key, length⟩⟩, rfl⟩
  · rintro ⟨i, rfl⟩
    exact ⟨i.name.bytes, i.key.bytes, i.name.legal, i.key.length_bytes, rfl⟩

/-- Encodings of identifiers compare as these do, none begins another, and an identifier is read
only from its own. -/
theorem encode_exact (i j : Identifier r) (rest b : Bytes) :
    compare i.encode j.encode = compare i j ∧
    (i.encode <+: j.encode ↔ i = j) ∧
    (decode r).runFront (i.encode ++ rest) = .ok (i, i.encode.length) ∧
    ((decode r).runAll b = .ok i ↔ i.encode = b) ∧
    ((∃ k, (decode r).runAll b = .ok k) ↔ WellSpelled r b) ∧
    Shortname.parse r (toString i.name) = .ok i.name := by
  refine ⟨keepsOrder_encode.compare i j, exact_decode.prefix_iff, exact_decode.runFront i rest,
    exact_decode.runAll_iff, ?_, i.name.parse_toString⟩
  simp only [exact_decode.runAll_iff]
  exact wellSpelled_iff.symm

end Identifier

/-! ### Paths -/

namespace Path

theorem escape_concat (c : Bytes) (x : UInt8) :
    escape (c ++ [x]) = escape c ++ if x = 0 then [0, 0xff] else [x] := by
  simp [escape]

theorem written_concat (components : List Bytes) (c : Bytes) :
    written (components ++ [c]) = written components ++ (escape c ++ [0, 1]) := by
  simp [written]

/-- The components that are done, the current one and the bytes that are left make up the input at every
step, up to the end of the path. -/
theorem written_of_readOrdered {rest : Bytes} {offset : Nat} {done components : List Bytes}
    {current : Bytes} {after : Reader}
    (read : readOrdered rest offset done current = .ok (components, after)) :
    written done.reverse ++ (escape current.reverse ++ rest)
        = written components ++ ([0, 0] ++ after.rest) ∧
      after.offset + after.rest.length = offset + rest.length := by
  fun_induction readOrdered rest offset done current with
  | case1 => cases read
  | case2 offset done current b rest plain ih =>
    obtain ⟨bytes, length⟩ := ih read
    rw [List.reverse_cons, escape_concat, if_neg plain, List.append_assoc] at bytes
    refine ⟨bytes, ?_⟩
    rw [length, List.length_cons]
    omega
  | case3 => cases read
  | case4 b offset done current zero rest ih =>
    obtain rfl := Decidable.not_not.mp zero
    obtain ⟨bytes, length⟩ := ih read
    rw [List.reverse_cons, escape_concat, if_pos rfl, List.append_assoc] at bytes
    refine ⟨bytes, ?_⟩
    rw [length, List.length_cons, List.length_cons]
    omega
  | case5 b offset done current zero rest _ ih =>
    obtain rfl := Decidable.not_not.mp zero
    obtain ⟨bytes, length⟩ := ih read
    rw [List.reverse_cons, written_concat, List.append_assoc, List.append_assoc] at bytes
    refine ⟨bytes, ?_⟩
    rw [length, List.length_cons, List.length_cons]
    omega
  | case6 b offset done current zero e rest _ _ ended =>
    obtain rfl := Decidable.not_not.mp zero
    obtain ⟨rfl, rfl⟩ := ended
    cases read
    refine ⟨rfl, ?_⟩
    simp only [List.length_cons]
    omega
  | case7 => cases read

theorem bytes_of_decodeOrdered {r after : Reader} {p : Path}
    (read : decodeOrdered r = .ok (p, after)) :
    r.rest = p.ordered ++ after.rest ∧ after.offset = r.offset + p.ordered.length := by
  unfold decodeOrdered at read
  obtain ⟨⟨components, left⟩, ran, read⟩ := Except.bind_eq_ok.mp read
  obtain ⟨q, made, read⟩ := Except.bind_eq_ok.mp read
  cases read
  obtain ⟨bytes, length⟩ := written_of_readOrdered ran
  have whole : r.rest = p.ordered ++ after.rest := by
    rw [ordered, orderedComponents, components_of_ofComponents made, List.append_assoc]
    exact bytes
  refine ⟨whole, ?_⟩
  rw [whole, List.length_append] at length
  omega

theorem consumes_decodeOrdered : decodeOrdered.Consumes fun b p => b = p.ordered := by
  intro r p after read
  obtain ⟨front, -⟩ := bytes_of_decodeOrdered read
  exact ⟨p.ordered, front, rfl⟩

/-- Ordered encodings compare as paths do, none begins another, and a path is read only from its
own. -/
theorem ordered_exact (p q : Path) (r after : Reader) :
    compare p.ordered q.ordered = compare p q ∧
    (p.ordered <+: q.ordered ↔ p = q) ∧
    (decodeOrdered r = .ok (p, after) ↔
      r.rest = p.ordered ++ after.rest ∧ after.offset = r.offset + p.ordered.length) := by
  refine ⟨keepsOrder_ordered.compare p q, ⟨?_, ?_⟩, bytes_of_decodeOrdered, ?_⟩
  · rintro ⟨rest, same⟩
    have ended : p.ordered ++ rest = q.ordered ++ [] := by rw [same, List.append_nil]
    exact (ordered_append_inj ended).1
  · rintro rfl
    exact List.prefix_rfl
  · rintro ⟨bytes, offset⟩
    have read := (reads_decodeOrdered p after.rest r.offset).1 trivial
    rwa [← bytes, ← offset] at read

end Path

end DocumentShare
