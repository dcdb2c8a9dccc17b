import DocumentShare.Bytes.Reader
import Mathlib.Algebra.Ring.Nat

/-!
# What decoders read

`Decoder.Reads` says of a decoder, a value and the bytes that write it what happens in front of
anything that may follow. It is composed along `bind` and `replicate`, so the statement for a format
follows the definition of its decoder.
-/

namespace DocumentShare

theorem Except.bind_eq_ok {ε α β : Type} {x : Except ε α} {f : α → Except ε β} {b : β} :
    x >>= f = .ok b ↔ ∃ a, x = .ok a ∧ f a = .ok b := by
  cases x <;> simp [bind, Except.bind]

namespace Bytes

theorem ofNat_succ (width n : Nat) :
    ofNat (width + 1) n = (n / 256 ^ width).toUInt8 :: ofNat width n := by
  rw [ofNat, Nat.shiftRight_eq_div_pow, Nat.pow_mul]

theorem foldl_ofNat (width n acc : Nat) :
    (ofNat width n).foldl (fun n byte => n * 256 + byte.toNat) acc
      = acc * 256 ^ width + n % 256 ^ width := by
  induction width generalizing acc with
  | zero => simp [ofNat, Nat.mod_one]
  | succ width ih =>
    rw [ofNat_succ, List.foldl_cons, ih, Nat.mod_pow_succ, Nat.pow_succ]
    simp only [Nat.toUInt8, UInt8.toNat_ofNat', Nat.reducePow]
    rw [Nat.add_mul, Nat.mul_assoc, Nat.mul_comm 256 (256 ^ width),
      Nat.mul_comm (n / 256 ^ width % 256)]
    omega

/-- Reading undoes writing, up to the bytes that the width cuts off. -/
theorem toNat_ofNat (width n : Nat) : toNat (ofNat width n) = n % 256 ^ width := by
  simp [toNat, foldl_ofNat]

theorem toNat_ofNat_of_lt {width n : Nat} (bound : n < 256 ^ width) : toNat (ofNat width n) = n := by
  rw [toNat_ofNat, Nat.mod_eq_of_lt bound]

end Bytes

namespace Decoder

variable {α β : Type}

/-- In front of anything, `b` is read as `a` if `fits` and refused if not. -/
def Reads (d : Decoder α) (a : α) (b : Bytes) (fits : Prop) : Prop :=
  ∀ rest offset,
    (fits → d ⟨b ++ rest, offset⟩ = .ok (a, ⟨rest, offset + b.length⟩)) ∧
    (¬fits → ∃ e, d ⟨b ++ rest, offset⟩ = .error e)

theorem bind_ok {d : Decoder α} {f : α → Decoder β} {r r' : Reader} {a : α}
    (first : d r = .ok (a, r')) : (d >>= f) r = f a r' := by
  show (d r >>= fun p => f p.1 p.2) = f a r'
  rw [first]
  rfl

theorem bind_error {d : Decoder α} {f : α → Decoder β} {r : Reader} {e : ValidationError}
    (first : d r = .error e) : (d >>= f) r = .error e := by
  show (d r >>= fun p => f p.1 p.2) = .error e
  rw [first]
  rfl

namespace Reads

variable {d : Decoder α} {f : α → Decoder β} {a : α} {c : β} {b b' : Bytes} {p q : Prop}

theorem congr (h : d.Reads a b p) (bytes : b = b') (fits : p ↔ q) : d.Reads a b' q := by
  subst bytes
  rw [propext fits] at h
  exact h

theorem bind (first : d.Reads a b p) (second : (f a).Reads c b' q) :
    (d >>= f).Reads c (b ++ b') (p ∧ q) := by
  intro rest offset
  obtain ⟨reads, refuses⟩ := first (b' ++ rest) offset
  obtain ⟨reads', refuses'⟩ := second rest (offset + b.length)
  rw [List.append_assoc, List.length_append, ← Nat.add_assoc]
  constructor
  · rintro ⟨hp, hq⟩
    rw [bind_ok (reads hp), reads' hq]
  · intro unfit
    by_cases hp : p
    · obtain ⟨e, refused⟩ := refuses' fun hq => unfit ⟨hp, hq⟩
      exact ⟨e, by rw [bind_ok (reads hp), refused]⟩
    · obtain ⟨e, refused⟩ := refuses hp
      exact ⟨e, bind_error refused⟩

theorem pure (a : α) : (Pure.pure a : Decoder α).Reads a [] True := by
  intro rest offset
  exact ⟨fun _ => rfl, fun unfit => absurd trivial unfit⟩

theorem reject (a : α) (e : ValidationError) : (Decoder.reject e : Decoder α).Reads a [] False := by
  intro rest offset
  exact ⟨False.elim, fun _ => ⟨e, rfl⟩⟩

theorem map (first : d.Reads a b p) (g : α → β) : (g <$> d).Reads (g a) b p := by
  have mapped := first.bind (f := fun a => Pure.pure (g a)) (.pure (g a))
  rw [bind_pure_comp] at mapped
  exact mapped.congr (List.append_nil b) (iff_of_eq (and_true p))

theorem unique {a a' : α} {s s' : Bytes} (h : d.Reads a b p) (h' : d.Reads a' b' q) (fits : p)
    (fits' : q) (same : b ++ s = b' ++ s') : a = a' ∧ s = s' := by
  have first := (h s 0).1 fits
  have second := (h' s' 0).1 fits'
  rw [same, second] at first
  simp only [Except.ok.injEq, Prod.mk.injEq, Reader.mk.injEq] at first
  exact ⟨first.1.symm, first.2.1.symm⟩

theorem runAll (h : d.Reads a b p) : (p → d.runAll b = .ok a) ∧ (¬p → ∃ e, d.runAll b = .error e) := by
  obtain ⟨reads, refuses⟩ := h [] 0
  rw [List.append_nil] at reads refuses
  constructor
  · intro hp
    unfold Decoder.runAll Reader.start
    rw [bind_ok (reads hp)]
    rfl
  · intro unfit
    obtain ⟨e, refused⟩ := refuses unfit
    refine ⟨e, ?_⟩
    unfold Decoder.runAll Reader.start
    rw [bind_error refused]

/-! ### Bytes, blocks and numbers -/

theorem take (b : Bytes) : (Decoder.take b.length).Reads b b True := by
  intro rest offset
  refine ⟨fun _ => ?_, fun unfit => absurd trivial unfit⟩
  simp [Decoder.take, Reader.drop]

theorem take_of_length {n : Nat} (length : b.length = n) : (Decoder.take n).Reads b b True :=
  length ▸ take b

theorem block {n : Nat} (a : Block n) : (Decoder.block n).Reads a a.bytes True := by
  have read := (take_of_length a.length_bytes).map (Block.fit n)
  have same : Block.fit n a.bytes = a := by simpa using Block.fit_append a []
  rw [same] at read
  exact read

theorem byte (x : UInt8) : Decoder.byte.Reads x [x] True :=
  (take_of_length (b := [x]) rfl).map (·.headD 0)

theorem number {width n : Nat} (bound : n < 256 ^ width) :
    (Decoder.number width).Reads n (Bytes.ofNat width n) True := by
  have read := (take_of_length (Bytes.length_ofNat width n)).map Bytes.toNat
  rw [Bytes.toNat_ofNat_of_lt bound] at read
  exact read

theorem word64 (n : UInt64) : Decoder.word64.Reads n (Bytes.ofWord n) True := by
  have small : n.toNat < 256 ^ 8 := n.toNat_lt
  have read := (number small).map Nat.toUInt64
  rw [show n.toNat.toUInt64 = n by simp] at read
  exact read

theorem replicate {enc : α → Bytes} {fits : α → Prop} {n : Nat} {l : List α}
    (element : ∀ a ∈ l, d.Reads a (enc a) (fits a)) (length : l.length = n) :
    (Decoder.replicate d n).Reads ⟨l, length⟩ (l.flatMap enc) (∀ a ∈ l, fits a) := by
  subst length
  induction l with
  | nil => exact (pure _).congr rfl (by simp)
  | cons a l ih =>
    have rest := ih fun a member => element a (List.mem_cons_of_mem _ member)
    have read := (element a List.mem_cons_self).bind
      (f := fun a => do
        let rest ← Decoder.replicate d l.length
        return (⟨a :: rest.1, congrArg (· + 1) rest.2⟩ : { l' : List α // l'.length = l.length + 1 }))
      (rest.bind (.pure _))
    exact read.congr (by simp) (by simp)

end Reads

end Decoder

/-! ### Fields of fixed length -/

theorem Block.bytes_append_inj {n : Nat} {a b : Block n} {s t : Bytes}
    (same : a.bytes ++ s = b.bytes ++ t) : a = b ∧ s = t :=
  (Decoder.Reads.block a).unique (Decoder.Reads.block b) trivial trivial same

theorem Bytes.ofWord_append_inj {m n : UInt64} {s t : Bytes} (same : ofWord m ++ s = ofWord n ++ t) :
    m = n ∧ s = t :=
  (Decoder.Reads.word64 m).unique (Decoder.Reads.word64 n) trivial trivial same

namespace Decoder

variable {α β : Type}

/-! ### What a decoder can read at all -/

/-- Whatever is read, from any bytes, is as `good` says. -/
def Yields (d : Decoder α) (good : α → Prop) : Prop := ∀ r a r', d r = .ok (a, r') → good a

namespace Yields

variable {d : Decoder α} {f : α → Decoder β} {good : α → Prop} {good' : β → Prop}

theorem any (d : Decoder α) : d.Yields fun _ => True := fun _ _ _ _ => trivial

theorem bind (first : d.Yields good) (second : ∀ a, good a → (f a).Yields good') :
    (d >>= f).Yields good' := by
  intro r b r' read
  cases ran : d r with
  | error e =>
    rw [bind_error ran] at read
    cases read
  | ok p =>
    obtain ⟨a, middle⟩ := p
    rw [bind_ok ran] at read
    exact second a (first r a middle ran) middle b r' read

theorem pure {a : α} (h : good a) : (Pure.pure a : Decoder α).Yields good := by
  intro r a' r' read
  cases read
  exact h

theorem reject (e : ValidationError) : (Decoder.reject e).Yields good := by
  intro r a r' read
  cases read

theorem replicate (element : d.Yields good) (n : Nat) :
    (Decoder.replicate d n).Yields fun l => ∀ a ∈ l.1, good a := by
  induction n with
  | zero => exact pure (by simp)
  | succ n ih =>
    refine element.bind fun a here => ih.bind fun l rest => pure ?_
    intro x member
    rcases List.mem_cons.mp member with rfl | member
    · exact here
    · exact rest x member

theorem runAll (h : d.Yields good) {b : Bytes} {a : α} (read : d.runAll b = .ok a) : good a := by
  have whole : (do let a ← d; finish; return a : Decoder α).Yields good :=
    h.bind fun a here => (any finish).bind fun _ _ => pure here
  unfold Decoder.runAll at read
  split at read
  · next x r ran =>
    cases read
    exact whole _ _ _ ran
  · cases read

end Yields

end Decoder

end DocumentShare
