import DocumentShare.Proofs.Bytes.Reading
import Mathlib.Data.List.Basic
import Mathlib.Data.List.Induction

/-!
# Canonical formats

`Decoder.Consumes` says of a decoder which bytes it can read a value from. Its rules carry what was
read so far through a format, up to the value at the end. A decoder is `Exact` if, in front of anything,
it reads a value from the bytes that write it and from no others. A format is `Canonical` if so are whole
inputs, apart from values that do not fit.
-/

namespace DocumentShare

namespace Bytes

theorem toNat_concat (b : Bytes) (x : UInt8) : toNat (b ++ [x]) = toNat b * 256 + x.toNat := by
  simp [toNat]

theorem toNat_lt (b : Bytes) : toNat b < 256 ^ b.length := by
  induction b using List.reverseRecOn with
  | nil => decide
  | append_singleton b x ih =>
    have digit : x.toNat < 256 := x.toNat_lt
    rw [toNat_concat, List.length_append, List.length_singleton, Nat.pow_succ]
    omega

theorem toNat_inj {b c : Bytes} (length : b.length = c.length) (same : toNat b = toNat c) :
    b = c := by
  induction b using List.reverseRecOn generalizing c with
  | nil => exact (List.eq_nil_of_length_eq_zero length.symm).symm
  | append_singleton b x ih =>
    obtain rfl | ⟨c, y, rfl⟩ := List.eq_nil_or_concat' c
    · simp at length
    · simp only [List.length_append, List.length_singleton, Nat.add_right_cancel_iff] at length
      rw [toNat_concat, toNat_concat] at same
      have digit : x.toNat < 256 := x.toNat_lt
      have digit' : y.toNat < 256 := y.toNat_lt
      have last : x = y := UInt8.toNat_inj.mp (by omega)
      have front : b = c := ih length (by omega)
      rw [front, last]

theorem ofNat_toNat {width : Nat} {b : Bytes} (length : b.length = width) :
    ofNat width (toNat b) = b := by
  apply toNat_inj
  · rw [length_ofNat, length]
  · have bound := toNat_lt b
    rw [length] at bound
    exact toNat_ofNat_of_lt bound

end Bytes

namespace Decoder

variable {α β : Type}

/-- Whatever value is read, the bytes it was read from are as `post` says. -/
def Consumes (d : Decoder α) (post : Bytes → α → Prop) : Prop :=
  ∀ r a r', d r = .ok (a, r') → ∃ b, r.rest = b ++ r'.rest ∧ post b a

theorem runAll_eq_ok {d : Decoder α} {b : Bytes} {a : α} :
    d.runAll b = .ok a ↔ ∃ r, d (.start b) = .ok (a, r) ∧ r.rest = [] := by
  unfold runAll
  cases ran : d (.start b) with
  | error e =>
    rw [bind_error ran]
    simp
  | ok p =>
    obtain ⟨a', r⟩ := p
    rw [bind_ok ran]
    by_cases done : r.rest = []
    · have ended : finish r = .ok ((), r) := by simp [finish, done]
      have answered : (Pure.pure a' : Decoder α) r = .ok (a', r) := rfl
      rw [bind_ok ended, answered]
      simp [done]
    · have left : finish r = .error (.encoding (.trailing r.rest.length)) := by simp [finish, done]
      rw [bind_error left]
      simp [done]

namespace Consumes

variable {d : Decoder α} {f : α → Decoder β} {post : Bytes → α → Prop} {goal : Bytes → β → Prop}

theorem bind (first : d.Consumes post)
    (second : ∀ a b, post b a → (f a).Consumes fun b' c => goal (b ++ b') c) :
    (d >>= f).Consumes goal := by
  intro r c r' read
  cases ran : d r with
  | error e =>
    rw [bind_error ran] at read
    cases read
  | ok p =>
    obtain ⟨a, middle⟩ := p
    rw [bind_ok ran] at read
    obtain ⟨b, front, here⟩ := first r a middle ran
    obtain ⟨b', back, there⟩ := second a b here middle c r' read
    exact ⟨b ++ b', by rw [front, back, List.append_assoc], there⟩

theorem pure {a : α} (here : post [] a) : (Pure.pure a : Decoder α).Consumes post := by
  intro r a' r' read
  cases read
  exact ⟨[], rfl, here⟩

theorem reject (e : ValidationError) : (Decoder.reject e : Decoder α).Consumes post := by
  intro r a r' read
  cases read

theorem mono {post' : Bytes → α → Prop} (h : d.Consumes post) (weaker : ∀ b a, post b a → post' b a) :
    d.Consumes post' := by
  intro r a r' read
  obtain ⟨b, front, here⟩ := h r a r' read
  exact ⟨b, front, weaker b a here⟩

/-- A value that is read from the bytes that write it, in front of what follows. -/
theorem field {write : α → Bytes} (first : d.Consumes fun b a => b = write a)
    (second : ∀ a, (f a).Consumes fun b c => goal (write a ++ b) c) : (d >>= f).Consumes goal := by
  refine first.bind fun a b written => ?_
  subst written
  exact second a

/-! ### Bytes, blocks and numbers -/

theorem take (n : Nat) : (Decoder.take n).Consumes fun b a => b = a ∧ a.length = n := by
  intro r a r' read
  unfold Decoder.take at read
  dsimp only at read
  split at read
  · next enough =>
    cases read
    exact ⟨r.rest.take n, (List.take_append_drop n r.rest).symm, rfl, enough⟩
  · cases read

theorem block (n : Nat) : (Decoder.block n).Consumes fun b a => b = a.bytes := by
  refine (take n).bind fun a b ⟨same, length⟩ => pure ?_
  subst same
  have fitted : Block.fit n b = ⟨b, length⟩ := by
    have whole := Block.fit_append ⟨b, length⟩ []
    rwa [List.append_nil] at whole
  rw [List.append_nil, fitted]

theorem byte : Decoder.byte.Consumes fun b x => b = [x] := by
  refine (take 1).bind fun a b ⟨same, length⟩ => pure ?_
  obtain ⟨x, rfl⟩ := List.length_eq_one_iff.mp length
  simpa using same

theorem number_lt (width : Nat) :
    (Decoder.number width).Consumes fun b n => b = Bytes.ofNat width n ∧ n < 256 ^ width := by
  refine (take width).bind fun a b ⟨same, length⟩ => pure ?_
  rw [Bytes.ofNat_toNat length, List.append_nil, ← length]
  exact ⟨same, Bytes.toNat_lt a⟩

theorem number (width : Nat) : (Decoder.number width).Consumes fun b n => b = Bytes.ofNat width n :=
  (number_lt width).mono fun _ _ read => read.1

theorem word16 : Decoder.word16.Consumes fun b n => b = Bytes.ofNat 2 n.toNat := by
  refine (number_lt 2).bind fun n b ⟨written, bound⟩ => pure ?_
  have small : n.toUInt16.toNat = n := Nat.mod_eq_of_lt bound
  rw [small, List.append_nil, written]

theorem word64 : Decoder.word64.Consumes fun b n => b = Bytes.ofWord n := by
  refine (number_lt 8).bind fun n b ⟨written, bound⟩ => pure ?_
  have small : n.toUInt64.toNat = n := Nat.mod_eq_of_lt bound
  rw [Bytes.ofWord, small, List.append_nil, written]

theorem replicate {write : α → Bytes} (element : d.Consumes fun b a => b = write a) (n : Nat) :
    (Decoder.replicate d n).Consumes fun b l => b = l.1.flatMap write := by
  induction n with
  | zero => exact pure rfl
  | succ n ih =>
    refine element.field fun a => ih.field fun l => pure ?_
    rw [List.append_nil]
    rfl

theorem runAll (h : d.Consumes post) {b : Bytes} {a : α} (read : d.runAll b = .ok a) : post b a := by
  obtain ⟨r, ran, done⟩ := runAll_eq_ok.mp read
  obtain ⟨b', front, here⟩ := h _ _ _ ran
  have whole : b = b' := by
    rw [done, List.append_nil] at front
    exact front
  rw [whole]
  exact here

end Consumes

/-- In front of anything, exactly the bytes that write a value are read as that value. -/
def Exact (d : Decoder α) (write : α → Bytes) : Prop :=
  ∀ r a after, d r = .ok (a, after) ↔
    r.rest = write a ++ after.rest ∧ after.offset = r.offset + (write a).length

namespace Exact

variable {d : Decoder α} {write : α → Bytes}

theorem of_reads (reads : ∀ a, d.Reads a (write a) True)
    (consumes : d.Consumes fun b a => b = write a) : d.Exact write := by
  intro r a after
  have again := (reads a after.rest r.offset).1 trivial
  constructor
  · intro read
    obtain ⟨b, front, rfl⟩ := consumes r a after read
    rw [← front, read] at again
    have same : after = ⟨after.rest, r.offset + (write a).length⟩ :=
      (Prod.mk.inj (Except.ok.inj again)).2
    exact ⟨front, congrArg Reader.offset same⟩
  · rintro ⟨front, offset⟩
    rwa [← front, ← offset] at again

theorem append_inj (exact : d.Exact write) {a b : α} {s t : Bytes}
    (same : write a ++ s = write b ++ t) : a = b ∧ s = t := by
  have first := (exact ⟨write a ++ s, 0⟩ a ⟨s, 0 + (write a).length⟩).mpr ⟨rfl, rfl⟩
  have second := (exact ⟨write a ++ s, 0⟩ b ⟨t, 0 + (write b).length⟩).mpr ⟨same, rfl⟩
  rw [first] at second
  cases second
  exact ⟨rfl, rfl⟩

theorem prefix_iff (exact : d.Exact write) {a b : α} : write a <+: write b ↔ a = b := by
  constructor
  · rintro ⟨rest, same⟩
    rw [← List.append_nil (write b)] at same
    exact (exact.append_inj same).1
  · rintro rfl
    exact List.prefix_rfl

theorem runFront (exact : d.Exact write) (a : α) (rest : Bytes) :
    d.runFront (write a ++ rest) = .ok (a, (write a).length) := by
  have read := (exact (.start (write a ++ rest)) a ⟨rest, 0 + (write a).length⟩).mpr ⟨rfl, rfl⟩
  rw [Decoder.runFront, read, Nat.zero_add]

theorem runAll_iff (exact : d.Exact write) {b : Bytes} {a : α} :
    d.runAll b = .ok a ↔ write a = b := by
  rw [runAll_eq_ok]
  constructor
  · rintro ⟨r, read, done⟩
    obtain ⟨front, -⟩ := (exact _ _ _).mp read
    rw [done, List.append_nil] at front
    exact front.symm
  · rintro rfl
    refine ⟨⟨[], 0 + (write a).length⟩, (exact _ _ _).mpr ⟨?_, rfl⟩, rfl⟩
    exact (List.append_nil _).symm

end Exact

end Decoder

/-! ### Formats -/

/-- Exactly the bytes that write a value which `fits` are read, and they are read as that value. -/
structure Canonical {α : Type} (read : Bytes → Except ValidationError α) (write : α → Bytes)
    (fits : α → Prop) : Prop where
  accepts : ∀ b a, read b = .ok a ↔ write a = b ∧ fits a
  /-- No two byte strings are read as the same value. -/
  unique : ∀ b b' a, read b = .ok a → read b' = .ok a → b = b'
  /-- What is read is read again from the bytes that write it. -/
  rereads : ∀ b a, read b = .ok a → read (write a) = .ok a

theorem Canonical.of_runAll {α : Type} {d : Decoder α} {write : α → Bytes} {fits : α → Prop}
    (reads : ∀ a, d.Reads a (write a) (fits a)) (consumes : d.Consumes fun b a => b = write a) :
    Canonical d.runAll write fits := by
  have accepts : ∀ b a, d.runAll b = .ok a ↔ write a = b ∧ fits a := by
    intro b a
    obtain ⟨accepted, refused⟩ := (reads a).runAll
    constructor
    · intro read
      have written := consumes.runAll read
      refine ⟨written.symm, Classical.byContradiction fun unfit => ?_⟩
      obtain ⟨e, refusal⟩ := refused unfit
      rw [← written, read] at refusal
      cases refusal
    · intro ⟨written, fit⟩
      rw [← written]
      exact accepted fit
  refine ⟨accepts, ?_, ?_⟩
  · intro b b' a read read'
    exact ((accepts b a).mp read).1.symm.trans ((accepts b' a).mp read').1
  · intro b a read
    exact (accepts (write a) a).mpr ⟨rfl, ((accepts b a).mp read).2⟩

end DocumentShare
