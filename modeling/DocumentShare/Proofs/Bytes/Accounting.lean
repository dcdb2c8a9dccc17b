import DocumentShare.Bytes.Cursor
import DocumentShare.Proofs.Bytes.Canonical
import DocumentShare.Proofs.Work
import Mathlib.Data.List.Forall2

/-!
# Every byte is accounted for

What the calls on a cursor have read, one after the other, and what remains are the input, whichever
calls are made and whichever of them fail (`Cursor.Session.lossless`). A call and the decoder that reads
the same come to the same from the same place.
-/

namespace DocumentShare

/-- The checked sum is the true one, and there is none where that is not a word. -/
theorem USize.add?_eq_some_iff {a b s : USize} :
    USize.add? a b = some s ↔ s.toNat = a.toNat + b.toNat := by
  have sum : (a + b).toNat = (a.toNat + b.toNat) % USize.size := USize.toNat_add a b
  have small := a.toNat_lt_size
  have small' := b.toNat_lt_size
  unfold USize.add?
  by_cases word : a.toNat + b.toNat < USize.size
  · rw [Nat.mod_eq_of_lt word] at sum
    have whole : ¬a + b < a := by
      rw [USize.lt_iff_toNat_lt, sum]
      omega
    rw [if_neg whole, Option.some_inj, ← USize.toNat_inj, sum, eq_comm]
  · -- The sum is cut off once, which leaves less than `a` of it.
    have cut : (a.toNat + b.toNat) % USize.size = a.toNat + b.toNat - USize.size := by
      rw [Nat.mod_eq_sub_mod (by omega), Nat.mod_eq_of_lt (by omega)]
    have below : a + b < a := by
      rw [USize.lt_iff_toNat_lt, sum, cut]
      omega
    have wide := s.toNat_lt_size
    rw [if_pos below]
    constructor
    · intro some
      cases some
    · omega

namespace Cursor

variable {c : Cursor} {n : USize}

/-- The input has a length that is a word, and the place is one of the input. -/
structure Placed (c : Cursor) : Prop where
  small : c.input.length < USize.size
  inside : c.offset.toNat ≤ c.input.length

def moved (c : Cursor) (n : USize) : Cursor := { c with offset := c.offset + n }

/-- A reader of what remains, from the same place. -/
def reader (c : Cursor) : Reader := ⟨c.remaining, c.offset.toNat⟩

theorem length_remaining (c : Cursor) : c.remaining.length = c.input.length - c.offset.toNat :=
  List.length_drop

theorem ahead?_eq_some_iff {place : USize} : c.ahead? n = some place ↔
    place.toNat = c.offset.toNat + n.toNat ∧ place.toNat ≤ c.input.length := by
  rw [ahead?, Option.filter_eq_some_iff, USize.add?_eq_some_iff, decide_eq_true_eq]

/-- A move within the input is by exactly `n`. -/
theorem Placed.offset_moved (placed : c.Placed) (enough : n.toNat ≤ c.remaining.length) :
    (c.moved n).offset.toNat = c.offset.toNat + n.toNat := by
  obtain ⟨small, inside⟩ := placed
  rw [length_remaining] at enough
  have sum : (c.offset + n).toNat = (c.offset.toNat + n.toNat) % USize.size := USize.toNat_add _ _
  rw [moved, sum, Nat.mod_eq_of_lt (by omega)]

theorem Placed.reader_moved (placed : c.Placed) (enough : n.toNat ≤ c.remaining.length) :
    (c.moved n).reader = c.reader.drop n.toNat := by
  rw [reader, remaining, placed.offset_moved enough, Reader.drop, reader, remaining, List.drop_drop]
  rfl

theorem Placed.runOn_take (placed : c.Placed) (enough : n.toNat ≤ c.remaining.length) :
    (take n).runOn c = (.ok (c.remaining.take n.toNat), c.moved n) := by
  have place := placed.offset_moved enough
  have inside := placed.inside
  have slice : (c.input.take (c.offset.toNat + n.toNat)).drop c.offset.toNat
      = c.remaining.take n.toNat := by
    rw [List.drop_take, Nat.add_sub_cancel_left, remaining]
  rw [length_remaining] at enough
  have ahead : c.ahead? n = some (c.moved n).offset := ahead?_eq_some_iff.mpr ⟨place, by omega⟩
  unfold take
  rw [Work.runOn_ofStep, ahead]
  dsimp only
  rw [place, slice]
  rfl

theorem runOn_take_short (few : c.remaining.length < n.toNat) : (take n).runOn c =
    (.error (.encoding (.short n.toNat c.offset.toNat c.remaining.length)), c) := by
  have length := c.length_remaining
  have beyond : c.ahead? n = none := by
    refine Option.eq_none_iff_forall_ne_some.mpr fun place ahead => ?_
    obtain ⟨sum, within⟩ := ahead?_eq_some_iff.mp ahead
    omega
  unfold take
  rw [Work.runOn_ofStep, beyond, length]

theorem isEmpty_iff : c.isEmpty ↔ c.remaining = [] := by
  rw [isEmpty, decide_eq_true_eq, remaining, List.drop_eq_nil_iff]

theorem runOn_finish (c : Cursor) : finish.runOn c =
    (if c.remaining = [] then .ok () else .error (.encoding (.trailing c.remaining.length)), c) := by
  unfold finish
  rw [Work.runOn_ofStep]
  by_cases empty : c.remaining = []
  · rw [if_pos empty, if_pos (isEmpty_iff.mpr empty)]
  · rw [if_neg empty, if_neg (mt isEmpty_iff.mp empty), length_remaining]

/-! ### Decoders -/

/-- From the place of the cursor, the decoder comes to the same as the work. -/
def Agrees {α : Type} (d : Decoder α) (w : CursorWork α) (c : Cursor) : Prop :=
  d c.reader = (w.runOn c).1.map fun a => (a, (w.runOn c).2.reader)

theorem Agrees.map {α β : Type} {d : Decoder α} {w : CursorWork α} (agrees : Agrees d w c)
    (f : α → β) : Agrees (f <$> d) (f <$> w) c := by
  unfold Agrees at agrees ⊢
  rw [← bind_pure_comp, ← bind_pure_comp]
  rcases ran : w.runOn c with ⟨e | a, t⟩
  · rw [ran] at agrees
    rw [Decoder.bind_error agrees, Work.runOn_bind_error ran]
    rfl
  · rw [ran] at agrees
    rw [Decoder.bind_ok agrees, Work.runOn_bind_ok ran]
    rfl

theorem Placed.agrees_take (placed : c.Placed) (n : USize) :
    Agrees (Decoder.take n.toNat) (take n) c := by
  unfold Agrees Decoder.take
  rcases Nat.lt_or_ge c.remaining.length n.toNat with few | enough
  · have short : (c.remaining.take n.toNat).length ≠ n.toNat := by
      rw [List.length_take]
      omega
    rw [runOn_take_short few]
    exact if_neg short
  · have taken : (c.remaining.take n.toNat).length = n.toNat := List.length_take_of_le enough
    rw [placed.runOn_take enough]
    dsimp only
    rw [placed.reader_moved enough]
    exact if_pos taken

theorem agrees_finish (c : Cursor) : Agrees Decoder.finish finish c := by
  unfold Agrees Decoder.finish
  rw [runOn_finish]
  by_cases empty : c.remaining = []
  · simp [empty, reader, Except.map]
  · simp [empty, reader, Except.map]

/-! ### Calls -/

inductive Call
  | take (n : USize)
  | skip (n : USize)
  | block (n : USize)
  | byte
  | word16
  | word64

namespace Call

def Answer : Call → Type
  | take _ => Bytes
  | skip _ => Unit
  | block n => Block n.toNat
  | byte => UInt8
  | word16 => UInt16
  | word64 => UInt64

def length : Call → USize
  | take n => n
  | skip n => n
  | block n => n
  | byte => 1
  | word16 => 2
  | word64 => 8

def work : (k : Call) → CursorWork k.Answer
  | take n => Cursor.take n
  | skip n => Cursor.skip n
  | block n => Cursor.block n
  | byte => Cursor.byte
  | word16 => Cursor.word16
  | word64 => Cursor.word64

def decoder : (k : Call) → Decoder k.Answer
  | take n => Decoder.take n.toNat
  | skip n => do let _ ← Decoder.take n.toNat
  | block n => Decoder.block n.toNat
  | byte => Decoder.byte
  | word16 => Decoder.word16
  | word64 => Decoder.word64

/-- What the call makes of the bytes that it takes. -/
def understand : (k : Call) → Bytes → k.Answer
  | take _, b => b
  | skip _, _ => ()
  | block n, b => .fit n.toNat b
  | byte, b => b.headD 0
  | word16, b => (Bytes.toNat b).toUInt16
  | word64, b => (Bytes.toNat b).toUInt64

/-- The bytes are as many as the call asks for and write its answer, numbers with the most significant
byte first. Of bytes that are skipped there is no answer to write. -/
def Spells (k : Call) (b : Bytes) (a : k.Answer) : Prop :=
  b.length = k.length.toNat ∧
    match k, a with
    | take _, a => b = a
    | skip _, _ => True
    | block _, a => b = a.bytes
    | byte, x => b = [x]
    | word16, n => b = Bytes.ofNat 2 n.toNat
    | word64, n => b = Bytes.ofWord n

theorem toNat_length_byte : byte.length.toNat = 1 := USize.toNat_one

theorem toNat_length_word16 : word16.length.toNat = 2 := by simp [length]

theorem toNat_length_word64 : word64.length.toNat = 8 := by simp [length]

variable (k : Call)

theorem work_eq : k.work = k.understand <$> Cursor.take k.length := by
  cases k with
  | take n => exact (id_map _).symm
  | skip n => rfl
  | block n => rfl
  | byte => rfl
  | word16 =>
    simp only [work, Cursor.word16, Cursor.number, bind_pure_comp, Functor.map_map]
    rfl
  | word64 =>
    simp only [work, Cursor.word64, Cursor.number, bind_pure_comp, Functor.map_map]
    rfl

theorem decoder_eq : k.decoder = k.understand <$> Decoder.take k.length.toNat := by
  cases k with
  | take n => exact (id_map _).symm
  | skip n => rfl
  | block n => rfl
  | byte =>
    rw [toNat_length_byte]
    rfl
  | word16 =>
    rw [toNat_length_word16]
    simp only [decoder, Decoder.word16, Decoder.number, bind_pure_comp, Functor.map_map]
    rfl
  | word64 =>
    rw [toNat_length_word64]
    simp only [decoder, Decoder.word64, Decoder.number, bind_pure_comp, Functor.map_map]
    rfl

theorem consumes_decoder : k.decoder.Consumes k.Spells := by
  cases k with
  | take n => exact (Decoder.Consumes.take n.toNat).mono fun b a ⟨same, length⟩ => ⟨same ▸ length, same⟩
  | skip n =>
    refine (Decoder.Consumes.take n.toNat).bind fun a b ⟨same, length⟩ => .pure ⟨?_, trivial⟩
    rw [List.append_nil, same]
    exact length
  | block n =>
    exact (Decoder.Consumes.block n.toNat).mono fun b a same => ⟨same ▸ a.length_bytes, same⟩
  | byte =>
    refine Decoder.Consumes.byte.mono fun b x same => ⟨?_, same⟩
    rw [same, toNat_length_byte, List.length_singleton]
  | word16 =>
    refine Decoder.Consumes.word16.mono fun b n same => ⟨?_, same⟩
    rw [same, toNat_length_word16, Bytes.length_ofNat]
  | word64 =>
    refine Decoder.Consumes.word64.mono fun b n same => ⟨?_, same⟩
    rw [same, toNat_length_word64, Bytes.ofWord, Bytes.length_ofNat]

theorem runOn_work (placed : c.Placed) (enough : k.length.toNat ≤ c.remaining.length) :
    k.work.runOn c = (.ok (k.understand (c.remaining.take k.length.toNat)), c.moved k.length) := by
  rw [work_eq, ← bind_pure_comp, Work.runOn_bind_ok (placed.runOn_take enough)]
  rfl

theorem runOn_work_short (few : c.remaining.length < k.length.toNat) : k.work.runOn c =
    (.error (.encoding (.short k.length.toNat c.offset.toNat c.remaining.length)), c) := by
  rw [work_eq, ← bind_pure_comp, Work.runOn_bind_error (runOn_take_short few)]

theorem answered_iff (placed : c.Placed) :
    (∃ a, (k.work.runOn c).1 = .ok a) ↔ k.length.toNat ≤ c.remaining.length := by
  constructor
  · rintro ⟨a, answered⟩
    refine Nat.le_of_not_lt fun few => ?_
    rw [k.runOn_work_short few] at answered
    cases answered
  · intro enough
    exact ⟨_, by rw [k.runOn_work placed enough]⟩

theorem agrees_decoder (placed : c.Placed) : Agrees k.decoder k.work c := by
  rw [work_eq, decoder_eq]
  exact (placed.agrees_take k.length).map k.understand

/-- A call is answered with the next bytes exactly if as many remain as it asks for, and one that is
refused moves nothing. -/
structure Exact (k : Call) (c : Cursor) : Prop where
  answered_iff : (∃ a, (k.work.runOn c).1 = .ok a) ↔ k.length.toNat ≤ c.remaining.length
  answered : ∀ a t, k.work.runOn c = (.ok a, t) → t.input = c.input ∧
    t.offset.toNat = c.offset.toNat + k.length.toNat ∧ ∃ b, k.Spells b a ∧ c.remaining = b ++ t.remaining
  refused : ∀ e t, k.work.runOn c = (.error e, t) →
    t = c ∧ e = .encoding (.short k.length.toNat c.offset.toNat c.remaining.length)
  overflow : USize.size ≤ c.offset.toNat + k.length.toNat → ∃ e, k.work.runOn c = (.error e, c)
  agrees : Agrees k.decoder k.work c

theorem exact_of_placed (placed : c.Placed) : k.Exact c where
  answered_iff := k.answered_iff placed
  answered a t ran := by
    have enough := (k.answered_iff placed).mp ⟨a, congrArg Prod.fst ran⟩
    have read := k.agrees_decoder placed
    unfold Agrees at read
    rw [ran] at read
    obtain ⟨b, front, spells⟩ := k.consumes_decoder _ _ _ read
    rw [k.runOn_work placed enough] at ran
    cases ran
    exact ⟨rfl, placed.offset_moved enough, b, spells, front⟩
  refused e t ran := by
    rcases Nat.lt_or_ge c.remaining.length k.length.toNat with few | enough
    · rw [k.runOn_work_short few] at ran
      cases ran
      exact ⟨rfl, rfl⟩
    · rw [k.runOn_work placed enough] at ran
      cases ran
  overflow wide := by
    have few : c.remaining.length < k.length.toNat := by
      have small := placed.small
      have inside := placed.inside
      rw [length_remaining]
      omega
    exact ⟨_, k.runOn_work_short few⟩
  agrees := k.agrees_decoder placed

end Call

/-! ### Sessions -/

structure Outcome where
  call : Call
  answer : Except ValidationError call.Answer

/-- The bytes that the call read, none if it failed. -/
def Outcome.Reads (o : Outcome) (b : Bytes) : Prop :=
  match o.answer with
  | .ok a => o.call.Spells b a
  | .error _ => b = []

/-- Any calls on a cursor that starts at the beginning of an input: what came of them, and where it is. -/
inductive Session (input : Bytes) : List Outcome → Cursor → Prop
  | start : Session input [] (.start input)
  | call {log : List Outcome} {c : Cursor} (before : Session input log c) (k : Call) :
    Session input (log ++ [⟨k, (k.work.runOn c).1⟩]) (k.work.runOn c).2

/-- The bytes that the calls read, one after the other, and what remains are the input. -/
structure Accounted (input : Bytes) (log : List Outcome) (c : Cursor) : Prop where
  same : c.input = input
  inside : c.offset.toNat ≤ input.length
  whole : ∃ pieces, List.Forall₂ Outcome.Reads log pieces ∧ pieces.flatten ++ c.remaining = input

variable {input : Bytes} {log : List Outcome}

theorem accounted_start (input : Bytes) : Accounted input [] (.start input) where
  same := rfl
  inside := Nat.zero_le _
  whole := ⟨[], .nil, rfl⟩

theorem Accounted.placed (accounted : Accounted input log c) (small : input.length < USize.size) :
    c.Placed := by
  obtain ⟨rfl, inside, -⟩ := accounted
  exact ⟨small, inside⟩

theorem Accounted.call (accounted : Accounted input log c) (small : input.length < USize.size)
    (k : Call) : Accounted input (log ++ [⟨k, (k.work.runOn c).1⟩]) (k.work.runOn c).2 := by
  have placed := accounted.placed small
  have exactly := k.exact_of_placed placed
  obtain ⟨rfl, inside, pieces, reads, whole⟩ := accounted
  rcases ran : k.work.runOn c with ⟨e | a, t⟩
  · obtain ⟨rfl, -⟩ := exactly.refused e t ran
    refine ⟨rfl, inside, pieces ++ [[]], List.rel_append reads (.cons rfl .nil), ?_⟩
    simpa using whole
  · obtain ⟨same, offset, b, spells, front⟩ := exactly.answered a t ran
    refine ⟨same, ?_, pieces ++ [b], List.rel_append reads (.cons spells .nil), ?_⟩
    · have moved := congrArg List.length front
      have length := spells.1
      rw [length_remaining, List.length_append, length_remaining, same] at moved
      show t.offset.toNat ≤ c.input.length
      omega
    · rw [List.flatten_append, List.append_assoc]
      simpa [front] using whole

theorem Session.accounted (small : input.length < USize.size) (session : Session input log c) :
    Accounted input log c := by
  induction session with
  | start => exact accounted_start input
  | call before k ih => exact ih.call small k

/-- Reading loses no bytes and invents none: what was read so far and what remains are the input. A
call that asks for more than remains moves nothing. -/
theorem Session.lossless (small : input.length < USize.size) (session : Session input log c)
    (k : Call) : Accounted input log c ∧ k.Exact c ∧
      ((finish.runOn c).1 = .ok () ↔ c.remaining = []) ∧ (c.isEmpty ↔ c.remaining = []) ∧
      finish.runOn c =
        (if c.remaining = [] then .ok () else .error (.encoding (.trailing c.remaining.length)), c) ∧
      Agrees Decoder.finish finish c := by
  have accounted := session.accounted small
  refine ⟨accounted, k.exact_of_placed (accounted.placed small), ?_, isEmpty_iff, runOn_finish c,
    agrees_finish c⟩
  rw [runOn_finish]
  by_cases empty : c.remaining = []
  · simp [empty]
  · simp [empty]

/-- Of three bytes eight are refused and two are read. Then as many as the greatest word says are refused,
and the last byte remains. -/
theorem lossless_of_three : ([1, 2, 3] : Bytes).length < USize.size ∧
    Session [1, 2, 3] [⟨.word64, .error (.encoding (.short 8 0 3))⟩, ⟨.word16, .ok (258 : UInt16)⟩]
      ⟨[1, 2, 3], 2⟩ ∧
    (∃ e, (Call.take (-1)).work.runOn ⟨[1, 2, 3], 2⟩ = (.error e, ⟨[1, 2, 3], 2⟩)) ∧
    (finish.runOn ⟨[1, 2, 3], 2⟩).1 = .error (.encoding (.trailing 1)) := by
  have word : ([1, 2, 3] : Bytes).length < USize.size := Nat.lt_of_lt_of_le (by decide) USize.le_size
  have placed : (start [1, 2, 3]).Placed := ⟨word, Nat.zero_le _⟩
  have refused : Call.word64.work.runOn (start [1, 2, 3])
      = (.error (.encoding (.short 8 0 3)), start [1, 2, 3]) := by
    have few : (start [1, 2, 3]).remaining.length < Call.word64.length.toNat := by
      rw [Call.toNat_length_word64]
      decide
    rw [Call.runOn_work_short .word64 few, Call.toNat_length_word64]
    rfl
  have answered : Call.word16.work.runOn (start [1, 2, 3])
      = (.ok (258 : UInt16), ⟨[1, 2, 3], 2⟩) := by
    have place : (start [1, 2, 3]).moved Call.word16.length = ⟨[1, 2, 3], 2⟩ := by
      rw [moved, start, USize.zero_add]
      rfl
    have enough : Call.word16.length.toNat ≤ (start [1, 2, 3]).remaining.length := by
      rw [Call.toNat_length_word16]
      decide
    rw [Call.runOn_work .word16 placed enough, Call.toNat_length_word16, place]
    rfl
  have began : Session [1, 2, 3] [] (.start [1, 2, 3]) := .start
  have session := began.call .word64
  rw [refused] at session
  have session := session.call .word16
  rw [answered] at session
  obtain ⟨-, exactly, -, -, finished, -⟩ := session.lossless word (.take (-1))
  have two : (2 : USize).toNat = 2 := Call.toNat_length_word16
  refine ⟨word, session, exactly.overflow ?_, ?_⟩
  · have greatest : (-1 : USize).toNat = USize.size - 1 := by
      rw [USize.toNat_neg, USize.toNat_one, Nat.mod_eq_of_lt (by omega)]
    rw [two, Call.length, greatest]
    omega
  · rw [finished, remaining, two]
    rfl

end Cursor

end DocumentShare
