import DocumentShare.Proofs.Text.Bits
import DocumentShare.Text.Base32

/-!
# What a text in base32 stands for

A text over the alphabet stands for five bits a character. It is read as the whole bytes at the front of
these bits, whatever is behind them (`Base32.decodeChars_eq_some_iff`); it is how the bytes are written
only if fewer than five bits are behind them and all of these are zero (`Base32.eq_encodeChars_iff`).
-/

namespace DocumentShare.Base32

variable {cs cs' : List Char} {bits bits' : List Bool} {b : Bytes}

/-- The characters stand for these bits, five each. -/
def Spells (cs : List Char) (bits : List Bool) : Prop :=
  ∃ ds : List Nat, (∀ d ∈ ds, d < 2 ^ 5) ∧ ds.map digitChar = cs ∧ ds.flatMap (Bits.ofNat 5) = bits

/-! ### Characters -/

/-- The letters and figures of base32. -/
def alphabet : List Char := "abcdefghijklmnopqrstuvwxyz234567".toList

theorem alphabet_eq : alphabet = (List.range 32).map digitChar := by decide

theorem digit?_digitChar : ∀ n < 2 ^ 5, digit? (digitChar n) = some n := by decide

theorem digitChar_of_digit? {c : Char} {n : Nat} (read : digit? c = some n) :
    n < 2 ^ 5 ∧ digitChar n = c := by
  unfold digit? at read
  split at read
  · next letter =>
    simp only [Char.le_def, UInt32.le_iff_toNat_le] at letter
    obtain ⟨least, greatest⟩ : 97 ≤ c.toNat ∧ c.toNat ≤ 122 := letter
    obtain rfl := Option.some.inj read
    have place : 97 + (c.toNat - 97) = c.toNat := by omega
    exact ⟨by omega, by rw [digitChar, if_pos (by omega), place, Char.ofNat_toNat]⟩
  · split at read
    · next figure =>
      simp only [Char.le_def, UInt32.le_iff_toNat_le] at figure
      obtain ⟨least, greatest⟩ : 50 ≤ c.toNat ∧ c.toNat ≤ 55 := figure
      obtain rfl := Option.some.inj read
      have place : 24 + (c.toNat - 24) = c.toNat := by omega
      exact ⟨by omega, by rw [digitChar, if_neg (by omega), place, Char.ofNat_toNat]⟩
    · cases read

theorem mapM_digit?_eq_some_iff {ds : List Nat} :
    cs.mapM digit? = some ds ↔ (∀ d ∈ ds, d < 2 ^ 5) ∧ ds.map digitChar = cs := by
  induction cs generalizing ds with
  | nil =>
    rw [List.mapM_nil, List.map_eq_nil_iff]
    constructor
    · intro empty
      cases empty
      exact ⟨by simp, rfl⟩
    · rintro ⟨_, rfl⟩
      rfl
  | cons c cs ih =>
    rw [List.mapM_cons]
    constructor
    · intro read
      obtain ⟨d, here, read⟩ := Option.bind_eq_some_iff.mp read
      obtain ⟨ds', later, same⟩ := Option.bind_eq_some_iff.mp read
      cases same
      obtain ⟨small, rfl⟩ := digitChar_of_digit? here
      obtain ⟨smaller, rfl⟩ := ih.mp later
      exact ⟨List.forall_mem_cons.mpr ⟨small, smaller⟩, rfl⟩
    · rintro ⟨small, same⟩
      cases ds with
      | nil => cases same
      | cons d ds =>
        obtain ⟨here, later⟩ := List.forall_mem_cons.mp small
        cases same
        rw [digit?_digitChar d here, ih.mpr ⟨later, rfl⟩]
        rfl

/-! ### Texts -/

theorem Spells.length (spells : Spells cs bits) : bits.length = 5 * cs.length := by
  obtain ⟨ds, _, rfl, rfl⟩ := spells
  rw [Bits.length_flatMap_ofNat, List.length_map]

theorem Spells.text_eq (spells : Spells cs bits) (spells' : Spells cs' bits) : cs = cs' := by
  obtain ⟨ds, small, rfl, rfl⟩ := spells
  obtain ⟨ds', small', rfl, same⟩ := spells'
  rw [Bits.flatMap_ofNat_inj small' small same]

theorem Spells.bits_eq (spells : Spells cs bits) (spells' : Spells cs bits') : bits = bits' := by
  obtain ⟨ds, small, rfl, rfl⟩ := spells
  obtain ⟨ds', small', same, rfl⟩ := spells'
  have read := mapM_digit?_eq_some_iff.mpr ⟨small', same⟩
  rw [mapM_digit?_eq_some_iff.mpr ⟨small, rfl⟩] at read
  rw [Option.some.inj read]

theorem spells_digits (whole : 5 ∣ bits.length) : Spells ((Bits.digits 4 bits).map digitChar) bits := by
  obtain ⟨k, within, divides, read⟩ := Bits.flatMap_digits 4 bits
  obtain rfl : k = 0 := by omega
  rw [List.replicate_zero, List.append_nil] at read
  exact ⟨_, Bits.digits_lt, rfl, read⟩

theorem decodeChars_eq_some_iff : decodeChars cs = some b ↔
    ∃ spare, Spells cs (Bits.ofBytes b ++ spare) ∧ spare.length < 8 := by
  unfold decodeChars
  rw [Option.map_eq_some_iff]
  constructor
  · rintro ⟨ds, read, whole⟩
    obtain ⟨small, same⟩ := mapM_digit?_eq_some_iff.mp read
    obtain ⟨spare, bits, few⟩ := Bits.toBytes_eq_iff.mp whole
    exact ⟨spare, ⟨ds, small, same, bits⟩, few⟩
  · rintro ⟨spare, ⟨ds, small, same, bits⟩, few⟩
    refine ⟨ds, mapM_digit?_eq_some_iff.mpr ⟨small, same⟩, ?_⟩
    exact Bits.toBytes_eq_iff.mpr ⟨spare, bits, few⟩

theorem eq_encodeChars_iff : cs = encodeChars b ↔
    ∃ spare, Spells cs (Bits.ofBytes b ++ spare) ∧ spare.length < 5 ∧ ∀ bit ∈ spare, bit = false := by
  constructor
  · rintro rfl
    obtain ⟨k, within, _, read⟩ := Bits.flatMap_digits 4 (Bits.ofBytes b)
    refine ⟨List.replicate k false, ⟨_, Bits.digits_lt, rfl, read⟩, ?_, ?_⟩
    · rw [List.length_replicate]
      omega
    · exact fun bit member => List.eq_of_mem_replicate member
  · rintro ⟨spare, ⟨ds, small, rfl, read⟩, few, zeros⟩
    rw [List.eq_replicate_of_mem zeros] at read
    rw [encodeChars, Bits.eq_digits small (Nat.le_of_lt_succ few) read]

theorem decodeChars_encodeChars (b : Bytes) : decodeChars (encodeChars b) = some b := by
  obtain ⟨spare, spells, few, _⟩ := eq_encodeChars_iff.mp (rfl : encodeChars b = encodeChars b)
  exact decodeChars_eq_some_iff.mpr ⟨spare, spells, by omega⟩

/-- What is read is any text over the alphabet, and no other. -/
theorem exists_decodeChars_iff : (∃ b, decodeChars cs = some b) ↔ ∀ c ∈ cs, c ∈ alphabet := by
  constructor
  · rintro ⟨b, read⟩ c member
    obtain ⟨_, ⟨ds, small, rfl, _⟩, _⟩ := decodeChars_eq_some_iff.mp read
    obtain ⟨n, here, rfl⟩ := List.mem_map.mp member
    rw [alphabet_eq]
    exact List.mem_map_of_mem (List.mem_range.mpr (small n here))
  · intro within
    have digits : ∃ ds : List Nat, (∀ d ∈ ds, d < 2 ^ 5) ∧ ds.map digitChar = cs := by
      induction cs with
      | nil => exact ⟨[], by simp, rfl⟩
      | cons c cs ih =>
        obtain ⟨here, later⟩ := List.forall_mem_cons.mp within
        rw [alphabet_eq] at here
        obtain ⟨n, small, rfl⟩ := List.mem_map.mp here
        obtain ⟨ds, smaller, rfl⟩ := ih later
        exact ⟨n :: ds, List.forall_mem_cons.mpr ⟨List.mem_range.mp small, smaller⟩, rfl⟩
    obtain ⟨ds, small, same⟩ := digits
    refine ⟨Bits.toBytes (ds.flatMap (Bits.ofNat 5)), ?_⟩
    rw [decodeChars, mapM_digit?_eq_some_iff.mpr ⟨small, same⟩]
    rfl

end DocumentShare.Base32
