import DocumentShare.Bytes.Basic

/-!
# Bit strings

Bytes as bits, most significant first. `toBytes` reads whole bytes and drops an incomplete last
one, so it undoes `ofBytes` also where fewer than eight bits follow (`toBytes_ofBytes_append`).
-/

namespace DocumentShare.Bits

/-- The `width` low bits of a number. -/
def ofNat : (width : Nat) → (n : Nat) → List Bool
  | 0, _ => []
  | width + 1, n => n.testBit width :: ofNat width n

def toNat (bits : List Bool) : Nat := bits.foldl (fun n bit => 2 * n + bit.toNat) 0

def ofBytes (b : Bytes) : List Bool := b.flatMap (fun byte => ofNat 8 byte.toNat)

/-- The whole bytes at the front of a bit string. -/
def toBytes : List Bool → Bytes
  | a :: b :: c :: d :: e :: f :: g :: h :: rest =>
    (toNat [a, b, c, d, e, f, g, h]).toUInt8 :: toBytes rest
  | _ => []

/-- The digits of `width + 1` bits each, the last one filled up with zero bits. -/
def digits (width : Nat) (bits : List Bool) : List Nat :=
  match bits with
  | [] => []
  | bit :: rest =>
    let first := bit :: rest.take width
    toNat (first ++ List.replicate (width + 1 - first.length) false)
      :: digits width (rest.drop width)
termination_by bits.length
decreasing_by simp only [List.length_drop, List.length_cons]; omega

theorem foldl_ofNat (width n acc : Nat) :
    (ofNat width n).foldl (fun n bit => 2 * n + bit.toNat) acc
      = acc <<< width + n % 1 <<< width := by
  simp only [Nat.shiftLeft_eq, Nat.one_mul]
  induction width generalizing acc with
  | zero => simp [ofNat, Nat.mod_one]
  | succ width ih =>
    rw [ofNat, List.foldl_cons, ih, Nat.mod_pow_succ, Nat.pow_succ, Nat.add_mul,
      Nat.mul_comm 2 acc, Nat.mul_assoc, Nat.mul_comm (2 ^ width) 2, Nat.toNat_testBit,
      Nat.mul_comm (2 ^ width) (n / 2 ^ width % 2)]
    omega

theorem toNat_ofNat (width n : Nat) : toNat (ofNat width n) = n % 1 <<< width := by
  simp [toNat, foldl_ofNat]

theorem toNat_ofNat_byte (byte : UInt8) : (toNat (ofNat 8 byte.toNat)).toUInt8 = byte := by
  rw [toNat_ofNat, Nat.one_shiftLeft, Nat.mod_eq_of_lt byte.toNat_lt]
  simp

theorem toBytes_ofBytes_append (b : Bytes) (bits : List Bool) (h : bits.length < 8) :
    toBytes (ofBytes b ++ bits) = b := by
  induction b with
  | nil =>
    match bits, h with
    | [], _ | [_], _ | [_, _], _ | [_, _, _], _ | [_, _, _, _], _ | [_, _, _, _, _], _
    | [_, _, _, _, _, _], _ | [_, _, _, _, _, _, _], _ => rfl
  | cons byte b ih =>
    have := toNat_ofNat_byte byte
    simp only [ofNat] at this
    simp only [ofBytes, List.flatMap_cons, ofNat, List.cons_append, List.nil_append, toBytes]
    rw [this]
    simpa [ofBytes, ofNat] using ih

end DocumentShare.Bits
