import DocumentShare.Crypto.Sha512

/-!
# Ed25519

Signatures over the twisted Edwards curve `-x² + y² = 1 + d x² y²` modulo `2²⁵⁵ - 19`. Points are
kept in extended coordinates `(x, y, z, t)` with `x / z`, `y / z` the affine point and
`t = x y / z`; the addition formula holds for every pair of points.

Verification compares the encoding of `s B - k A` with the signature's first half. It accepts
encodings of `A` that are not reduced, or that set the sign of `x = 0`, and points of small order;
`s` must be below the group order.
-/

namespace DocumentShare.Ed25519

/-! ### The field -/

/-- The field's modulus. -/
def p : Nat := 1 <<< 255 - 19

/-- The order of the base point. -/
def order : Nat := 1 <<< 252 + 27742317777372353535851937790883648493

def powMod (m b e : Nat) : Nat :=
  if _h : e = 0 then 1
  else
    let half := powMod m (b * b % m) (e / 2)
    if e % 2 = 1 then b * half % m else half
termination_by e
decreasing_by omega

def inverse (a : Nat) : Nat := powMod p a (p - 2)

def d : Nat := (p - 121665) * inverse 121666 % p

/-- A square root of minus one. -/
def sqrtMinusOne : Nat := powMod p 2 ((p - 1) / 4)

/-- The even square root of `u / v`, if there is one. -/
def sqrtRatio? (u v : Nat) : Option Nat :=
  let v3 := v * v % p * v % p
  let v7 := v3 * v3 % p * v % p
  let r := u * v3 % p * powMod p (u * v7 % p) ((p - 5) / 8) % p
  let check := v * (r * r % p) % p
  let r? := if check = u then some r
    else if check = (p - u) % p then some (r * sqrtMinusOne % p)
    else none
  r?.map (fun r => if r % 2 = 1 then p - r else r)

/-! ### The curve -/

structure Point where
  x : Nat
  y : Nat
  z : Nat
  t : Nat

namespace Point

def identity : Point := ⟨0, 1, 1, 0⟩

def add (a b : Point) : Point :=
  let u := (a.y + p - a.x) * (b.y + p - b.x) % p
  let v := (a.y + a.x) * (b.y + b.x) % p
  let w := a.t * b.t % p * (2 * d) % p
  let q := 2 * a.z * b.z % p
  let e := v + p - u
  let f := q + p - w
  let g := q + w
  let h := v + u
  ⟨e * f % p, g * h % p, f * g % p, e * h % p⟩

def double (a : Point) : Point :=
  let u := a.x * a.x % p
  let v := a.y * a.y % p
  let w := 2 * a.z * a.z % p
  let s := (a.x + a.y) * (a.x + a.y) % p
  let h := u + v
  let e := h + p - s
  let g := u + p - v
  let f := w + g
  ⟨e * f % p, g * h % p, f * g % p, e * h % p⟩

def neg (a : Point) : Point := ⟨(p - a.x) % p, a.y, a.z, (p - a.t) % p⟩

def ofAffine (x y : Nat) : Point := ⟨x, y, 1, x * y % p⟩

/-- The 32 bytes of a point: `y` from its low byte on, with the parity of `x` in the top bit. -/
def encode (a : Point) : Bytes :=
  let i := inverse a.z
  let x := a.x * i % p
  let y := a.y * i % p
  (Bytes.ofNat 32 (y + (x % 2) <<< 255)).reverse

/-- The point that 32 bytes stand for. -/
def decode? (b : Bytes) : Option Point :=
  let n := Bytes.toNat b.reverse
  let y := n % 1 <<< 255 % p
  let yy := y * y % p
  let x? := sqrtRatio? ((yy + p - 1) % p) ((d * yy + 1) % p)
  x?.map (fun x => ofAffine (if n >>> 255 = 1 then (p - x) % p else x) y)

end Point

/-- The base point, whose `y` is four fifths and whose `x` is even. -/
def base : Point :=
  let y := 4 * inverse 5 % p
  let yy := y * y % p
  .ofAffine ((sqrtRatio? ((yy + p - 1) % p) ((d * yy + 1) % p)).getD 0) y

/-- The first `n` multiples of a point, from zero on. -/
def multiples (a : Point) : (n : Nat) → Array Point
  | 0 => #[]
  | 1 => #[.identity]
  | n + 2 =>
    let row := multiples a (n + 1)
    row.push (a.add (row.getD n .identity))

/-- For each of `n` base sixteen places, the sixteen multiples of its unit. -/
def places (a : Point) : (n : Nat) → Array (Array Point) → Array (Array Point)
  | 0, table => table
  | n + 1, table => places a.double.double.double.double n (table.push (multiples a 16))

def baseTable : Array (Array Point) := places base 64 #[]

/-- `k` times the base point, for `k` below `2²⁵⁶`. -/
def timesBase (k : Nat) : Point :=
  (List.range 64).foldl (fun sum i =>
    sum.add ((baseTable.getD i #[]).getD (k >>> (4 * i) % 16) .identity)) .identity

/-- Adds the multiples that the `n` low base sixteen digits of `k` select, the highest first. -/
def timesFrom (table : Array Point) (k : Nat) : (n : Nat) → Point → Point
  | 0, sum => sum
  | n + 1, sum =>
    timesFrom table k n
      (sum.double.double.double.double.add (table.getD (k >>> (4 * n) % 16) .identity))

/-- `k` times a point, for `k` below `2²⁵⁶`. -/
def times (k : Nat) (a : Point) : Point := timesFrom (multiples a 16) k 64 .identity

/-! ### Signatures -/

def littleEndian (b : Bytes) : Nat := Bytes.toNat b.reverse

def scalar (digest : Bytes) : Nat := littleEndian (digest.take 32) % 1 <<< 254 / 8 * 8 + 1 <<< 254

def publicKey (secret : Bytes) : Bytes := (timesBase (scalar (Sha512.hash secret))).encode

/-- The challenge that binds a commitment, a key and a message. -/
def challenge (commitment key message : Bytes) : Nat :=
  littleEndian (Sha512.hash (commitment ++ key ++ message)) % order

def sign (secret message : Bytes) : Bytes :=
  let digest := Sha512.hash secret
  let a := scalar digest
  let r := littleEndian (Sha512.hash (digest.drop 32 ++ message)) % order
  let commitment := (timesBase r).encode
  let k := challenge commitment (timesBase a).encode message
  commitment ++ (Bytes.ofNat 32 ((r + k * a) % order)).reverse

def verify (key message signature : Bytes) : Bool :=
  let commitment := signature.take 32
  let s := littleEndian (signature.drop 32)
  match Point.decode? key with
  | none => false
  | some a =>
    s < order &&
      ((timesBase s).add (times (challenge commitment key message) a.neg)).encode == commitment

end DocumentShare.Ed25519
