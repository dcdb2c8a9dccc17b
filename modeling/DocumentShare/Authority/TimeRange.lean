import DocumentShare.Bytes.Reader

/-!
# Time ranges

Half-open ranges of timestamps in microseconds, or ranges without an end. A range may end before it
starts; it then includes no timestamp.
-/

namespace DocumentShare

structure TimeRange where
  start : UInt64
  stop : Option UInt64
deriving DecidableEq

namespace TimeRange

def full : TimeRange := ⟨0, none⟩

instance : Inhabited TimeRange := ⟨full⟩

/-- The range between two timestamps, which may not be inverted. -/
def closed (start stop : UInt64) : Except ValidationError TimeRange :=
  if stop < start then .error (.invertedTimes start.toNat stop.toNat) else .ok ⟨start, some stop⟩

def includes (r : TimeRange) (timestamp : UInt64) : Bool :=
  r.start ≤ timestamp && r.stop.all (timestamp < ·)

/-- Whether the ends of `other` are within those of `r`. -/
def includesRange (r other : TimeRange) : Bool :=
  r.start ≤ other.start &&
    match r.stop, other.stop with
    | none, _ => true
    | some _, none => false
    | some stop, some otherStop => otherStop ≤ stop

/-- The start, then whether there is an end, then the end. -/
def encode (r : TimeRange) : Bytes :=
  Bytes.ofWord r.start ++ match r.stop with
    | some stop => 1 :: Bytes.ofWord stop
    | none => [0]

/-- Reads an encoded range that is not inverted. -/
def decode : Decoder TimeRange := do
  let start ← Decoder.word64
  let flag ← Decoder.byte
  if flag = 0 then return ⟨start, none⟩
  else if flag = 1 then
    match closed start (← Decoder.word64) with
    | .ok r => return r
    | .error e => Decoder.reject e
  else Decoder.reject (.encoding (.timeFlag flag.toNat))

instance : ToString TimeRange :=
  ⟨fun r => match r.stop with
    | some stop => s!"[{r.start}, {stop})"
    | none => s!"[{r.start}, ∞)"⟩

end TimeRange

end DocumentShare
