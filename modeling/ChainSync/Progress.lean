import ChainSync.Fault

/-!
# Progress: lag, rate and time left

The lag is the distance to the greatest height that a peer reported, once one has. The rate is
blocks for each second since the start. The time left is the lag at that rate, as a duration that
is exact to the nanosecond: the nearest one, and of two equally near ones the even one.
-/

namespace ChainSync

/-- A span of time. -/
structure Duration where
  /-- Whole seconds. -/
  seconds : UInt64
  /-- Nanoseconds on top, below 10^9. -/
  nanos : Nat
  deriving DecidableEq, Repr

namespace Duration

def nanosPerSecond : Nat := 1000000000

/-- The quotient rounded to the nearest number; of two equally near ones, the even one. -/
def roundDiv (num den : Nat) : Nat :=
  let quotient := num / den
  let rest := num % den
  if den < 2 * rest || (2 * rest = den && quotient % 2 = 1) then quotient + 1 else quotient

/-- The first bit of a mantissa, which is not stored. -/
def hiddenBit : Nat := 1 <<< 52

/-- The mantissa and the binary exponent of a number that is not negative, or nothing for an
infinite one and for one that is not a number. -/
def decode? (x : Float) : Option (Nat × Int) :=
  let bits : Nat := x.toBits.toNat
  let exponent : Nat := (bits >>> 52) % 2048
  let fraction : Nat := bits % hiddenBit
  if exponent = 2047 then none
  else if exponent = 0 then some (fraction, -1074)
  else some (fraction + hiddenBit, (exponent : Int) - 1075)

def ofNanos (n : Nat) : Duration := ⟨UInt64.ofNat (n / nanosPerSecond), n % nanosPerSecond⟩

/-- The duration of a number of seconds that is not negative. -/
def ofSeconds (x : Float) : Except Fault Duration :=
  match decode? x with
  | none => .error .durationOutOfRange
  | some (mantissa, exponent) =>
    let num := mantissa <<< exponent.toNat
    let den := 1 <<< (-exponent).toNat
    if UInt64.size * den ≤ num then .error .durationOutOfRange
    else .ok (ofNanos (roundDiv (num * nanosPerSecond) den))

def toSeconds (d : Duration) : Float :=
  d.seconds.toFloat + Float.ofNat d.nanos / Float.ofNat nanosPerSecond

end Duration

namespace Progress

/-- The distance to the greatest height reported, once one has been. -/
def lag (networkBest localBest : UInt64) : Option UInt64 :=
  if networkBest = 0 then none else some (monus networkBest localBest)

/-- Blocks gained for each second, once time has passed. -/
def rate (start best : UInt64) (elapsed : Duration) : Option Float :=
  let seconds := elapsed.toSeconds
  if 0 < seconds then some ((monus best start).toFloat / seconds) else none

/-- The time left for a lag at a rate. -/
def timeLeft : Option UInt64 → Option Float → Except Fault (Option Duration)
  | some lag, rate =>
    if lag = 0 then .ok (some ⟨0, 0⟩)
    else match rate with
      | some rate =>
        if 0 < rate then (Duration.ofSeconds (lag.toFloat / rate)).map some else .ok none
      | none => .ok none
  | none, _ => .ok none

end Progress
end ChainSync
