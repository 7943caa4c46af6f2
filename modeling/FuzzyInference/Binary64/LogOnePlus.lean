import FuzzyInference.Binary64.Basic

/-!
The natural logarithm of one plus a number, rounded once. The logarithm is computed in fixed point
from `log t = 2 * artanh ((t - 1) / (t + 1))` after a power of two has been taken out.
-/
namespace FuzzyInference.Binary64

attribute [local instance (2000)] instPowNat

/-- Fractional bits of the fixed-point numbers of this module. -/
def fixedBits : Nat := 320

/-- The terms `power / k + power * square / (k + 2) + ...` of the series of `artanh`. -/
def artanhTerms (square : Int) : Nat → Nat → Int → Int
  | 0, _, _ => 0
  | count + 1, k, power =>
    power / k + artanhTerms square count (k + 2) (power * square / 2 ^ fixedBits)

/-- `log (n / d)` in fixed point, for a quotient between one half and two. -/
def logNearOne (n d : Nat) : Int :=
  let z : Int := ((n : Int) - d) * 2 ^ fixedBits / (n + d)
  2 * artanhTerms (z * z / 2 ^ fixedBits) (fixedBits / 3) 1 z

/-- `log (n / d)` in fixed point. -/
def logRatio (n d : Nat) : Int :=
  let k := Nat.log2 n
  let l := Nat.log2 d
  logNearOne (n * 2 ^ (l - k)) (d * 2 ^ (k - l)) + ((k : Int) - l) * logNearOne 2 1

/-- Below `2 ^ (-54)` the result is the number itself. -/
def logOnePlus (x : Float) : Float :=
  if x.isNaN || x < -1 then 0 / 0
  else if x == -1 then -1 / 0
  else if x.isInf || x.abs < Float.ofBits 0x3C90000000000000 then x
  else
    let n := numerator (magnitude x)
    let d := denominator (magnitude x)
    let l := logRatio (if isNegative x then d - n else d + n) d
    ofMagnitude (l < 0) (nearest l.natAbs (2 ^ fixedBits))

end FuzzyInference.Binary64
