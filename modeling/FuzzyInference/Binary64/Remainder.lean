import FuzzyInference.Binary64.Basic

/-!
The remainder of the truncated quotient, computed exactly. It has the sign of the dividend and is
always representable.
-/
namespace FuzzyInference.Binary64

attribute [local instance (2000)] instPowNat

/-- The remainder of two finite magnitudes, in units of the finer one of their steps. -/
def remainderBits (a b : Nat) : Nat :=
  let step := min (scale a) (scale b)
  let r := (significand a * 2 ^ (scale a - step)) % (significand b * 2 ^ (scale b - step))
  nearest (r * 2 ^ step) (2 ^ (1074 : Nat))

def remainder (x y : Float) : Float :=
  if x.isNaN || y.isNaN || x.isInf || magnitude y = 0 then 0 / 0
  else if y.isInf then x
  else ofMagnitude (isNegative x) (remainderBits (magnitude x) (magnitude y))

end FuzzyInference.Binary64
