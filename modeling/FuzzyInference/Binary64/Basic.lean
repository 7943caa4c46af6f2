/-!
Binary64 numbers as bits. The bits below the sign are the magnitude of a number. Magnitudes below
`infinityBits` are finite and stand for a significand times a power of two; larger ones than
`infinityBits` are undefined values. Rounding takes a quotient to the nearest magnitude.
-/
namespace FuzzyInference.Binary64

-- Powers of numbers are the core library's, also where another instance is in scope.
attribute [local instance (2000)] instPowNat

def signWeight : Nat := 2 ^ (63 : Nat)

def fractionWeight : Nat := 2 ^ (52 : Nat)

def infinityBits : Nat := 2047 * 2 ^ (52 : Nat)

def isNegative (x : Float) : Bool := signWeight ≤ x.toBits.toNat

def magnitude (x : Float) : Nat := x.toBits.toNat % signWeight

def ofMagnitude (negative : Bool) (bits : Nat) : Float :=
  Float.ofBits (UInt64.ofNat (if negative then signWeight + bits else bits))

/-- The place of a number in the order of all numbers: negative ones first, undefined values beyond
the infinities, and the negative zero just before the positive one. -/
def place (x : Float) : Int := if isNegative x then -(magnitude x + 1 : Nat) else magnitude x

/-- A magnitude stands for `significand * 2 ^ (scale - 1074)`. -/
def significand (bits : Nat) : Nat :=
  if bits < fractionWeight then bits else fractionWeight + bits % fractionWeight

def scale (bits : Nat) : Nat := bits / fractionWeight - 1

/-- The value of a magnitude is `numerator / denominator`. -/
def numerator (bits : Nat) : Nat := significand bits * 2 ^ (scale bits - 1074)

def denominator (bits : Nat) : Nat := 2 ^ (1074 - scale bits)

/-- The whole number nearest to a quotient, the even one of two. -/
def roundDiv (n d : Nat) : Nat :=
  let q := n / d
  let r := n % d
  if d < 2 * r ∨ (2 * r = d ∧ q % 2 = 1) then q + 1 else q

/-- The magnitude nearest to the quotient `n / d`, the even one of two; infinity from the middle
between the largest magnitude and the next power of two on. -/
def nearest (n d : Nat) : Nat :=
  let n := n * 2 ^ (1074 : Nat)
  let step := Nat.log2 (n / d) + 1 - 53
  min (step * fractionWeight + roundDiv n (d * 2 ^ step)) infinityBits

end FuzzyInference.Binary64
