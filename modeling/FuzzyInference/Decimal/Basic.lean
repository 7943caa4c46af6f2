import FuzzyInference.Binary64.Basic

/-!
Decimal numbers, their positional texts and their nearest binary64 magnitudes.
-/
namespace FuzzyInference

/-- The number `digits * 10 ^ exponent`. -/
structure Decimal where
  digits : Nat
  exponent : Int
  deriving DecidableEq

namespace Decimal

attribute [local instance (2000)] instPowNat

def numerator (d : Decimal) : Nat := d.digits * 10 ^ d.exponent.toNat

def denominator (d : Decimal) : Nat := 10 ^ (-d.exponent).toNat

/-- How many digits a number has; zero has one. -/
def width (n : Nat) : Nat := (Nat.toDigits 10 n).length

/-- The nearest magnitude. Numbers that are far too large or too small for a finite magnitude are
told apart by their order before a power of ten is formed. -/
def magnitude (d : Decimal) : Nat :=
  let order := (width d.digits : Int) + d.exponent
  if d.digits = 0 ∨ order < -330 then 0
  else if 310 < order then Binary64.infinityBits
  else Binary64.nearest d.numerator d.denominator

/-- The digits of a number with a point before the last `places` of them and at least one digit
before the point. -/
def positional (n places : Nat) : List Char :=
  let digits := Nat.toDigits 10 n
  let padded := List.replicate (places + 1 - digits.length) '0' ++ digits
  let whole := padded.length - places
  if places = 0 then padded else padded.take whole ++ '.' :: padded.drop whole

/-- The positional text of a decimal number. -/
def text (d : Decimal) : List Char := positional d.numerator (-d.exponent).toNat

/-- The same number without zeros at the end of its digits. -/
def normalize (d : Decimal) : Decimal :=
  if h : d.digits ≠ 0 ∧ d.digits % 10 = 0 then normalize ⟨d.digits / 10, d.exponent + 1⟩ else d
termination_by d.digits
decreasing_by exact Nat.div_lt_self (by omega) (by decide)

end Decimal

end FuzzyInference
