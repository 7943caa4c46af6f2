import FuzzyInference.Decimal.Basic

/-!
The shortest decimal number that reads back. For a growing number of digits the two neighbours of
the value on that decimal grid are tried; the first grid with a neighbour that reads back gives the
result, the nearer of two neighbours is taken, and the upper one if both are equally near. The exact
decimal expansion stands in where no grid of up to 17 digits has one.
-/
namespace FuzzyInference.Decimal

attribute [local instance (2000)] instPowNat

/-- The exponent `p` with `10 ^ (p - 1) ≤ n / d < 10 ^ p`. -/
def order (n d : Nat) : Int :=
  let p : Int := (width n : Int) - width d
  if d * 10 ^ p.toNat ≤ n * 10 ^ (-p).toNat then p + 1 else p

/-- The neighbour on the grid of `10 ^ exponent` that reads back as the magnitude, the nearer one of
two. -/
def onGrid (bits : Nat) (exponent : Int) : Option Decimal :=
  let n := Binary64.numerator bits * 10 ^ (-exponent).toNat
  let d := Binary64.denominator bits * 10 ^ exponent.toNat
  let lower : Decimal := ⟨n / d, exponent⟩
  let upper : Decimal := ⟨n / d + 1, exponent⟩
  if lower.magnitude = bits ∧ (2 * (n % d) < d ∨ upper.magnitude ≠ bits) then some lower
  else if upper.magnitude = bits then some upper
  else none

/-- The decimal expansion of a magnitude. -/
def exact (bits : Nat) : Decimal :=
  let places := 1074 - Binary64.scale bits
  ⟨Binary64.numerator bits * 5 ^ places, -places⟩

def shortest (bits : Nat) : Decimal :=
  let p := order (Binary64.numerator bits) (Binary64.denominator bits)
  match (List.range' 1 17).findSome? fun count => onGrid bits (p - (count : Nat)) with
  | some d => d.normalize
  | none => exact bits

/-- A finite magnitude to three decimals, the even neighbour on a tie. -/
def fixed (bits : Nat) : List Char :=
  positional
    (Binary64.roundDiv (Binary64.numerator bits * 1000) (Binary64.denominator bits)) 3

end FuzzyInference.Decimal
