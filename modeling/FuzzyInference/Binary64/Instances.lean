import FuzzyInference.Scalar
import FuzzyInference.Binary64.Remainder
import FuzzyInference.Binary64.LogOnePlus
import FuzzyInference.Decimal.Shortest
import FuzzyInference.Decimal.Numeral

/-!
Binary64 as the number type that runs: its arithmetic, its texts and its default tolerance.
-/
namespace FuzzyInference.Binary64

instance : Elementary Float where
  zero := 0
  half := 0.5
  one := 1
  two := 2
  infinity := 1 / 0
  undefined := 0 / 0
  abs := Float.abs
  sqrt := Float.sqrt
  eq a b := a == b
  lt a b := a < b
  le a b := a ≤ b
  totalLe a b := place a ≤ place b
  isNaN := Float.isNaN
  isFinite := Float.isFinite
  pow := Float.pow
  remainder := remainder
  floor := Float.floor
  ceil := Float.ceil
  round := Float.round
  exp := Float.exp
  log := Float.log
  log10 := Float.log10
  logOnePlus := logOnePlus
  sin := Float.sin
  cos := Float.cos
  tan := Float.tan
  asin := Float.asin
  acos := Float.acos
  atan := Float.atan
  atan2 := Float.atan2
  sinh := Float.sinh
  cosh := Float.cosh
  tanh := Float.tanh
  asinh := Float.asinh
  acosh := Float.acosh
  atanh := Float.atanh

def ofNumeral (negative : Bool) : Numeral → Float
  | .undefined => 0 / 0
  | .infinity => ofMagnitude negative infinityBits
  | .finite value => ofMagnitude negative value.magnitude

def read? (text : String) : Option Float :=
  (Numeral.read? text.toList).map fun (negative, numeral) => ofNumeral negative numeral

/-- The text of a number, given how the digits of a finite magnitude are written. The sign stands
also before zero, and an undefined value has none. -/
def textWith (digits : Nat → List Char) (x : Float) : String :=
  if x.isNaN then "NaN"
  else
    let unsigned := if x.isInf then "inf".toList else digits (magnitude x)
    String.ofList (if isNegative x then '-' :: unsigned else unsigned)

/-- The shortest text that reads back, positional throughout. -/
def text : Float → String :=
  textWith fun bits => if bits = 0 then ['0'] else (Decimal.shortest bits).text

def fixedText : Float → String := textWith Decimal.fixed

instance : NumberText Float where
  read? := read?
  text := text
  fixedText := fixedText

/-- The tolerance of comparisons unless another one is set. -/
def defaultTolerance : Float := 1e-6

end FuzzyInference.Binary64
