import FuzzyInference.Decimal.Basic

/-!
Numerals. A numeral is an optional sign followed by digits with at most one point and an optional
exponent, or by one of the words for infinity and for the undefined value in any case; there is at
least one digit before the exponent.
-/
namespace FuzzyInference

inductive Numeral where
  | undefined
  | infinity
  | finite (value : Decimal)
  deriving DecidableEq

namespace Numeral

attribute [local instance (2000)] instPowNat

/-- The value of digits in base ten. -/
def ofDigits (digits : List Char) : Nat :=
  digits.foldl (fun n c => 10 * n + (c.toNat - '0'.toNat)) 0

/-- The optional sign and what follows it. -/
def sign : List Char → Bool × List Char
  | '-' :: rest => (true, rest)
  | '+' :: rest => (false, rest)
  | rest => (false, rest)

/-- The exponent that ends a numeral. -/
def exponent? : List Char → Option Int
  | [] => some 0
  | c :: rest =>
    let (negative, digits) := sign rest
    if (c = 'e' ∨ c = 'E') ∧ digits ≠ [] ∧ digits.all Char.isDigit then
      some (if negative then -(ofDigits digits : Int) else ofDigits digits)
    else none

/-- Digits with at most one point, and an exponent. -/
def decimal? (text : List Char) : Option Decimal :=
  let whole := text.takeWhile Char.isDigit
  let afterWhole := text.dropWhile Char.isDigit
  let (fraction, afterFraction) := match afterWhole with
    | '.' :: rest => (rest.takeWhile Char.isDigit, rest.dropWhile Char.isDigit)
    | rest => ([], rest)
  if whole = [] ∧ fraction = [] then none
  else (exponent? afterFraction).map fun e =>
    ⟨ofDigits (whole ++ fraction), e - fraction.length⟩

/-- A numeral without its sign. -/
def unsigned? (text : List Char) : Option Numeral :=
  match String.ofList (text.map Char.toLower) with
  | "nan" => some undefined
  | "inf" => some infinity
  | "infinity" => some infinity
  | _ => (decimal? text).map finite

/-- Whether a numeral is negative, and the numeral. -/
def read? (text : List Char) : Option (Bool × Numeral) :=
  let (negative, rest) := sign text
  (unsigned? rest).map fun numeral => (negative, numeral)

/-- The largest count. -/
def maxCount : Nat := 2 ^ (64 : Nat) - 1

/-- A count: digits after an optional plus sign, at most `maxCount`. -/
def count? (text : String) : Option Nat :=
  let digits := match text.toList with
    | '+' :: rest => rest
    | rest => rest
  if digits ≠ [] ∧ digits.all Char.isDigit ∧ ofDigits digits ≤ maxCount then some (ofDigits digits)
  else none

end Numeral

end FuzzyInference
