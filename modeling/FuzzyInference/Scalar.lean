/-!
The numbers that degrees and crisp values are made of. Inference is written over this interface, so
one set of definitions runs on binary64 and is read over exact arithmetic.
-/
namespace FuzzyInference

/-- Arithmetic and order of a number type with an infinity and an undefined value. -/
class Scalar (α : Type) extends Add α, Sub α, Mul α, Div α, Neg α where
  zero : α
  half : α
  one : α
  two : α
  infinity : α
  undefined : α
  abs : α → α
  sqrt : α → α
  eq : α → α → Bool
  lt : α → α → Bool
  le : α → α → Bool
  /-- An order of all values, undefined ones included. -/
  totalLe : α → α → Bool
  isNaN : α → Bool
  isFinite : α → Bool

/-- The further operations that formulas offer. -/
class Elementary (α : Type) extends Scalar α where
  pow : α → α → α
  remainder : α → α → α
  floor : α → α
  ceil : α → α
  round : α → α
  exp : α → α
  log : α → α
  log10 : α → α
  logOnePlus : α → α
  sin : α → α
  cos : α → α
  tan : α → α
  asin : α → α
  acos : α → α
  atan : α → α
  atan2 : α → α → α
  sinh : α → α
  cosh : α → α
  tanh : α → α
  asinh : α → α
  acosh : α → α
  atanh : α → α

/-- How numbers are read from a text and written into one. -/
class NumberText (α : Type) where
  read? : String → Option α
  text : α → String
  /-- The text with three decimals. -/
  fixedText : α → String

namespace Scalar

variable {α : Type} [Scalar α]

/-- The smaller operand; the other one if one of them is undefined, the second one on a tie. -/
def min (a b : α) : α := if isNaN b then a else if lt a b then a else b

/-- The larger operand; the other one if one of them is undefined, the second one on a tie. -/
def max (a b : α) : α := if isNaN b then a else if lt b a then a else b

/-- The logical values as numbers. -/
def truth (b : Bool) : α := if b then one else zero

/-- The value moved into a range; an undefined value stays. -/
def bound (x minimum maximum : α) : α :=
  if lt maximum x then maximum else if lt x minimum then minimum else x

end Scalar

end FuzzyInference
