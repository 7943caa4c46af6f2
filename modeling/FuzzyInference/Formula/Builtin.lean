import FuzzyInference.Comparison
import FuzzyInference.Formula.Vocabulary

/-!
The built-in operators and functions of formulas. A value is true when it equals one under the
tolerance; logical results are one and zero.
-/
namespace FuzzyInference.Formula

open Scalar Elementary Infix

variable {α : Type} [Elementary α]

def isTrue (ε x : α) : Bool := Tolerance.eq ε x one

def operators : List (Element α) :=
  [⟨"!", "Logical NOT", .operator, .unary fun ε x => truth !isTrue ε x, 100, .right⟩,
   ⟨"~", "Negation", .operator, .unary fun _ x => -x, 100, .right⟩,
   ⟨"^", "Power", .operator, .binary fun _ => pow, 90, .right⟩,
   ⟨"*", "Multiplication", .operator, .binary fun _ x y => x * y, 80, .left⟩,
   ⟨"/", "Division", .operator, .binary fun _ x y => x / y, 80, .left⟩,
   ⟨"%", "Modulo", .operator, .binary fun _ => remainder, 80, .left⟩,
   ⟨"+", "Addition", .operator, .binary fun _ x y => x + y, 70, .left⟩,
   ⟨"-", "Subtraction", .operator, .binary fun _ x y => x - y, 70, .left⟩,
   ⟨"and", "Logical AND", .operator,
     .binary fun ε x y => truth (isTrue ε x && isTrue ε y), 60, .right⟩,
   ⟨"or", "Logical OR", .operator,
     .binary fun ε x y => truth (isTrue ε x || isTrue ε y), 50, .right⟩]

def comparisons : List (Element α) :=
  [.function "gt" "Greater than (>)" (.binary fun ε x y => truth (Tolerance.gt ε x y)),
   .function "ge" "Greater than or equal to (>=)"
     (.binary fun ε x y => truth (Tolerance.ge ε x y)),
   .function "eq" "Equal to (==)" (.binary fun ε x y => truth (Tolerance.eq ε x y)),
   .function "neq" "Not equal to (!=)" (.binary fun ε x y => truth (Tolerance.ne ε x y)),
   .function "le" "Less than or equal to (<=)" (.binary fun ε x y => truth (Tolerance.le ε x y)),
   .function "lt" "Less than (<)" (.binary fun ε x y => truth (Tolerance.lt ε x y))]

def unaryFunctions : List (Element α) :=
  [.function "acos" "Inverse cosine" (.unary fun _ => acos),
   .function "asin" "Inverse sine" (.unary fun _ => asin),
   .function "atan" "Inverse tangent" (.unary fun _ => atan),
   .function "ceil" "Ceiling" (.unary fun _ => ceil),
   .function "cos" "Cosine" (.unary fun _ => cos),
   .function "cosh" "Hyperbolic cosine" (.unary fun _ => cosh),
   .function "exp" "Exponential" (.unary fun _ => exp),
   .function "abs" "Absolute" (.unary fun _ => abs),
   .function "floor" "Floor" (.unary fun _ => floor),
   .function "log" "Natural logarithm" (.unary fun _ => log),
   .function "log10" "Common logarithm" (.unary fun _ => log10),
   .function "round" "Round" (.unary fun _ => round),
   .function "sin" "Sine" (.unary fun _ => sin),
   .function "sinh" "Hyperbolic sine" (.unary fun _ => sinh),
   .function "sqrt" "Square root" (.unary fun _ => sqrt),
   .function "tan" "Tangent" (.unary fun _ => tan),
   .function "tanh" "Hyperbolic tangent" (.unary fun _ => tanh),
   .function "log1p" "Natural logarithm plus one" (.unary fun _ => logOnePlus),
   .function "acosh" "Inverse hyperbolic cosine" (.unary fun _ => acosh),
   .function "asinh" "Inverse hyperbolic sine" (.unary fun _ => asinh),
   .function "atanh" "Inverse hyperbolic tangent" (.unary fun _ => atanh)]

def binaryFunctions : List (Element α) :=
  [.function "atan2" "Inverse tangent (y,x)" (.binary fun _ => atan2),
   .function "pow" "Power" (.binary fun _ => pow),
   .function "fmod" "Floating-point remainder" (.binary fun _ => remainder),
   .function "min" "Minimum" (.binary fun _ => Scalar.min),
   .function "max" "Maximum" (.binary fun _ => Scalar.max)]

/-- The built-in vocabulary. -/
def builtin : Vocabulary α :=
  (operators ++ comparisons ++ unaryFunctions ++ binaryFunctions).foldl Vocabulary.add ⟨[]⟩

end FuzzyInference.Formula
