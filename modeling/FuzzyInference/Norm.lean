import FuzzyInference.Comparison
import FuzzyInference.Formula.Basic
import FuzzyInference.Registry

/-!
T-norms and S-norms. They combine degrees: a T-norm stands for `and` and for the implication of a
rule, an S-norm for `or` and for the aggregation of conclusions. Besides the built-in ones a formula
over `a` and `b` serves as either, and so does any function under a name of its own.
-/
namespace FuzzyInference

open Scalar

variable {α : Type}

/-- A formula over `a` and `b`. -/
structure NormFormula (α : Type) where
  formula : Formula α

namespace NormFormula

/-- The first variable other than `a` and `b` is an error. -/
def ofFormula (formula : Formula α) : Except Error (NormFormula α) :=
  match formula.unboundVariables ["a", "b"] with
  | [] => .ok ⟨formula⟩
  | name :: _ => .error (.unresolved .variableName name)

def parse [Elementary α] [NumberText α] (text : String) : Except Error (NormFormula α) := do
  ofFormula (← Formula.parse text)

/-- The value of the formula, undefined where it has none. -/
def compute [Scalar α] (n : NormFormula α) (ε a b : α) : α :=
  match n.formula.evaluate ε [("a", a), ("b", b)] with
  | .ok value => value
  | .error _ => undefined

/-- The name of every norm that is a formula. -/
def name : String := "NormFunction"

end NormFormula

inductive TNorm (α : Type) where
  | algebraicProduct
  | boundedDifference
  | drasticProduct
  | einsteinProduct
  | hamacherProduct
  | minimum
  | nilpotentMinimum
  | formula (norm : NormFormula α)
  /-- A function of the tolerance and the degrees. -/
  | custom (name : String) (combine : α → α → α → α)

inductive SNorm (α : Type) where
  | algebraicSum
  | boundedSum
  | drasticSum
  | einsteinSum
  | hamacherSum
  | maximum
  | nilpotentMaximum
  | normalizedSum
  | unboundedSum
  | formula (norm : NormFormula α)
  /-- A function of the tolerance and the degrees. -/
  | custom (name : String) (combine : α → α → α → α)

namespace TNorm

def name : TNorm α → String
  | algebraicProduct => "AlgebraicProduct"
  | boundedDifference => "BoundedDifference"
  | drasticProduct => "DrasticProduct"
  | einsteinProduct => "EinsteinProduct"
  | hamacherProduct => "HamacherProduct"
  | minimum => "Minimum"
  | nilpotentMinimum => "NilpotentMinimum"
  | formula _ => NormFormula.name
  | custom name _ => name

/-- The combined degree under a tolerance. -/
def compute [Scalar α] (ε a b : α) : TNorm α → α
  | algebraicProduct => a * b
  | boundedDifference => max zero (a + b - one)
  | drasticProduct => if Tolerance.eq ε (max a b) one then min a b else zero
  | einsteinProduct => (a * b) / (two - (a + b - a * b))
  | hamacherProduct =>
    if Tolerance.eq ε (a + b) zero then zero else (a * b) / (a + b - a * b)
  | minimum => min a b
  | nilpotentMinimum => if Tolerance.gt ε (a + b) one then min a b else zero
  | formula norm => norm.compute ε a b
  | custom _ combine => combine ε a b

def builtins : List (TNorm α) :=
  [algebraicProduct, boundedDifference, drasticProduct, einsteinProduct, hamacherProduct, minimum,
   nilpotentMinimum]

/-- The built-in T-norms by name. -/
def registry : Registry (TNorm α) :=
  .ofList "TNormFactory" (builtins.map fun norm => (norm.name, norm))

end TNorm

namespace SNorm

def name : SNorm α → String
  | algebraicSum => "AlgebraicSum"
  | boundedSum => "BoundedSum"
  | drasticSum => "DrasticSum"
  | einsteinSum => "EinsteinSum"
  | hamacherSum => "HamacherSum"
  | maximum => "Maximum"
  | nilpotentMaximum => "NilpotentMaximum"
  | normalizedSum => "NormalizedSum"
  | unboundedSum => "UnboundedSum"
  | formula _ => NormFormula.name
  | custom name _ => name

/-- The combined degree under a tolerance. -/
def compute [Scalar α] (ε a b : α) : SNorm α → α
  | algebraicSum => a + b - a * b
  | boundedSum => min one (a + b)
  | drasticSum => if Tolerance.eq ε (min a b) zero then max a b else one
  | einsteinSum => (a + b) / (one + a * b)
  | hamacherSum =>
    if Tolerance.eq ε (a * b) one then one else (a + b - two * a * b) / (one - a * b)
  | maximum => max a b
  | nilpotentMaximum => if Tolerance.lt ε (a + b) one then max a b else one
  | normalizedSum => (a + b) / max one (a + b)
  | unboundedSum => a + b
  | formula norm => norm.compute ε a b
  | custom _ combine => combine ε a b

def builtins : List (SNorm α) :=
  [algebraicSum, boundedSum, drasticSum, einsteinSum, hamacherSum, maximum, nilpotentMaximum,
   normalizedSum, unboundedSum]

/-- The built-in S-norms by name. -/
def registry : Registry (SNorm α) :=
  .ofList "SNormFactory" (builtins.map fun norm => (norm.name, norm))

end SNorm

end FuzzyInference
