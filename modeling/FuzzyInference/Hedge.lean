import FuzzyInference.Formula.Basic
import FuzzyInference.Registry

/-!
Hedges modify a degree. Their names are the words that stand for them in a rule. Besides the
built-in ones a formula over `x` or any function serves as a hedge, under a name of its own.
-/
namespace FuzzyInference

open Scalar

variable {α : Type}

inductive Hedge (α : Type) where
  | any
  | extremely
  | not
  | seldom
  | somewhat
  | very
  /-- A formula over `x`. -/
  | formula (name : String) (formula : Formula α)
  /-- A function of the tolerance and the degree. -/
  | custom (name : String) (modify : α → α → α)

namespace Hedge

/-- The first variable other than `x` is an error. -/
def ofFormula (name : String) (formula : Formula α) : Except Error (Hedge α) :=
  match formula.unboundVariables ["x"] with
  | [] => .ok (.formula name formula)
  | other :: _ => .error (.unresolved .variableName other)

def parse [Elementary α] [NumberText α] (name text : String) : Except Error (Hedge α) := do
  ofFormula name (← Formula.parse text)

def name : Hedge α → String
  | any => "any"
  | extremely => "extremely"
  | not => "not"
  | seldom => "seldom"
  | somewhat => "somewhat"
  | very => "very"
  | formula name _ => name
  | custom name _ => name

/-- The word `any` ends a proposition without a term. -/
def isAny (h : Hedge α) : Bool := h.name = "any"

/-- The modified degree under a tolerance. -/
def apply [Scalar α] (ε x : α) : Hedge α → α
  | any => one
  | extremely => if le x half then two * x * x else one - two * (one - x) * (one - x)
  | not => one - x
  | seldom => if le x half then sqrt (half * x) else one - sqrt (half * (one - x))
  | somewhat => sqrt x
  | very => x * x
  | formula _ f =>
    match f.evaluate ε [("x", x)] with
    | .ok value => value
    | .error _ => undefined
  | custom _ modify => modify ε x

def builtins : List (Hedge α) := [any, extremely, not, seldom, somewhat, very]

/-- The built-in hedges by name. -/
def registry : Registry (Hedge α) :=
  .ofList "HedgeFactory" (builtins.map fun hedge => (hedge.name, hedge))

end Hedge

end FuzzyInference
