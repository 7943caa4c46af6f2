import FuzzyInference.Formula.Element
import FuzzyInference.Ordered

/-!
The tree of a formula, its value, its variables and its texts without parentheses.
-/
namespace FuzzyInference.Formula

open Infix

inductive Node (α : Type) where
  | constant (value : α)
  | var (name : String)
  | unary (element : Element α) (operand : Node α)
  | binary (element : Element α) (left right : Node α)

namespace Node

variable {α : Type}

/-- The value of a tree; operands are evaluated from left to right. -/
def evaluate (ε : α) (value? : String → Option α) : Node α → Except Error α
  | constant value => .ok value
  | .var name =>
    match value? name with
    | some value => .ok value
    | none => .error (.unresolved .variableName name)
  | unary element operand => do
    let x ← operand.evaluate ε value?
    (element.evaluate ε [x]).mapError .parse
  | binary element left right => do
    let x ← left.evaluate ε value?
    let y ← right.evaluate ε value?
    (element.evaluate ε [x, y]).mapError .parse

/-- The variables of a tree from left to right, as often as they stand in it. -/
def vars : Node α → List String
  | constant _ => []
  | .var name => [name]
  | unary _ operand => operand.vars
  | binary _ left right => left.vars ++ right.vars

/-- The names of the variables in order, each once. -/
def names (node : Node α) : List String := node.vars.foldr (Ordered.insert id) []

variable [NumberText α]

def postfixText : Node α → String
  | constant value => NumberText.text value
  | .var name => name
  | unary element operand => s!"{operand.postfixText} {element.name}"
  | binary element left right => s!"{left.postfixText} {right.postfixText} {element.name}"

def prefixText : Node α → String
  | constant value => NumberText.text value
  | .var name => name
  | unary element operand => s!"{element.name} {operand.prefixText}"
  | binary element left right => s!"{element.name} {left.prefixText} {right.prefixText}"

end Node

end FuzzyInference.Formula
