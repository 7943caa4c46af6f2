import FuzzyInference.Formula.Node
import FuzzyInference.Formula.Token
import FuzzyInference.Infix.Postfix

/-!
Formulas: numeric expressions over named variables. A formula is read into postfix order and from
there into a tree. It carries values of its own for some variables; a value given for one evaluation
comes first.
-/
namespace FuzzyInference

open Infix

variable {α : Type}

namespace Formula

section Tree

variable [NumberText α]

/-- The leaf of an operand word: a number if it starts like one, and else a variable. -/
def leaf (word : String) : Except ParseError (Node α) :=
  if word.toList.head?.any isNumeralChar then
    match NumberText.read? word with
    | some value => .ok (.constant value)
    | none => .error (.malformedExpression word)
  else .ok (.var word)

/-- Adds one item in postfix order to the trees read so far, the newest of them first. -/
def pushItem (trees : List (Node α)) : Item (Element α) → Except ParseError (List (Node α))
  | .operand word => do return (← leaf word) :: trees
  | .symbol element =>
    match element.method, trees with
    | .unary _, operand :: rest => .ok (.unary element operand :: rest)
    | .binary _, right :: left :: rest => .ok (.binary element left right :: rest)
    | _, _ => .error (.missingOperand element.name)

/-- The tree of a text. -/
def tree (v : Vocabulary α) (text : String) : Except Error (Node α) := do
  let tokens ← (tokens v text).mapError .parse
  if tokens = [] then throw (.parse (.malformedExpression text))
  let items ← toPostfix v.get? text tokens
  match ← (items.foldlM pushItem []).mapError .parse with
  | [root] => return root
  | _ => throw (.parse (.malformedExpression text))

end Tree

end Formula

structure Formula (α : Type) where
  text : String
  root : Formula.Node α
  /-- Values of variables in the order of their names. -/
  values : List (String × α) := []

namespace Formula

/-- Reads a formula with the given vocabulary. -/
def parseWith [NumberText α] (v : Vocabulary α) (text : String) : Except Error (Formula α) :=
  (tree v text).map fun root => { text := Text.trim text, root }

/-- Reads a formula with the built-in vocabulary. -/
def parse [Elementary α] [NumberText α] (text : String) : Except Error (Formula α) :=
  parseWith builtin text

/-- Gives a variable a value that stays with the formula. -/
def setVariable (f : Formula α) (name : String) (value : α) : Formula α :=
  { f with values := Ordered.insert Prod.fst (name, value) f.values }

def value? (f : Formula α) (name : String) : Option α :=
  (Ordered.get? Prod.fst f.values name).map Prod.snd

/-- The variables that have no value of their own and are not among `bound`. -/
def unboundVariables (f : Formula α) (bound : List String) : List String :=
  f.root.names.filter fun name => name ∉ bound ∧ (f.value? name).isNone

/-- The value under a tolerance, with values for this evaluation. -/
def evaluate (f : Formula α) (ε : α) (bindings : List (String × α)) : Except Error α :=
  f.root.evaluate ε fun name => (bindings.lookup name).or (f.value? name)

end Formula

end FuzzyInference
