import FuzzyInference.Hedge
import FuzzyInference.Norm

/-!
What rules know of the variables around them. While a rule is loaded, a catalogue resolves the names
of variables, terms and hedges; while it is evaluated, the catalogue gives degrees; when it fires,
the catalogue takes its conclusions.
-/
namespace FuzzyInference

inductive Role where
  | input
  | output
  deriving DecidableEq

structure VariableId where
  role : Role
  index : Nat
  deriving DecidableEq

/-- The position of a term in its variable. -/
structure TermId where
  index : Nat
  deriving DecidableEq

def VariableId.isOutput (id : VariableId) : Bool := id.role = .output

/-- A term that a rule asserts of an output variable to a degree. -/
structure Conclusion (α : Type) where
  variableId : VariableId
  termId : TermId
  degree : α
  implication : Option (TNorm α)

def Role.text : Role → String
  | .input => "Input"
  | .output => "Output"

def VariableId.text (id : VariableId) : String :=
  s!"VariableId \x7b kind: {id.role.text}, index: {id.index} \x7d"

def TermId.text (id : TermId) : String := s!"TermId({id.index})"

def Conclusion.text {α : Type} [NumberText α] (c : Conclusion α) : String :=
  let implication := match c.implication with
    | some norm => s!" ({norm.name})"
    | none => ""
  s!"{c.variableId.text}/{c.termId.text} = {NumberText.text c.degree}" ++ implication

/-- Catalogues `κ` with degrees in `α`. -/
class Catalogue (κ : Type) (α : outParam Type) where
  findVariable? : κ → String → Option VariableId
  findTerm? : κ → VariableId → String → Option TermId
  findHedge? : κ → String → Option (Hedge α)
  isEnabled : κ → VariableId → Bool
  /-- The membership of the present value of an input variable in a term. -/
  membership : κ → VariableId → TermId → α
  /-- The degree to which a term of an output variable has been concluded, under a tolerance. -/
  activationDegree : α → κ → VariableId → TermId → α
  conclude : κ → Conclusion α → κ

end FuzzyInference
