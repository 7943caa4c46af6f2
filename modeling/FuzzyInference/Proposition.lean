import FuzzyInference.Catalogue

/-!
Propositions such as `speed is very high`, and their combination by `and` and `or`. Variables and
terms are resolved references; their names serve for display only.
-/
namespace FuzzyInference

/-- A resolved name. -/
structure Reference (ι : Type) where
  id : ι
  name : String
  deriving DecidableEq

/-- The term is absent where the last hedge is `any`. -/
structure Proposition (α : Type) where
  subject : Reference VariableId
  hedges : List (Hedge α)
  term : Option (Reference TermId)

namespace Proposition

variable {α : Type}

def endsWithAny (p : Proposition α) : Bool := p.hedges.getLast?.any Hedge.isAny

/-- Applies the hedges to a degree, the one next to the term first. -/
def applyHedges [Scalar α] (ε : α) (p : Proposition α) (degree : α) : α :=
  p.hedges.foldr (fun hedge degree => hedge.apply ε degree) degree

/-- The words of a proposition. -/
def words (p : Proposition α) : List String :=
  p.subject.name :: Keyword.isWord.text :: p.hedges.map Hedge.name ++
    (p.term.map Reference.name).toList

def text (p : Proposition α) : String := Text.unwords p.words

end Proposition

inductive Connective where
  | and
  | or
  deriving DecidableEq

namespace Connective

def keyword : Connective → Keyword
  | and => .andWord
  | or => .orWord

def text (c : Connective) : String := c.keyword.text

def ofText? : String → Option Connective
  | "and" => some and
  | "or" => some or
  | _ => none

theorem ofText?_text (c : Connective) : ofText? c.text = some c := by cases c <;> rfl

end Connective

inductive Expression (α : Type) where
  | proposition (p : Proposition α)
  | combination (connective : Connective) (left right : Expression α)

namespace Expression

variable {α : Type}

/-- The propositions from left to right. -/
def propositions : Expression α → List (Proposition α)
  | proposition p => [p]
  | combination _ left right => left.propositions ++ right.propositions

def postfixText : Expression α → String
  | proposition p => p.text
  | combination connective left right =>
    s!"{left.postfixText} {right.postfixText} {connective.text}"

def isCombination : Expression α → Bool
  | proposition _ => false
  | combination .. => true

/-- The infix text; combinations within a combination stand in parentheses. -/
def text : Expression α → String
  | proposition p => p.text
  | combination connective left right =>
    let operand (e : Expression α) (text : String) := if e.isCombination then s!"({text})" else text
    s!"{operand left left.text} {connective.text} {operand right right.text}"

end Expression

end FuzzyInference
