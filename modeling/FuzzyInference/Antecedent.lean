import FuzzyInference.Infix.Postfix
import FuzzyInference.Proposition.Draft

/-!
Antecedents: propositions combined by `and` and `or`, where `and` binds tighter and both group to
the right. An antecedent holds its text and, once it is loaded, the expression that the text stands
for in a catalogue. The degree of an expression combines the degrees of its propositions.
-/
namespace FuzzyInference

open Infix

variable {α κ : Type}

instance : Symbol Connective where
  name := Connective.text
  fixity
    | .and => ⟨.operator, 2, 60, .right⟩
    | .or => ⟨.operator, 2, 50, .right⟩

/-- The operators that an antecedent needs for its connectives. -/
structure Combinators (α : Type) where
  conjunction : Option (TNorm α) := none
  disjunction : Option (SNorm α) := none
  implication : Option (TNorm α) := none

namespace Expression

/-- Puts blanks around parentheses. -/
def padParens (text : List Char) : List Char :=
  text.flatMap fun c => if c = '(' ∨ c = ')' then [' ', c, ' '] else [c]

def token (word : String) : Token :=
  if word = "(" then .leftParen
  else if word = ")" then .rightParen
  else if (Connective.ofText? word).isSome then .operator word
  else .operand word

/-- The words of an antecedent and its parentheses. -/
def tokens (text : String) : List Token :=
  (Text.wordsAfter [] (padParens text.toList)).map token

section Parser

variable [Catalogue κ α]

/-- The expressions read so far, the newest of them first, and a proposition that is not complete.
-/
structure Progress (α : Type) where
  expressions : List (Expression α) := []
  draft : Draft α := .start

/-- Reads one item in postfix order. -/
def Progress.push (catalogue : κ) (s : Progress α) : Item Connective → Except Error (Progress α)
  | .operand word => do
    match ← s.draft.accept catalogue .antecedent word with
    | .draft draft => return { s with draft }
    | .complete p => return ⟨.proposition p :: s.expressions, .start⟩
  | .symbol connective =>
    if !s.draft.isStart then .error (.parse s.draft.incomplete)
    else match s.expressions with
      | right :: left :: rest =>
        .ok { s with expressions := .combination connective left right :: rest }
      | _ => .error (.parse (.missingOperand connective.text))

/-- The expression of a text in a catalogue. -/
def parse (catalogue : κ) (text : String) : Except Error (Expression α) := do
  let tokens := tokens text
  if tokens = [] then throw (.parse (.malformedExpression text))
  let items ← toPostfix Connective.ofText? text tokens
  let s ← items.foldlM (Progress.push catalogue) ({} : Progress α)
  if !s.draft.isStart then throw (.parse s.draft.incomplete)
  match s.expressions with
  | [root] => return root
  | _ => throw (.parse (.malformedExpression text))

end Parser

end Expression

section Degree

variable [Scalar α] [Catalogue κ α]

/-- The degree of a proposition: zero for a disabled variable; after `any` the hedges applied to an
undefined degree; else the hedges applied to what the catalogue gives for the term. -/
def Proposition.degree (ε : α) (catalogue : κ) (p : Proposition α) : Except Error α :=
  if !Catalogue.isEnabled catalogue p.subject.id then .ok Scalar.zero
  else if p.endsWithAny then .ok (p.applyHedges ε Scalar.undefined)
  else match p.term with
    | none => .error (.parse (.incompleteProposition p.text))
    | some term =>
      .ok <| p.applyHedges ε <| match p.subject.id.role with
        | .input => Catalogue.membership catalogue p.subject.id term.id
        | .output => Catalogue.activationDegree ε catalogue p.subject.id term.id

/-- The degree of an expression. A missing operator is an error before the operands are looked at.
-/
def Expression.degree (ε : α) (cs : Combinators α) (catalogue : κ) :
    Expression α → Except Error α
  | proposition p => p.degree ε catalogue
  | combination .and left right =>
    match cs.conjunction with
    | none => .error (.missingCombinator .conjunction)
    | some norm => do
      let a ← left.degree ε cs catalogue
      let b ← right.degree ε cs catalogue
      return norm.compute ε a b
  | combination .or left right =>
    match cs.disjunction with
    | none => .error (.missingCombinator .disjunction)
    | some norm => do
      let a ← left.degree ε cs catalogue
      let b ← right.degree ε cs catalogue
      return norm.compute ε a b

end Degree

structure Antecedent (α : Type) where
  text : String
  expression : Option (Expression α) := none

namespace Antecedent

def isLoaded (a : Antecedent α) : Bool := a.expression.isSome

def unload (a : Antecedent α) : Antecedent α := { a with expression := none }

variable [Catalogue κ α]

def load (catalogue : κ) (a : Antecedent α) : Except Error (Antecedent α) := do
  return { a with expression := some (← Expression.parse catalogue a.text) }

/-- The degree of a loaded antecedent. -/
def degree [Scalar α] (ε : α) (cs : Combinators α) (catalogue : κ) (a : Antecedent α) :
    Except Error α :=
  match a.expression with
  | some e => e.degree ε cs catalogue
  | none => .error (.notLoaded (.clause .antecedent a.text))

end Antecedent

end FuzzyInference
