import FuzzyInference.Error

/-!
Infix notation: its tokens, and what is known of a symbol when an infix text is read.
-/
namespace FuzzyInference.Infix

inductive Token where
  | operand (word : String)
  | operator (symbol : String)
  | function (name : String)
  | leftParen
  | rightParen
  | comma
  deriving DecidableEq

def Token.text : Token → String
  | .operand word => word
  | .operator symbol => symbol
  | .function name => name
  | .leftParen => "("
  | .rightParen => ")"
  | .comma => ","

inductive Kind where
  | operator
  | function
  deriving DecidableEq

inductive Associativity where
  | left
  | right
  deriving DecidableEq

/-- How a symbol stands among its operands. -/
structure Fixity where
  kind : Kind
  arity : Nat
  precedence : Int
  associativity : Associativity
  deriving DecidableEq

/-- Symbols that can stand between, before or around operands. -/
class Symbol (ι : Type) where
  name : ι → String
  fixity : ι → Fixity

/-- The name of the registry that symbols are looked up in. -/
def registryName : String := "FunctionFactory"

/-- The symbol is an operator, so precedence decides about it. -/
def Fixity.isOperator (f : Fixity) : Bool := f.kind = .operator

/-- A pending operator is complete when `incoming` follows its last operand: it binds tighter, or as
tight while the incoming one groups to the left. -/
def Fixity.yieldsTo (top incoming : Fixity) : Bool :=
  top.isOperator && match incoming.associativity with
    | .left => incoming.precedence ≤ top.precedence
    | .right => incoming.precedence < top.precedence

end FuzzyInference.Infix
