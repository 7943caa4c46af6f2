import FuzzyInference.Infix.Token
import FuzzyInference.Scalar

/-!
The elements of formulas: operators and functions with one or two operands.
-/
namespace FuzzyInference.Formula

open Infix

/-- What an element computes from a tolerance and its operands. -/
inductive Method (α : Type) where
  | unary (apply : α → α → α)
  | binary (apply : α → α → α → α)

def Method.arity {α : Type} : Method α → Nat
  | unary _ => 1
  | binary _ => 2

structure Element (α : Type) where
  name : String
  description : String
  kind : Kind
  method : Method α
  precedence : Int
  associativity : Associativity

namespace Element

variable {α : Type}

def arity (e : Element α) : Nat := e.method.arity

def isOperator (e : Element α) : Bool := e.kind = .operator

def isFunction (e : Element α) : Bool := e.kind = .function

instance : Symbol (Element α) where
  name := Element.name
  fixity e := ⟨e.kind, e.arity, e.precedence, e.associativity⟩

/-- A function takes no part in the comparison of precedences. -/
def function (name description : String) (method : Method α) : Element α :=
  ⟨name, description, .function, method, 0, .left⟩

/-- The value of an element at as many operands as it has places. -/
def evaluate (e : Element α) (ε : α) (operands : List α) : Except ParseError α :=
  match e.method, operands with
  | .unary apply, [x] => .ok (apply ε x)
  | .binary apply, [x, y] => .ok (apply ε x y)
  | _, _ => .error (.arityMismatch e.name e.arity operands.length)

end Element

end FuzzyInference.Formula
