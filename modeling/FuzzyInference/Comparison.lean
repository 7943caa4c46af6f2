import FuzzyInference.Error
import FuzzyInference.Scalar

/-!
Comparison up to an absolute tolerance. Values closer than the tolerance are equal and never
ordered, and an undefined value equals an undefined value, so that two missing degrees do not
differ.
-/
namespace FuzzyInference

namespace Tolerance

open Scalar

variable {α : Type} [Scalar α]

/-- A tolerance has to be finite and positive. -/
def isValid (ε : α) : Bool := isFinite ε && !Scalar.le ε zero

/-- Same value, closer than the tolerance, or both undefined. -/
def eq (ε a b : α) : Bool :=
  Scalar.eq a b || Scalar.lt (abs (a - b)) ε || (isNaN a && isNaN b)

def ne (ε a b : α) : Bool := !eq ε a b

def gt (ε a b : α) : Bool := !eq ε a b && Scalar.lt b a

def ge (ε a b : α) : Bool := eq ε a b || Scalar.lt b a

def lt (ε a b : α) : Bool := !eq ε a b && Scalar.lt a b

def le (ε a b : α) : Bool := eq ε a b || Scalar.lt a b

/-- The value as a tolerance. -/
def check [NumberText α] (value : α) : Except Error α :=
  if isValid value then .ok value
  else .error (.invalidSetting (.tolerance (NumberText.text value)))

end Tolerance

inductive Comparison where
  | less
  | lessOrEqual
  | equal
  | different
  | greaterOrEqual
  | greater
  deriving DecidableEq

namespace Comparison

/-- Whether the comparison holds under a tolerance. -/
def holds {α : Type} [Scalar α] (ε : α) : Comparison → α → α → Bool
  | less => Tolerance.lt ε
  | lessOrEqual => Tolerance.le ε
  | equal => Tolerance.eq ε
  | different => Tolerance.ne ε
  | greaterOrEqual => Tolerance.ge ε
  | greater => Tolerance.gt ε

def symbol : Comparison → String
  | less => "<"
  | lessOrEqual => "<="
  | equal => "=="
  | different => "!="
  | greaterOrEqual => ">="
  | greater => ">"

def ofSymbol? : String → Option Comparison
  | "<" => some less
  | "<=" => some lessOrEqual
  | "==" => some equal
  | "!=" => some different
  | ">=" => some greaterOrEqual
  | ">" => some greater
  | _ => none

theorem ofSymbol?_symbol (c : Comparison) : ofSymbol? c.symbol = some c := by
  cases c <;> rfl

/-- The message for a symbol that is no comparison. -/
def unknownSymbolMessage (symbol : String) : String := s!"未知的比较操作符: '{symbol}'"

end Comparison

end FuzzyInference
