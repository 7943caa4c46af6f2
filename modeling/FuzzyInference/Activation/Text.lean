import FuzzyInference.Comparison
import FuzzyInference.Decimal.Numeral
import FuzzyInference.Registry
import FuzzyInference.Text.Blank

/-!
Activation strategies and their texts. A strategy decides which rules of a block fire in a cycle.
Its text is a name and parameters; a missing parameter has its default. Strategies without a text of
parameters come from a registry, so a registry decides which names there are without parameters.
-/
namespace FuzzyInference

inductive Activation (α : Type) where
  /-- Every rule, in order. -/
  | general
  /-- Every rule, with its share of the sum of all degrees. -/
  | proportional
  /-- In order, the first `count` rules with a positive degree of at least `threshold`. -/
  | first (count : Nat) (threshold : α)
  /-- The same from the last rule on. -/
  | last (count : Nat) (threshold : α)
  /-- The `count` rules with the highest positive degrees. -/
  | highest (count : Nat)
  /-- The `count` rules with the lowest positive degrees. -/
  | lowest (count : Nat)
  /-- The rules whose degree compares with a value. -/
  | threshold (comparison : Comparison) (value : α)

namespace Activation

variable {α : Type}

def name : Activation α → String
  | general => "General"
  | proportional => "Proportional"
  | first .. => "First"
  | last .. => "Last"
  | highest .. => "Highest"
  | lowest .. => "Lowest"
  | threshold .. => "Threshold"

/-- The text of the parameters, empty if there are none. -/
def parameters [NumberText α] : Activation α → String
  | general | proportional => ""
  | first count value | last count value => s!"{count} {NumberText.text value}"
  | highest count | lowest count => toString count
  | threshold comparison value => s!"{comparison.symbol} {NumberText.text value}"

def text [NumberText α] (a : Activation α) : String :=
  if a.parameters = "" then a.name else s!"{a.name} {a.parameters}"

/-- The built-in strategies with their default parameters. -/
def defaults [Scalar α] : List (Activation α) :=
  [first 1 Scalar.zero, general, highest 1, last 1 Scalar.zero, lowest 1, proportional,
   threshold .greaterOrEqual Scalar.zero]

def registry [Scalar α] : Registry (Activation α) :=
  .ofList "ActivationFactory" (defaults.map fun a => (a.name, a))

/-- The value of a parameter, or its default if it is absent. -/
def parameter {β : Type} (name : String) (read? : String → Option β) (default : β) :
    Option String → Except Error β
  | none => .ok default
  | some word =>
    match read? word with
    | some value => .ok value
    | none => .error (.invalidSetting (.parameter name word))

/-- How many parameters a strategy takes, if it takes any. -/
def parameterLimit? : String → Option Nat
  | "First" | "Last" | "Threshold" => some 2
  | "Highest" | "Lowest" => some 1
  | _ => none

variable [Scalar α] [NumberText α]

/-- The strategy of a name with parameters. -/
def withParameters (registry : Registry (Activation α)) (name : String) (words : List String) :
    Except Error (Activation α) :=
  let count := parameter name Numeral.count? 1 words[0]?
  let comparison := parameter name Comparison.ofSymbol? .greaterOrEqual words[0]?
  let value := parameter name NumberText.read? Scalar.zero words[1]?
  match name with
  | "First" => return first (← count) (← value)
  | "Last" => return last (← count) (← value)
  | "Highest" => return highest (← count)
  | "Lowest" => return lowest (← count)
  | "Threshold" => return threshold (← comparison) (← value)
  | _ => do
    let _ ← registry.find name
    throw (.invalidSetting (.unexpectedParameters name (Text.unwords words)))

/-- The strategy of a text. -/
def parse (registry : Registry (Activation α)) (text : String) : Except Error (Activation α) :=
  match Text.words text with
  | [] => registry.find ""
  | [name] => registry.find name
  | name :: words => do
    let activation ← withParameters registry name words
    if (parameterLimit? name).any (· < words.length) then
      throw (.invalidSetting (.tooManyParameters name (Text.unwords words)))
    return activation

end Activation

end FuzzyInference
