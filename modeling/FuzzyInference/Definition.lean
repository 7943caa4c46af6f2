import FuzzyInference.Block
import FuzzyInference.Json.Value

/-!
Definitions of rule blocks. A definition names the components of a block by the keys of their
registries and holds the texts of its rules. It is written as a JSON object; it is read from an
object, where unknown keys are ignored, or from an array of the values in the order of the fields.
-/
namespace FuzzyInference

structure Definition where
  name : String
  description : String := ""
  enabled : Bool := true
  conjunction : Option String := none
  disjunction : Option String := none
  implication : Option String := none
  activation : Option String := none
  rules : List String := []
  deriving DecidableEq

/-- The components that definitions refer to. -/
structure Components (α : Type) where
  tnorms : Registry (TNorm α)
  snorms : Registry (SNorm α)
  activations : Registry (Activation α)

/-- The built-in components. -/
def Components.builtin {α : Type} [Scalar α] : Components α where
  tnorms := TNorm.registry
  snorms := SNorm.registry
  activations := Activation.registry

namespace Definition

open Json

/-- The keys in the order of the fields. -/
def keys : List String :=
  ["name", "description", "enabled", "conjunction", "disjunction", "implication", "activation",
   "rules"]

/-- The definition with the given members. Only the name has to be there. -/
def ofMembers? (members : List (String × List Json.Token)) : Option Definition := do
  let name ← field? members "name" none string?
  let description ← field? members "description" (some "") string?
  let enabled ← field? members "enabled" (some true) bool?
  let conjunction ← field? members "conjunction" (some none) optionalString?
  let disjunction ← field? members "disjunction" (some none) optionalString?
  let implication ← field? members "implication" (some none) optionalString?
  let activation ← field? members "activation" (some none) optionalString?
  let rules ← field? members "rules" (some []) strings?
  return { name, description, enabled, conjunction, disjunction, implication, activation, rules }

/-- The definition of a JSON text. -/
def ofJson? (text : String) : Option Definition := do
  let tokens ← tokens? text.toList
  match members? tokens with
  | some members => ofMembers? members
  | none =>
    let values ← elements? tokens
    if values.length ≤ keys.length then ofMembers? (keys.zip values) else none

/-- The lines of a list of values, each after an indentation, between brackets. -/
def bracketed (before after : Char) (indent : Nat) (values : List (List Char)) : List Char :=
  let margin (n : Nat) := '\n' :: List.replicate n ' '
  match values with
  | [] => [before, after]
  | values =>
    before :: [','].intercalate (values.map (margin (indent + 2) ++ ·)) ++ margin indent ++ [after]

/-- The members that are written: an empty description and absent components are left out. -/
def members (d : Definition) : List (String × List Char) :=
  let string (s : String) := quote s.toList
  let optional (key : String) (value : Option String) :=
    (value.map fun s => (key, string s)).toList
  ("name", string d.name) ::
    (if d.description = "" then [] else [("description", string d.description)]) ++
    [("enabled", (if d.enabled then "true" else "false").toList)] ++
    optional "conjunction" d.conjunction ++ optional "disjunction" d.disjunction ++
    optional "implication" d.implication ++ optional "activation" d.activation ++
    [("rules", bracketed '[' ']' 2 (d.rules.map string))]

/-- The JSON text of a definition, a member on each line. -/
def toJson (d : Definition) : String :=
  String.ofList <| bracketed '\x7b' '\x7d' 0 <|
    d.members.map fun (key, value) => quote key.toList ++ [':', ' '] ++ value

variable {α : Type} [Scalar α] [NumberText α]

/-- The definition of a block. -/
def ofBlock (b : Block α) : Definition where
  name := b.name
  description := b.description
  enabled := b.enabled
  conjunction := b.combinators.conjunction.map TNorm.name
  disjunction := b.combinators.disjunction.map SNorm.name
  implication := b.combinators.implication.map TNorm.name
  activation := b.activation.map Activation.text
  rules := b.rules.map Rule.text

/-- The component of a key that may be absent. -/
def component {T : Type} (find : String → Except Error T) (key : Option String) :
    Except BlockError (Option T) :=
  match key with
  | none => .ok none
  | some key => ((find key).map some).mapError .component

/-- Reads rule texts from a position on: the rules, or all failures. -/
def rulesFrom (index : Nat) : List String → Except (List RuleFailure) (List (Rule α))
  | [] => .ok []
  | text :: rest =>
    match Rule.parse text, rulesFrom (index + 1) rest with
    | .ok rule, .ok rules => .ok (rule :: rules)
    | .ok _, .error failures => .error failures
    | .error cause, .ok _ => .error [⟨index, text, cause⟩]
    | .error cause, .error failures => .error (⟨index, text, cause⟩ :: failures)

/-- The block of a definition, with its rules not loaded. The first component that fails is the
error, and else all the rules that fail. -/
def build (components : Components α) (d : Definition) : Except BlockError (Block α) := do
  let conjunction ← component components.tnorms.find d.conjunction
  let disjunction ← component components.snorms.find d.disjunction
  let implication ← component components.tnorms.find d.implication
  let activation ← component (Activation.parse components.activations) d.activation
  let rules ← (rulesFrom 0 d.rules).mapError (.rules d.name)
  return {
    name := d.name
    description := d.description
    enabled := d.enabled
    combinators := { conjunction, disjunction, implication }
    activation
    rules }

end Definition

end FuzzyInference
