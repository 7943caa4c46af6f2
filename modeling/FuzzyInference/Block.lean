import FuzzyInference.Activation.Run

/-!
Rule blocks: rules that share their operators and their activation strategy. Loading a block tries
every rule and reports all that fail.
-/
namespace FuzzyInference

structure Block (α : Type) where
  name : String
  description : String := ""
  enabled : Bool := true
  combinators : Combinators α := {}
  activation : Option (Activation α) := none
  rules : List (Rule α) := []

namespace Block

variable {α κ : Type} [Scalar α]

def addRule (b : Block α) (rule : Rule α) : Block α := { b with rules := b.rules ++ [rule] }

/-- The rule at a position and the block without it. -/
def removeRule? (b : Block α) (index : Nat) : Option (Rule α × Block α) :=
  b.rules[index]?.map fun rule => (rule, { b with rules := b.rules.eraseIdx index })

def unload (b : Block α) : Block α := { b with rules := b.rules.map Rule.unload }

def deactivate (b : Block α) : Block α := { b with rules := b.rules.map Rule.deactivate }

variable [NumberText α] [Catalogue κ α]

/-- The failures among the loads of rules that start at a position. -/
def failuresFrom (index : Nat) : List (Outcome (Rule α) Error) → List RuleFailure
  | [] => []
  | loaded :: rest =>
    match loaded.error with
    | some cause => ⟨index, loaded.state.text, cause⟩ :: failuresFrom (index + 1) rest
    | none => failuresFrom (index + 1) rest

/-- Loads every rule from a catalogue. -/
def load (catalogue : κ) (b : Block α) : Outcome (Block α) BlockError :=
  let loads := b.rules.map (Rule.load catalogue)
  let error := match failuresFrom 0 loads with
    | [] => none
    | failures => some (.rules b.name failures)
  ⟨{ b with rules := loads.map Outcome.state }, error⟩

/-- Unloads every rule and loads it again. -/
def reload (catalogue : κ) (b : Block α) : Outcome (Block α) BlockError := b.unload.load catalogue

/-- A cycle of the block, if it is enabled; without a strategy every rule is activated in order. -/
def run (ε : α) (catalogue : κ) (b : Block α) : Outcome (Block α × κ) Error :=
  if b.enabled then
    let run := (b.activation.getD .general).run ε b.combinators b.rules catalogue
    ⟨({ b with rules := run.rules }, run.catalogue), run.error⟩
  else ⟨(b, catalogue), none⟩

/-- A line for each part of the block that is set, and one for each rule. -/
def text (b : Block α) : String :=
  let line (label value : String) := s!"  {label}: {value}\n"
  let optional (label : String) (value : Option String) :=
    (value.map (line label)).getD ""
  s!"RuleBlock: {b.name}\n" ++
    (if b.enabled then "" else line "enabled" "false") ++
    optional "conjunction" (b.combinators.conjunction.map TNorm.name) ++
    optional "disjunction" (b.combinators.disjunction.map SNorm.name) ++
    optional "implication" (b.combinators.implication.map TNorm.name) ++
    optional "activation" (b.activation.map Activation.text) ++
    String.join (b.rules.map fun rule => line "rule" rule.text)

end Block

end FuzzyInference
