import FuzzyInference.Antecedent
import FuzzyInference.Consequent
import FuzzyInference.Outcome
import FuzzyInference.Rule.Text

/-!
Rules. A rule is loaded when both of its clauses are. In each cycle it is deactivated, activated
with the weighted degree of its antecedent, and triggered if it is enabled and that degree is
positive.
-/
namespace FuzzyInference

structure Rule (α : Type) where
  antecedent : Antecedent α
  consequent : Consequent α
  weight : α
  enabled : Bool
  /-- The degree of the present cycle. -/
  degree : α
  triggered : Bool

namespace Rule

variable {α κ : Type} [Scalar α]

/-- A rule that is enabled and not loaded. -/
def ofText (t : RuleText α) : Rule α :=
  { antecedent := { text := t.antecedent }
    consequent := { text := t.consequent }
    weight := t.weight
    enabled := true
    degree := Scalar.zero
    triggered := false }

def isLoaded (r : Rule α) : Bool := r.antecedent.isLoaded && r.consequent.isLoaded

def deactivate (r : Rule α) : Rule α := { r with degree := Scalar.zero, triggered := false }

def unload (r : Rule α) : Rule α :=
  { r.deactivate with antecedent := r.antecedent.unload, consequent := r.consequent.unload }

section Text

variable [NumberText α]

/-- A rule of two clauses and a weight that is finite and positive. -/
def new (antecedent consequent : String) (weight : α) : Except Error (Rule α) :=
  if RuleText.isWeight weight then .ok (ofText ⟨antecedent, consequent, weight⟩)
  else .error (.ruleText (.invalidWeight (NumberText.text weight)))

def parse (text : String) : Except Error (Rule α) := do
  let t ← RuleText.parse text
  new t.antecedent t.consequent t.weight

def text (r : Rule α) : String :=
  RuleText.text ⟨r.antecedent.text, r.consequent.text, r.weight⟩

def setWeight (r : Rule α) (weight : α) : Except Error (Rule α) :=
  if RuleText.isWeight weight then .ok { r with weight }
  else .error (.ruleText (.invalidWeight (NumberText.text weight)))

end Text

variable [Catalogue κ α]

/-- The rule with both clauses loaded from a catalogue. -/
def resolve (catalogue : κ) (r : Rule α) : Except Error (Rule α) := do
  let antecedent ← r.antecedent.load catalogue
  let consequent ← r.consequent.load catalogue
  return { r with antecedent, consequent }

/-- Loads both clauses of a rule; if one of them fails, the rule is left unloaded. -/
def load (catalogue : κ) (r : Rule α) : Outcome (Rule α) Error :=
  match r.resolve catalogue with
  | .ok r => ⟨r, none⟩
  | .error cause => ⟨r.unload, some cause⟩

variable [NumberText α]

/-- Reads and loads a rule. -/
def create (catalogue : κ) (text : String) : Except Error (Rule α) := do
  (← parse text).resolve catalogue

/-- The rule with the weighted degree of its antecedent. -/
def activate (ε : α) (cs : Combinators α) (catalogue : κ) (r : Rule α) : Except Error (Rule α) := do
  if !r.isLoaded then throw (.notLoaded (.rule r.text))
  let degree ← r.antecedent.degree ε cs catalogue
  return { r with degree := r.weight * degree }

/-- The rule as a cycle starts: deactivated, and activated if it is enabled. -/
def renew (ε : α) (cs : Combinators α) (catalogue : κ) (r : Rule α) : Except Error (Rule α) :=
  if r.enabled then r.deactivate.activate ε cs catalogue else .ok r.deactivate

/-- Draws the conclusions of a rule that is enabled and has a positive degree. -/
def trigger (ε : α) (implication : Option (TNorm α)) (catalogue : κ) (r : Rule α) :
    Except Error (Rule α × κ) := do
  if !r.isLoaded then throw (.notLoaded (.rule r.text))
  if r.enabled && Tolerance.gt ε r.degree Scalar.zero then
    let catalogue ← r.consequent.modify ε r.degree implication catalogue
    return ({ r with triggered := true }, catalogue)
  else return (r, catalogue)

end Rule

end FuzzyInference
