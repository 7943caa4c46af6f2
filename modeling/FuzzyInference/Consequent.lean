import FuzzyInference.Proposition.Draft

/-!
Consequents: conclusions about output variables, joined by `and`. A consequent holds its text and,
once it is loaded, its conclusions. When a rule fires, each of them goes to the catalogue with the
degree of the rule after its hedges.
-/
namespace FuzzyInference

variable {α κ : Type} [Catalogue κ α]

namespace Proposition

/-- Where reading a consequent stands: within a conclusion, or after one. -/
inductive Place (α : Type) where
  | within (d : Draft α)
  | after

/-- Reads the conclusions of the words from a place on. The word `and` stands between two
conclusions. -/
def conclusionsFrom (catalogue : κ) (text : String) :
    Place α → List String → Except Error (List (Proposition α))
  | .within d, [] =>
    if d.isStart then .error (.parse (.malformedExpression text))
    else .error (.parse d.incomplete)
  | .after, [] => .ok []
  | .after, word :: rest =>
    if word = Keyword.andWord.text then conclusionsFrom catalogue text (.within .start) rest
    else .error (.parse (.unexpectedToken .andWord word))
  | .within d, word :: rest => do
    match ← d.accept catalogue .consequent word with
    | .draft d => conclusionsFrom catalogue text (.within d) rest
    | .complete p => return p :: (← conclusionsFrom catalogue text .after rest)

/-- The conclusions of a text in a catalogue. -/
def parseConclusions (catalogue : κ) (text : String) : Except Error (List (Proposition α)) :=
  conclusionsFrom catalogue text (.within .start) (Text.words text)

/-- Writes a conclusion to the catalogue, unless its variable is disabled. -/
def conclude [Scalar α] (ε : α) (degree : α) (implication : Option (TNorm α)) (catalogue : κ)
    (p : Proposition α) : κ :=
  if !Catalogue.isEnabled catalogue p.subject.id then catalogue
  else match p.term with
    | none => catalogue
    | some term =>
      Catalogue.conclude catalogue ⟨p.subject.id, term.id, p.applyHedges ε degree, implication⟩

end Proposition

structure Consequent (α : Type) where
  text : String
  conclusions : Option (List (Proposition α)) := none

namespace Consequent

def isLoaded (c : Consequent α) : Bool := c.conclusions.isSome

def unload (c : Consequent α) : Consequent α := { c with conclusions := none }

def load (catalogue : κ) (c : Consequent α) : Except Error (Consequent α) := do
  return { c with conclusions := some (← Proposition.parseConclusions catalogue c.text) }

/-- Writes the conclusions of a loaded consequent to the catalogue, in order. -/
def modify [Scalar α] (ε : α) (degree : α) (implication : Option (TNorm α)) (catalogue : κ)
    (c : Consequent α) : Except Error κ :=
  match c.conclusions with
  | some conclusions =>
    .ok (conclusions.foldl (fun catalogue p => p.conclude ε degree implication catalogue) catalogue)
  | none => .error (.notLoaded (.clause .consequent c.text))

end Consequent

end FuzzyInference
