import FuzzyInference.Proposition

/-!
Reading a proposition word by word: a variable, the word `is`, hedges and a term. A word that names
a hedge is one, also where a term has the same name; the hedge `any` ends the proposition.
-/
namespace FuzzyInference

/-- A proposition as far as it has been read. -/
inductive Draft (α : Type) where
  | start
  | named (subject : Reference VariableId)
  /-- After the word `is`: the hedges so far and the words that named them. -/
  | described (subject : Reference VariableId) (hedges : List (Hedge α)) (words : List String)

namespace Draft

variable {α κ : Type} [Catalogue κ α]

def isStart : Draft α → Bool
  | start => true
  | _ => false

/-- The words read so far. -/
def words : Draft α → List String
  | start => []
  | named subject => [subject.name]
  | described subject _ words => subject.name :: Keyword.isWord.text :: words

def incomplete (d : Draft α) : ParseError := .incompleteProposition (Text.unwords d.words)

/-- Where reading stands after a word: in the midst of a proposition or at its end. -/
inductive Step (α : Type) where
  | draft (d : Draft α)
  | complete (p : Proposition α)

/-- Reads the next word of a proposition of the clause. A consequent speaks of output variables only
and has no use for `any`. -/
def accept (catalogue : κ) (clause : Clause) (word : String) : Draft α → Except Error (Step α)
  | start =>
    match Catalogue.findVariable? catalogue word with
    | none => .error (.unresolved .variableName word)
    | some id =>
      if clause = .consequent ∧ !id.isOutput then
        .error (.parse (.unexpectedToken .outputVariable word))
      else .ok (.draft (.named ⟨id, word⟩))
  | named subject =>
    if word = Keyword.isWord.text then .ok (.draft (.described subject [] []))
    else .error (.parse (.unexpectedToken .isWord word))
  | described subject hedges words =>
    match Catalogue.findHedge? catalogue word with
    | some hedge =>
      if !hedge.isAny then .ok (.draft (.described subject (hedges ++ [hedge]) (words ++ [word])))
      else if clause = .consequent then .error (.parse (.unexpectedToken .term word))
      else .ok (.complete ⟨subject, hedges ++ [hedge], none⟩)
    | none =>
      match Catalogue.findTerm? catalogue subject.id word with
      | some id => .ok (.complete ⟨subject, hedges, some ⟨id, word⟩⟩)
      | none => .error (.unresolved .termName word)

end Draft

end FuzzyInference
