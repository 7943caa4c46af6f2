import FuzzyInference.Error
import FuzzyInference.Scalar

/-!
Rule texts: `if <antecedent> then <consequent>`, optionally `with <weight>`, and a comment from the
first `#` on. A weight is finite and positive; the weight one is not written.
-/
namespace FuzzyInference

structure RuleText (α : Type) where
  antecedent : String
  consequent : String
  weight : α

namespace RuleText

variable {α : Type} [Scalar α]

def isWeight (weight : α) : Bool := Scalar.isFinite weight && Scalar.lt Scalar.zero weight

/-- The words before the comment. -/
def wordsOf (text : String) : List String :=
  Text.wordsAfter [] (text.toList.takeWhile (· ≠ '#'))

/-- The words before the first `keyword`, and those after it if it stands among them. -/
def splitAt (keyword : Keyword) (words : List String) : List String × Option (List String) :=
  match words.dropWhile (· ≠ keyword.text) with
  | [] => (words, none)
  | _ :: rest => (words.takeWhile (· ≠ keyword.text), some rest)

variable [NumberText α]

/-- The weight that a word stands for. -/
def readWeight (word : String) : Except RuleTextError α :=
  match NumberText.read? word with
  | some weight => if isWeight weight then .ok weight else .error (.invalidWeight word)
  | none => .error (.invalidWeight word)

/-- The weight given by the words after `with`; one without them. -/
def weightOf : Option (List String) → Except RuleTextError α
  | none => .ok Scalar.one
  | some [] => .error .missingWeight
  | some [word] => readWeight word
  | some (word :: rest) => do
    let _ : α ← readWeight word
    throw (.trailingWords (Text.unwords rest))

/-- The parts of the words of a rule. -/
def ofWords : List String → Except RuleTextError (RuleText α)
  | [] => .error (.missingKeyword .ifWord)
  | first :: words => do
    if first ≠ Keyword.ifWord.text then throw (.missingKeyword .ifWord)
    let (antecedent, some afterThen) := splitAt .thenWord words
      | throw (.missingKeyword .thenWord)
    let (consequent, afterWith) := splitAt .withWord afterThen
    let weight ← weightOf afterWith
    if antecedent = [] then throw (.emptyClause .antecedent)
    if consequent = [] then throw (.emptyClause .consequent)
    return ⟨Text.unwords antecedent, Text.unwords consequent, weight⟩

def parse (text : String) : Except Error (RuleText α) :=
  (ofWords (wordsOf text)).mapError .ruleText

def text (r : RuleText α) : String :=
  s!"{Keyword.ifWord.text} {r.antecedent} {Keyword.thenWord.text} {r.consequent}" ++
    if Scalar.eq r.weight Scalar.one then ""
    else s!" {Keyword.withWord.text} {NumberText.text r.weight}"

end RuleText

end FuzzyInference
