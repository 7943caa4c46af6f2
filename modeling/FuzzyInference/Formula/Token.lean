import FuzzyInference.Formula.Builtin
import FuzzyInference.Text.Letters

/-!
The tokens of a formula. A numeral is read as far as digits and points go, with an exponent only
where digits follow it. A name is read as far as letters, numerals, `_` and `.` go and is a
function, an operator or an operand as the vocabulary says. Every other character stands for itself;
a minus where an operand is due is the negation `~`.
-/
namespace FuzzyInference.Formula

open Infix Text

def isNumeralChar (c : Char) : Bool := c.isDigit || c = '.'

def isNameStart (c : Char) : Bool := isAlphabetic c || c = '_'

def isNameChar (c : Char) : Bool := isAlphabetic c || isNumeral c || c = '_' || c = '.'

/-- A numeral starts with a digit, or with a point before a digit. -/
def startsNumeral (c : Char) (rest : List Char) : Bool :=
  c.isDigit || (c = '.' && rest.head?.any Char.isDigit)

/-- The sign at the front of a text, empty if there is none. -/
def signPart : List Char → List Char
  | c :: _ => if c = '+' ∨ c = '-' then [c] else []
  | [] => []

/-- The exponent at the front of a text, empty if there is none. -/
def exponentPart : List Char → List Char
  | [] => []
  | e :: rest =>
    let sign := signPart rest
    let digits := (rest.drop sign.length).takeWhile Char.isDigit
    if (e = 'e' ∨ e = 'E') ∧ digits ≠ [] then e :: sign ++ digits else []

/-- The part of a numeral after its first character. -/
def numeralRest (text : List Char) : List Char :=
  let mantissa := text.takeWhile isNumeralChar
  mantissa ++ exponentPart (text.drop mantissa.length)

/-- Whether the next token is an operand, judged by the previous one. -/
def operandDue : Option Token → Bool
  | none => true
  | some (.operator _) => true
  | some .leftParen => true
  | some .comma => true
  | _ => false

variable {α : Type}

/-- The token of a name, given the text after it. A name that the vocabulary does not hold may not
stand before a parenthesis. -/
def nameToken (v : Vocabulary α) (name : String) (after : List Char) : Except ParseError Token :=
  if v.isFunction name then .ok (.function name)
  else if v.isOperator name then .ok (.operator name)
  else if (after.find? fun c => !isBlank c) = some '(' then .error (.unknownOperator name)
  else .ok (.operand name)

def symbolToken (v : Vocabulary α) (previous : Option Token) (c : Char) :
    Except ParseError Token :=
  if c = '(' then .ok .leftParen
  else if c = ')' then .ok .rightParen
  else if c = ',' then .ok .comma
  else if v.isOperator c.toString then
    .ok (.operator (if c = '-' ∧ operandDue previous then "~" else c.toString))
  else .error (.unknownOperator c.toString)

/-- The token that starts with `c`, and how many of the characters after `c` belong to it. -/
def nextToken (v : Vocabulary α) (previous : Option Token) (c : Char) (rest : List Char) :
    Except ParseError (Token × Nat) :=
  if startsNumeral c rest then
    let tail := numeralRest rest
    .ok (.operand (String.ofList (c :: tail)), tail.length)
  else if isNameStart c then do
    let tail := rest.takeWhile isNameChar
    let token ← nameToken v (String.ofList (c :: tail)) (rest.drop tail.length)
    return (token, tail.length)
  else do
    let token ← symbolToken v previous c
    return (token, 0)

/-- The tokens of a text that follows the token `previous`. -/
def tokensAfter (v : Vocabulary α) (previous : Option Token) :
    List Char → Except ParseError (List Token)
  | [] => .ok []
  | c :: rest =>
    if isBlank c then tokensAfter v previous rest
    else do
      let (token, length) ← nextToken v previous c rest
      let tokens ← tokensAfter v (some token) (rest.drop length)
      return token :: tokens
termination_by text => text.length
decreasing_by
  · simp
  · simp only [List.length_drop, List.length_cons]; omega

@[simp] theorem tokensAfter_nil (v : Vocabulary α) (previous : Option Token) :
    tokensAfter v previous [] = .ok [] := by
  rw [tokensAfter.eq_def]

theorem tokensAfter_cons (v : Vocabulary α) (previous : Option Token) (c : Char)
    (rest : List Char) :
    tokensAfter v previous (c :: rest) =
      if isBlank c then tokensAfter v previous rest
      else do
        let (token, length) ← nextToken v previous c rest
        let tokens ← tokensAfter v (some token) (rest.drop length)
        return token :: tokens := by
  rw [tokensAfter.eq_def]

def tokens (v : Vocabulary α) (text : String) : Except ParseError (List Token) :=
  tokensAfter v none text.toList

end FuzzyInference.Formula
