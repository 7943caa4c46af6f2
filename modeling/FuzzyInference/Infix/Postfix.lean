import FuzzyInference.Infix.Token

/-!
Postfix order of an infix token sequence. Operands go straight to the output. Symbols and open
parentheses wait on a stack, and a second stack counts the arguments of the calls that are still
open. A symbol leaves the stack when an operator that binds less tightly, a comma or a parenthesis
ends its last operand.
-/
namespace FuzzyInference.Infix

variable {ι : Type}

inductive Item (ι : Type) where
  | operand (word : String)
  | symbol (s : ι)

inductive Pending (ι : Type) where
  | symbol (s : ι)
  /-- An open parenthesis, after the name of a function or for grouping. -/
  | paren (call : Bool)

/-- The output with its newest item first, the pending stack from its top, and the number of
arguments read so far of each open call from the innermost one. -/
structure State (ι : Type) where
  output : List (Item ι) := []
  pending : List (Pending ι) := []
  arguments : List Nat := []

/-- Moves symbols from the pending stack to the output as long as they satisfy `p`. -/
def popWhile (p : ι → Bool) : List (Item ι) → List (Pending ι) → List (Item ι) × List (Pending ι)
  | output, .symbol s :: rest =>
    if p s then popWhile p (.symbol s :: output) rest else (output, .symbol s :: rest)
  | output, pending => (output, pending)

/-- Moves the symbols above the innermost open parenthesis to the output. -/
def State.closeOperand (s : State ι) : State ι :=
  let (output, pending) := popWhile (fun _ => true) s.output s.pending
  { s with output, pending }

variable [Symbol ι]

/-- An operator with two operands first completes the pending operators that yield to it. -/
def State.pushOperator (s : State ι) (operator : ι) : State ι :=
  let incoming := Symbol.fixity operator
  if incoming.arity = 2 then
    let (output, pending) :=
      popWhile (fun top => (Symbol.fixity top).yieldsTo incoming) s.output s.pending
    { s with output, pending := .symbol operator :: pending }
  else { s with pending := .symbol operator :: s.pending }

/-- An open parenthesis, which starts the arguments of a call if a function stands before it. -/
def State.openParen (s : State ι) (previous next : Option Token) : State ι :=
  match previous with
  | some (.function _) =>
    { s with
      pending := .paren true :: s.pending
      arguments := (if next = some .rightParen then 0 else 1) :: s.arguments }
  | _ => { s with pending := .paren false :: s.pending }

def State.comma (s : State ι) : Except Error (State ι) :=
  let s := s.closeOperand
  match s.pending, s.arguments with
  | .paren true :: _, count :: rest => .ok { s with arguments := (count + 1) :: rest }
  | _, _ => .error (.parse (.unexpectedToken .argumentList ","))

/-- A closing parenthesis takes its open one off the stack, and the function with it if it ends a
call. -/
def State.closeParen (s : State ι) (text : String) : Except Error (State ι) :=
  let s := s.closeOperand
  match s.pending with
  | .paren false :: rest => .ok { s with pending := rest }
  | .paren true :: .symbol f :: rest =>
    let found := s.arguments.headD 0
    let expected := (Symbol.fixity f).arity
    if found = expected then
      .ok ⟨.symbol f :: s.output, rest, s.arguments.tail⟩
    else .error (.parse (.arityMismatch (Symbol.name f) expected found))
  | _ => .error (.parse (.unbalancedParentheses text))

/-- Reads one token between its neighbours. -/
def State.step (find? : String → Option ι) (text : String) (previous : Option Token)
    (next : Option Token) (s : State ι) : Token → Except Error (State ι)
  | .operand word => .ok { s with output := .operand word :: s.output }
  | .function name =>
    if next = some .leftParen then
      match find? name with
      | some f => .ok { s with pending := .symbol f :: s.pending }
      | none => .error (.notRegistered registryName name)
    else .error (.parse (.unexpectedToken .openParen ((next.map Token.text).getD "<end>")))
  | .operator symbol =>
    match (find? symbol).filter fun o => (Symbol.fixity o).isOperator with
    | some operator => .ok (s.pushOperator operator)
    | none => .error (.parse (.unknownOperator symbol))
  | .leftParen => .ok (s.openParen previous next)
  | .comma => s.comma
  | .rightParen => s.closeParen text

/-- Reads the tokens that follow `previous`. -/
def State.run (find? : String → Option ι) (text : String) (previous : Option Token) :
    List Token → State ι → Except Error (State ι)
  | [], s => .ok s
  | token :: rest, s => do
    let s ← s.step find? text previous rest.head? token
    State.run find? text (some token) rest s

/-- The output once the pending stack is empty; no parenthesis may be left on it. -/
def State.finish (s : State ι) (text : String) : Except Error (List (Item ι)) :=
  match s.closeOperand with
  | ⟨output, [], _⟩ => .ok output.reverse
  | _ => .error (.parse (.unbalancedParentheses text))

/-- The items of an infix token sequence in postfix order. The text is what an error shows. -/
def toPostfix (find? : String → Option ι) (text : String) (tokens : List Token) :
    Except Error (List (Item ι)) := do
  (← State.run find? text none tokens {}).finish text

end FuzzyInference.Infix
