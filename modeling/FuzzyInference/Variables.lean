import FuzzyInference.Catalogue
import FuzzyInference.Term

/-!
Input and output variables. An input variable has a crisp value; an output variable collects the
conclusions of a cycle, in the order in which they are drawn. Together with the hedges they are the
catalogue that rules are loaded against.
-/
namespace FuzzyInference

open Scalar

variable {α : Type}

structure InputVariable (α : Type) where
  name : String
  enabled : Bool := true
  minimum : α
  maximum : α
  /-- Whether a value is moved into the range when it is set. -/
  lock : Bool := false
  value : α
  terms : List (Term α)

namespace InputVariable

variable [Scalar α]

def setValue (v : InputVariable α) (value : α) : InputVariable α :=
  { v with value := if v.lock then bound value v.minimum v.maximum else value }

/-- The membership of the value in a term; undefined if there is no such term. -/
def membership (v : InputVariable α) (term : TermId) : α :=
  match v.terms[term.index]? with
  | some t => t.membership v.value
  | none => undefined

def addTerm (v : InputVariable α) (term : Term α) : InputVariable α :=
  { v with terms := v.terms ++ [term] }

/-- The value in terms of the variable, such as `0.500/low + 0.500/high`. -/
def fuzzify [NumberText α] (v : InputVariable α) : String :=
  " + ".intercalate (v.terms.map fun t =>
    NumberText.fixedText (t.membership v.value) ++ "/" ++ t.name)

end InputVariable

/-- A conclusion about one output variable. -/
structure Entry (α : Type) where
  termId : TermId
  degree : α
  implication : Option (TNorm α)

structure OutputVariable (α : Type) where
  name : String
  enabled : Bool := true
  terms : List (Term α)
  aggregation : Option (SNorm α) := none
  /-- The conclusions of the present cycle, the oldest first. -/
  entries : List (Entry α) := []

namespace OutputVariable

def addTerm (v : OutputVariable α) (term : Term α) : OutputVariable α :=
  { v with terms := v.terms ++ [term] }

def push (v : OutputVariable α) (entry : Entry α) : OutputVariable α :=
  { v with entries := v.entries ++ [entry] }

def clear (v : OutputVariable α) : OutputVariable α := { v with entries := [] }

/-- The degrees concluded for a term, aggregated one after another from zero; without an aggregation
they are added. -/
def activationDegree [Scalar α] (ε : α) (v : OutputVariable α) (term : TermId) : α :=
  (v.entries.filter fun entry => entry.termId = term).foldl (fun degree entry =>
    match v.aggregation with
    | some norm => norm.compute ε degree entry.degree
    | none => degree + entry.degree) zero

def termName? (v : OutputVariable α) (term : TermId) : Option String :=
  v.terms[term.index]?.map Term.name

/-- The conclusions, such as `0.500/left + 0.250/right`. -/
def text [NumberText α] (v : OutputVariable α) : String :=
  " + ".intercalate (v.entries.map fun entry =>
    NumberText.fixedText entry.degree ++ "/" ++ (v.termName? entry.termId).getD "?")

end OutputVariable

structure Variables (α : Type) where
  inputs : List (InputVariable α) := []
  outputs : List (OutputVariable α) := []
  /-- The newest hedge comes first and hides older ones with its name. -/
  hedges : List (Hedge α) := Hedge.builtins

namespace Variables

def addInput (vs : Variables α) (v : InputVariable α) : Variables α :=
  { vs with inputs := vs.inputs ++ [v] }

def addOutput (vs : Variables α) (v : OutputVariable α) : Variables α :=
  { vs with outputs := vs.outputs ++ [v] }

def registerHedge (vs : Variables α) (hedge : Hedge α) : Variables α :=
  { vs with hedges := hedge :: vs.hedges }

def inputIndex? (vs : Variables α) (name : String) : Option Nat :=
  vs.inputs.findIdx? fun v => v.name = name

def outputIndex? (vs : Variables α) (name : String) : Option Nat :=
  vs.outputs.findIdx? fun v => v.name = name

/-- Changes the first input variable with a name. -/
def modifyInput? (vs : Variables α) (name : String) (change : InputVariable α → InputVariable α) :
    Option (Variables α) :=
  (vs.inputIndex? name).map fun index => { vs with inputs := vs.inputs.modify index change }

/-- Changes the first output variable with a name. -/
def modifyOutput? (vs : Variables α) (name : String)
    (change : OutputVariable α → OutputVariable α) : Option (Variables α) :=
  (vs.outputIndex? name).map fun index => { vs with outputs := vs.outputs.modify index change }

def setInputValue [Scalar α] (vs : Variables α) (name : String) (value : α) :
    Except Error (Variables α) :=
  match vs.modifyInput? name (·.setValue value) with
  | some vs => .ok vs
  | none => .error (.unresolved .variableName name)

def clearOutputs (vs : Variables α) : Variables α :=
  { vs with outputs := vs.outputs.map OutputVariable.clear }

/-- The variable of a name; input variables come first. -/
def findVariable? (vs : Variables α) (name : String) : Option VariableId :=
  ((vs.inputIndex? name).map (⟨.input, ·⟩)).or ((vs.outputIndex? name).map (⟨.output, ·⟩))

def terms (vs : Variables α) (id : VariableId) : List (Term α) :=
  match id.role with
  | .input => (vs.inputs[id.index]?.map InputVariable.terms).getD []
  | .output => (vs.outputs[id.index]?.map OutputVariable.terms).getD []

def findTerm? (vs : Variables α) (id : VariableId) (name : String) : Option TermId :=
  (Term.index? (vs.terms id) name).map (⟨·⟩)

def findHedge? (vs : Variables α) (name : String) : Option (Hedge α) :=
  vs.hedges.find? fun hedge => hedge.name = name

def isEnabled (vs : Variables α) (id : VariableId) : Bool :=
  match id.role with
  | .input => vs.inputs[id.index]?.any InputVariable.enabled
  | .output => vs.outputs[id.index]?.any OutputVariable.enabled

section Degrees

variable [Scalar α]

def membership (vs : Variables α) (id : VariableId) (term : TermId) : α :=
  match id.role with
  | .input => (vs.inputs[id.index]?.map (·.membership term)).getD undefined
  | .output => undefined

def activationDegree (ε : α) (vs : Variables α) (id : VariableId) (term : TermId) : α :=
  match id.role with
  | .input => undefined
  | .output => (vs.outputs[id.index]?.map (·.activationDegree ε term)).getD undefined

/-- Writes a conclusion to the output variable at its index, if there is one. -/
def conclude (vs : Variables α) (c : Conclusion α) : Variables α :=
  { vs with
    outputs := vs.outputs.modify c.variableId.index (·.push ⟨c.termId, c.degree, c.implication⟩) }

instance : Catalogue (Variables α) α where
  findVariable? := findVariable?
  findTerm? := findTerm?
  findHedge? := findHedge?
  isEnabled := isEnabled
  membership := membership
  activationDegree := activationDegree
  conclude := conclude

end Degrees

/-- One line for each variable: inputs with their value, outputs with their conclusions. -/
def text [Scalar α] [NumberText α] (vs : Variables α) : String :=
  String.join (vs.inputs.map fun v => s!"{v.name} = {NumberText.text v.value} ({v.fuzzify})\n") ++
    String.join (vs.outputs.map fun v => s!"{v.name} = {v.text}\n")

end Variables

end FuzzyInference
