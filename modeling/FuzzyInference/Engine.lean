import FuzzyInference.Definition
import FuzzyInference.Variables

/-!
Inference engines: variables and the rule blocks over them. A cycle clears the conclusions and runs
the blocks in order until one of them fails.
-/
namespace FuzzyInference

structure Engine (α : Type) where
  name : String
  description : String := ""
  vars : Variables α
  blocks : List (Block α) := []

namespace Engine

variable {α : Type} [Scalar α]

def addBlock (e : Engine α) (b : Block α) : Engine α := { e with blocks := e.blocks ++ [b] }

/-- The position of the first block with a name. -/
def blockIndex? (e : Engine α) (name : String) : Option Nat :=
  e.blocks.findIdx? fun b => b.name = name

def setInputValue (e : Engine α) (name : String) (value : α) : Except Error (Engine α) := do
  return { e with vars := ← e.vars.setInputValue name value }

/-- Clears the conclusions and deactivates all rules. -/
def restart (e : Engine α) : Engine α :=
  { e with vars := e.vars.clearOutputs, blocks := e.blocks.map Block.deactivate }

variable [NumberText α]

/-- Builds the block of a definition, loads its rules and adds it. -/
def loadDefinition (components : Components α) (d : Definition) (e : Engine α) :
    Except BlockError (Engine α) := do
  let block ← d.build components
  match block.load e.vars with
  | ⟨block, none⟩ => return e.addBlock block
  | ⟨_, some error⟩ => throw error

/-- Loads the rules of all blocks anew; the error is the one of the first block that fails. -/
def load (e : Engine α) : Outcome (Engine α) BlockError :=
  let loads := e.blocks.map (Block.reload e.vars)
  ⟨{ e with blocks := loads.map Outcome.state }, loads.findSome? Outcome.error⟩

/-- Runs blocks in order until one of them fails. -/
def runBlocks (ε : α) :
    List (Block α) → Variables α → Outcome (List (Block α) × Variables α) Error
  | [], vars => ⟨([], vars), none⟩
  | block :: rest, vars =>
    match block.run ε vars with
    | ⟨(block, vars), some cause⟩ => ⟨(block :: rest, vars), some cause⟩
    | ⟨(block, vars), none⟩ =>
      (runBlocks ε rest vars).map fun (blocks, vars) => (block :: blocks, vars)

/-- One inference cycle. -/
def process (ε : α) (e : Engine α) : Outcome (Engine α) Error :=
  (runBlocks ε e.blocks e.vars.clearOutputs).map fun (blocks, vars) => { e with blocks, vars }

/-- The degree to which a term of an output variable has been concluded. -/
def activationDegree? (ε : α) (e : Engine α) (variableName termName : String) : Option α := do
  let id ← e.vars.findVariable? variableName
  if !id.isOutput then none
  let term ← e.vars.findTerm? id termName
  return e.vars.activationDegree ε id term

def text (e : Engine α) : String :=
  let description := if e.description = "" then "" else s!"  description: {e.description}\n"
  s!"Engine: {e.name}\n" ++ description ++ e.vars.text ++
    String.join (e.blocks.map Block.text)

end Engine

end FuzzyInference
