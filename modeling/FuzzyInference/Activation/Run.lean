import FuzzyInference.Activation.Text
import FuzzyInference.Rule.Basic

/-!
A cycle of the rules of one block under a strategy. Some strategies activate and trigger rule by
rule, so that a rule sees what earlier rules concluded. The others activate all rules first and then
trigger a selection of them. An error ends the cycle: what came before it stays, and later rules are
as they were.
-/
namespace FuzzyInference

/-- The rules and the catalogue after a cycle, and the error that ended it. -/
structure Run (κ α : Type) where
  rules : List (Rule α)
  catalogue : κ
  error : Option Error

namespace Run

variable {α κ : Type}

/-- The run of a list with one more rule in front. -/
def cons (rule : Rule α) (run : Run κ α) : Run κ α := { run with rules := rule :: run.rules }

def reverse (run : Run κ α) : Run κ α := { run with rules := run.rules.reverse }

variable [Scalar α] [NumberText α] [Catalogue κ α]

/-- Renews the rules in order and triggers the enabled ones that are admitted, judged by how many
have been admitted before and by the degree. -/
def inOrder (ε : α) (cs : Combinators α) (admits : Nat → α → Bool) :
    Nat → List (Rule α) → κ → Run κ α
  | _, [], catalogue => ⟨[], catalogue, none⟩
  | admitted, rule :: rest, catalogue =>
    match rule.renew ε cs catalogue with
    | .error cause => ⟨rule.deactivate :: rest, catalogue, some cause⟩
    | .ok rule =>
      if rule.enabled && admits admitted rule.degree then
        match rule.trigger ε cs.implication catalogue with
        | .error cause => ⟨rule :: rest, catalogue, some cause⟩
        | .ok (fired, catalogue) =>
          (inOrder ε cs admits (admitted + 1) rest catalogue).cons fired
      else (inOrder ε cs admits admitted rest catalogue).cons rule

/-- Whether a rule is among the first `count` that reach the threshold. -/
def reaches (ε : α) (count : Nat) (threshold : α) (admitted : Nat) (degree : α) : Bool :=
  admitted < count && Tolerance.gt ε degree Scalar.zero && Tolerance.ge ε degree threshold

/-- Renews all rules, each in the same catalogue. -/
def renewAll (ε : α) (cs : Combinators α) (catalogue : κ) :
    List (Rule α) → Outcome (List (Rule α)) Error
  | [] => ⟨[], none⟩
  | rule :: rest =>
    match rule.renew ε cs catalogue with
    | .error cause => ⟨rule.deactivate :: rest, some cause⟩
    | .ok rule => (renewAll ε cs catalogue rest).map (rule :: ·)

/-- The positions of the enabled rules, with their degrees. -/
def degrees (rules : List (Rule α)) : List (Nat × α) :=
  (rules.zipIdx.filter fun (rule, _) => rule.enabled).map fun (rule, index) => (index, rule.degree)

/-- Triggers the rules at the given positions in the given order. -/
def triggerAt (ε : α) (implication : Option (TNorm α)) :
    List Nat → List (Rule α) → κ → Run κ α
  | [], rules, catalogue => ⟨rules, catalogue, none⟩
  | index :: rest, rules, catalogue =>
    match rules[index]? with
    | none => triggerAt ε implication rest rules catalogue
    | some rule =>
      match rule.trigger ε implication catalogue with
      | .error cause => ⟨rules, catalogue, some cause⟩
      | .ok (fired, catalogue) => triggerAt ε implication rest (rules.set index fired) catalogue

/-- Renews all rules, adjusts them, and triggers those at the selected positions. -/
def twoPhase (ε : α) (cs : Combinators α) (adjust : List (Rule α) → List (Rule α))
    (select : List (Nat × α) → List Nat) (rules : List (Rule α)) (catalogue : κ) : Run κ α :=
  match renewAll ε cs catalogue rules with
  | ⟨rules, some cause⟩ => ⟨rules, catalogue, some cause⟩
  | ⟨rules, none⟩ =>
    triggerAt ε cs.implication (select (degrees rules)) (adjust rules) catalogue

/-- The positions of the first `count` positive degrees in an order; positions with the same degree
stay in order. -/
def ranked (ε : α) (before : α → α → Bool) (count : Nat) (degrees : List (Nat × α)) : List Nat :=
  let candidates := degrees.filter fun (_, degree) => Tolerance.gt ε degree Scalar.zero
  ((candidates.mergeSort fun a b => before a.2 b.2).take count).map (·.1)

/-- The enabled rules with their share of the sum of all degrees, if that sum is positive. -/
def share (ε : α) (rules : List (Rule α)) : List (Rule α) :=
  let sum := (degrees rules).foldl (fun sum (_, degree) => sum + degree) Scalar.zero
  if Tolerance.gt ε sum Scalar.zero then
    rules.map fun rule => if rule.enabled then { rule with degree := rule.degree / sum } else rule
  else rules

end Run

/-- The cycle of a list of rules under a strategy. -/
def Activation.run {α κ : Type} [Scalar α] [NumberText α] [Catalogue κ α] (ε : α)
    (cs : Combinators α) (rules : List (Rule α)) (catalogue : κ) : Activation α → Run κ α
  | general => Run.inOrder ε cs (fun _ _ => true) 0 rules catalogue
  | first count bound => Run.inOrder ε cs (Run.reaches ε count bound) 0 rules catalogue
  | last count bound =>
    (Run.inOrder ε cs (Run.reaches ε count bound) 0 rules.reverse catalogue).reverse
  | highest count =>
    Run.twoPhase ε cs id (Run.ranked ε (fun a b => Scalar.totalLe b a) count) rules catalogue
  | lowest count => Run.twoPhase ε cs id (Run.ranked ε Scalar.totalLe count) rules catalogue
  | threshold comparison value =>
    let select (degrees : List (Nat × α)) :=
      (degrees.filter fun (_, degree) => comparison.holds ε degree value).map (·.1)
    Run.twoPhase ε cs id select rules catalogue
  | proportional => Run.twoPhase ε cs (Run.share ε) (List.map (·.1)) rules catalogue

end FuzzyInference
