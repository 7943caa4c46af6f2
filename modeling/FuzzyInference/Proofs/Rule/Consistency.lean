import FuzzyInference.Proofs.Cycle.History
import FuzzyInference.Proofs.Cycle.Steps
import FuzzyInference.Proofs.Rule.InPlace
import FuzzyInference.Proofs.Rule.Lifecycle

/-!
What holds of a rule at all times. Its clauses are loaded together; while they are not, the rule has
no degree and no mark; and its weight is a weight. No operation and no cycle breaks this, whether it
succeeds or fails, and one that fails leaves the rule as it was, or unloaded if it was to load it.
-/
namespace FuzzyInference

variable {α κ : Type} [Scalar α]

namespace Rule

structure Consistent (r : Rule α) : Prop where
  clauses : r.antecedent.isLoaded = r.consequent.isLoaded
  degree : r.isLoaded = false → r.degree = Scalar.zero
  triggered : r.isLoaded = false → r.triggered = false
  isWeight : RuleText.isWeight r.weight = true

/-! ### Operations -/

/-- Of a loaded rule only the weight matters. -/
theorem consistent_of_isLoaded {r : Rule α} (h : r.isLoaded = true)
    (hweight : RuleText.isWeight r.weight = true) : r.Consistent := by
  have hboth := h
  simp only [isLoaded, Bool.and_eq_true] at hboth
  constructor
  · rw [hboth.1, hboth.2]
  · intro hunloaded
    cases h.symm.trans hunloaded
  · intro hunloaded
    cases h.symm.trans hunloaded
  · exact hweight

theorem consistent_ofText {t : RuleText α} (h : RuleText.isWeight t.weight = true) :
    (ofText t).Consistent :=
  ⟨rfl, fun _ => rfl, fun _ => rfl, h⟩

namespace Consistent

variable {r r' : Rule α}

theorem unload (h : r.Consistent) : r.unload.Consistent :=
  ⟨rfl, fun _ => rfl, fun _ => rfl, h.isWeight⟩

theorem deactivate (h : r.Consistent) : r.deactivate.Consistent :=
  ⟨h.clauses, fun _ => rfl, fun _ => rfl, h.isWeight⟩

theorem orKeep {result : Except Error (Rule α)} (h : r.Consistent)
    (hresult : ∀ changed, result = .ok changed → changed.Consistent) :
    (r.orKeep result).Consistent := by
  cases result with
  | ok changed => exact hresult changed rfl
  | error cause => exact h

section Catalogue

variable [Catalogue κ α] {ε : α} {cs : Combinators α} {implication : Option (TNorm α)}
  {catalogue catalogue' : κ}

theorem resolve (h : r.Consistent) (hresolve : r.resolve catalogue = .ok r') : r'.Consistent := by
  obtain ⟨e, ps, -, -, rfl⟩ := exists_of_resolve hresolve
  exact consistent_of_isLoaded rfl h.isWeight

theorem load (h : r.Consistent) (catalogue : κ) : (r.load catalogue).state.Consistent := by
  unfold Rule.load
  cases hresolve : r.resolve catalogue with
  | ok r' => exact h.resolve hresolve
  | error cause => exact h.unload

variable [NumberText α]

theorem activate (h : r.Consistent) (hactivate : r.activate ε cs catalogue = .ok r') :
    r'.Consistent := by
  obtain ⟨hloaded, degree, -, rfl⟩ := exists_of_activate hactivate
  exact consistent_of_isLoaded hloaded h.isWeight

theorem trigger (h : r.Consistent)
    (htrigger : r.trigger ε implication catalogue = .ok (r', catalogue')) : r'.Consistent := by
  obtain ⟨hloaded, ⟨-, rfl, -⟩ | ⟨-, rfl, -⟩⟩ := trigger_cases htrigger
  · exact h
  · exact consistent_of_isLoaded hloaded h.isWeight

theorem renew (h : r.Consistent) (hrenew : r.renew ε cs catalogue = .ok r') : r'.Consistent := by
  obtain ⟨-, rfl⟩ | ⟨-, hloaded, degree, -, rfl⟩ := renew_cases hrenew
  · exact h.deactivate
  · exact consistent_of_isLoaded hloaded h.isWeight

end Catalogue

variable [NumberText α]

theorem setWeight {weight : α} (h : r.Consistent) (hset : r.setWeight weight = .ok r') :
    r'.Consistent := by
  unfold Rule.setWeight at hset
  by_cases hweight : RuleText.isWeight weight = true
  · rw [if_pos hweight] at hset
    cases hset
    exact ⟨h.clauses, h.degree, h.triggered, hweight⟩
  · rw [if_neg hweight] at hset
    cases hset

theorem apply (h : r.Consistent) (operation : Operation α) : (r.apply operation).Consistent := by
  cases operation with
  | setWeight weight => exact h.orKeep fun _ hset => h.setWeight hset
  | setEnabled enabled => exact ⟨h.clauses, h.degree, h.triggered, h.isWeight⟩
  | load catalogue => exact h.load catalogue
  | unload => exact h.unload
  | deactivate => exact h.deactivate
  | activate ε cs catalogue => exact h.orKeep fun _ hactivate => h.activate hactivate
  | trigger ε implication catalogue =>
    apply h.orKeep
    intro changed hchanged
    obtain ⟨⟨fired, catalogue'⟩, htrigger, rfl⟩ := exists_of_map_eq_ok hchanged
    exact h.trigger htrigger

/-- A share goes to a loaded rule, so it is no matter that its degree changes. -/
theorem kept [Catalogue κ α] (ε : α) (cs : Combinators α) :
    Rule.Kept ε cs fun (_ : κ) r => r.Consistent where
  concluded h _ := h
  deactivate h := h.deactivate
  renew h hrenew := h.renew hrenew
  share _ h hloaded _ := consistent_of_isLoaded hloaded h.isWeight
  trigger h htrigger := h.trigger htrigger

end Consistent

/-! ### Histories -/

variable [NumberText α]

/-- The ways to make a rule. -/
inductive Made : Rule α → Prop where
  | new {antecedent consequent : String} {weight : α} {r : Rule α}
      (h : Rule.new antecedent consequent weight = .ok r) : Made r
  | parse {text : String} {r : Rule α} (h : Rule.parse text = .ok r) : Made r
  | create {κ : Type} [Catalogue κ α] {catalogue : κ} {text : String} {r : Rule α}
      (h : Rule.create catalogue text = .ok r) : Made r

theorem consistent_of_new {antecedent consequent : String} {weight : α} {r : Rule α}
    (h : Rule.new antecedent consequent weight = .ok r) : r.Consistent := by
  unfold Rule.new at h
  by_cases hweight : RuleText.isWeight weight = true
  · rw [if_pos hweight] at h
    cases h
    exact consistent_ofText hweight
  · rw [if_neg hweight] at h
    cases h

theorem consistent_of_parse {text : String} {r : Rule α} (h : Rule.parse text = .ok r) :
    r.Consistent := by
  obtain ⟨t, -, hnew⟩ := exists_of_bind_eq_ok h
  exact consistent_of_new hnew

theorem Made.consistent {r : Rule α} (h : r.Made) : r.Consistent := by
  cases h with
  | new h => exact consistent_of_new h
  | parse h => exact consistent_of_parse h
  | create h =>
    obtain ⟨unloaded, hparse, hresolve⟩ := exists_of_bind_eq_ok h
    exact (consistent_of_parse hparse).resolve hresolve

/-- What may happen to the rules of a block: an operation on one of them, or a cycle of the block,
whatever its flag, its combinators and its strategy are at that time. -/
inductive Event (α : Type) : Type 1 where
  | call (index : Nat) (operation : Operation α)
  | cycle {κ : Type} [Catalogue κ α] (ε : α) (block : Block α) (catalogue : κ)

/-- The rules after an event, be it one that fails. -/
def Event.apply (rules : List (Rule α)) : Event α → List (Rule α)
  | .call index operation => rules.modify index (·.apply operation)
  | @Event.cycle _ _ _ ε block catalogue => ({ block with rules }.run ε catalogue).state.1.rules

theorem consistent_event {rules : List (Rule α)} (h : ∀ r ∈ rules, r.Consistent)
    (event : Event α) : ∀ r ∈ event.apply rules, r.Consistent := by
  cases event with
  | call index operation => exact forall_mem_modify h (fun _ hr => hr.apply operation) index
  | cycle ε block catalogue =>
    exact Block.forall_run (b := { block with rules }) (Consistent.kept ε block.combinators) h

theorem consistent_events {rules : List (Rule α)} (h : ∀ r ∈ rules, r.Consistent)
    (history : List (Event α)) : ∀ r ∈ history.foldl Event.apply rules, r.Consistent := by
  induction history generalizing rules with
  | nil => exact h
  | cons event history ih => exact ih (consistent_event h event)

/-- The second rule is the first one with nothing loaded and nothing of a cycle. -/
structure IsUnloaded (r r' : Rule α) : Prop where
  antecedent : r'.antecedent = ⟨r.antecedent.text, none⟩
  consequent : r'.consequent = ⟨r.consequent.text, none⟩
  weight : r'.weight = r.weight
  enabled : r'.enabled = r.enabled
  degree : r'.degree = Scalar.zero
  triggered : r'.triggered = false

/-- The operations on the rule in place. Those that fail leave the rule and the catalogue as they
were, and a load that fails leaves the rule unloaded. -/
structure FailsSafely (r : Rule α) : Prop where
  setWeight : ∀ weight : α,
    Outcome.ofSteps (InPlace.setWeight weight) r = Outcome.ofResult r (r.setWeight weight)
  activate : ∀ {κ : Type} [Catalogue κ α] (ε : α) (cs : Combinators α) (catalogue : κ),
    Outcome.ofSteps (InPlace.activate ε cs catalogue) r =
      Outcome.ofResult r (r.activate ε cs catalogue)
  trigger : ∀ {κ : Type} [Catalogue κ α] (ε : α) (implication : Option (TNorm α)) (catalogue : κ),
    Outcome.ofSteps (InPlace.trigger ε implication) (r, catalogue) =
      Outcome.ofResult (r, catalogue) (r.trigger ε implication catalogue)
  load : ∀ {κ : Type} [Catalogue κ α] (catalogue : κ),
    Outcome.ofSteps (InPlace.load catalogue) r = r.load catalogue ∧
      ∀ cause, (r.load catalogue).error = some cause → r.IsUnloaded (r.load catalogue).state

omit [NumberText α] in
theorem isUnloaded_load [Catalogue κ α] {catalogue : κ} {r : Rule α} {cause : Error}
    (h : (r.load catalogue).error = some cause) : r.IsUnloaded (r.load catalogue).state := by
  unfold Rule.load at h ⊢
  cases hresolve : r.resolve catalogue with
  | ok loaded =>
    rw [hresolve] at h
    cases h
  | error cause => exact ⟨rfl, rfl, rfl, rfl, rfl, rfl⟩

theorem failsSafely (r : Rule α) : r.FailsSafely where
  setWeight weight := InPlace.ofSteps_setWeight weight r
  activate ε cs catalogue := InPlace.ofSteps_activate ε cs catalogue r
  trigger ε implication catalogue := InPlace.ofSteps_trigger ε implication r catalogue
  load catalogue := ⟨InPlace.ofSteps_load catalogue r, fun _ h => isUnloaded_load h⟩

/-- After any operations and cycles every rule is consistent, and an operation that fails then
leaves it so. -/
theorem consistent_history {rules : List (Rule α)} (h : ∀ r ∈ rules, r.Made)
    (history : List (Event α)) :
    ∀ r ∈ history.foldl Event.apply rules, r.Consistent ∧ r.FailsSafely := by
  intro r hr
  have hconsistent := consistent_events (fun r hr => (h r hr).consistent) history
  exact ⟨hconsistent r hr, r.failsSafely⟩

/-- A rule is loaded and goes through a cycle. Zero is no weight, and in variables without the fan
the rule cannot be loaded again, so it can neither be activated nor triggered after that. -/
def fanHistory : List (Event Float) :=
  [.call 0 (.load Engine.fan.vars),
   .cycle Binary64.defaultTolerance { name := "speed", activation := some .proportional }
     Engine.fan.vars,
   .call 0 (.setWeight 0),
   .call 0 (.load { Engine.fan.vars with outputs := [] }),
   .call 0 (.activate Binary64.defaultTolerance {} Engine.fan.vars),
   .call 0 (.trigger Binary64.defaultTolerance none Engine.fan.vars)]

/-- The rule is marked after the cycle, and the load that fails takes the mark away. -/
theorem consistent_history_fan :
    ∃ r : Rule Float, r.Made ∧
      ((fanHistory.take 3).foldl Event.apply [r]).map
          (fun r => (r.isLoaded, r.degree, r.triggered)) = [(true, 1, true)] ∧
      (fanHistory.foldl Event.apply [r]).map (fun r => (r.isLoaded, r.degree, r.triggered)) =
        [(false, 0, false)] ∧
      ∀ r' ∈ fanHistory.foldl Event.apply [r], r'.Consistent ∧ r'.FailsSafely := by
  have hkernel : (Rule.parse (α := Float) "if heat is high then fan is fast with 0.5").map (fun r =>
      (((fanHistory.take 3).foldl Event.apply [r]).map fun r => (r.isLoaded, r.degree, r.triggered),
        (fanHistory.foldl Event.apply [r]).map fun r => (r.isLoaded, r.degree, r.triggered))) =
      .ok ([(true, 1, true)], [(false, 0, false)]) := by
    decide +kernel
  obtain ⟨r, hparse, hstates⟩ := exists_of_map_eq_ok hkernel
  obtain ⟨hmarked, hunloaded⟩ := Prod.mk.inj hstates
  have hmade : ∀ r' ∈ [r], r'.Made := by
    intro r' hr'
    obtain rfl := List.mem_singleton.mp hr'
    exact .parse hparse
  exact ⟨r, .parse hparse, hmarked, hunloaded, consistent_history hmade fanHistory⟩

end Rule

end FuzzyInference
