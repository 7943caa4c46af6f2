import FuzzyInference.Proofs.Cycle.TwoPhase
import FuzzyInference.Proofs.Cycle.Triggers
import Mathlib.Data.List.Forall2

/-!
Failures of cycles in two phases. Whatever can go wrong goes wrong while rules are activated, and by
then no conclusion has been written. So such a cycle either fails with the catalogue as it was, or
triggers what it has selected without an error.
-/
namespace FuzzyInference

variable {α κ : Type} [Scalar α] [NumberText α] [Catalogue κ α] {ε : α} {cs : Combinators α}
  {catalogue : κ}

/-! ### The first phase -/

theorem Rule.activate_of_renew {r : Rule α} {cause : Error}
    (h : r.renew ε cs catalogue = .error cause) :
    r.enabled = true ∧ r.deactivate.activate ε cs catalogue = .error cause := by
  unfold renew at h
  split at h
  · next henabled => exact ⟨henabled, h⟩
  · cases h

namespace Run

/-- One of the rules cannot be activated in the catalogue. The rules that have been reached by then
are left unmarked, and those after them as they were. -/
def FailsAtomically (ε : α) (cs : Combinators α) (catalogue : κ) (cause : Error)
    (before after : List (Rule α)) : Prop :=
  ∃ earlier failed later reached, before = earlier ++ failed :: later ∧ failed.enabled = true ∧
    failed.deactivate.activate ε cs catalogue = .error cause ∧ after = reached ++ later ∧
    reached.length = earlier.length + 1 ∧ ∀ r ∈ reached, r.triggered = false

theorem failsAtomically_renewAll {rules : List (Rule α)} {cause : Error}
    (h : (renewAll ε cs catalogue rules).error = some cause) :
    FailsAtomically ε cs catalogue cause rules (renewAll ε cs catalogue rules).state := by
  fun_induction renewAll ε cs catalogue rules with
  | case1 => cases h
  | case2 rule rest failure hrenew =>
    cases h
    obtain ⟨henabled, hactivate⟩ := Rule.activate_of_renew hrenew
    exact ⟨[], rule, rest, [rule.deactivate], rfl, henabled, hactivate, rfl, rfl, by simp⟩
  | case3 rule rest renewed hrenew ih =>
    obtain ⟨earlier, failed, later, reached, rfl, henabled, hactivate, hstate, hlength, hreached⟩ :=
      ih h
    have hunmarked := Rule.triggered_of_renew hrenew
    exact ⟨rule :: earlier, failed, later, renewed :: reached, rfl, henabled, hactivate,
      congrArg (renewed :: ·) hstate, by simp [hlength], List.forall_mem_cons.mpr
      ⟨hunmarked, hreached⟩⟩

theorem forall₂_renewAll {rules : List (Rule α)}
    (h : (renewAll ε cs catalogue rules).error = none) :
    List.Forall₂ (fun r r' => r.renew ε cs catalogue = .ok r') rules
      (renewAll ε cs catalogue rules).state := by
  fun_induction renewAll ε cs catalogue rules with
  | case1 => exact .nil
  | case2 rule rest failure hrenew => cases h
  | case3 rule rest renewed hrenew ih => exact .cons hrenew (ih h)

theorem renewAll_of_forall₂ {rules renewed : List (Rule α)}
    (h : List.Forall₂ (fun r r' => r.renew ε cs catalogue = .ok r') rules renewed) :
    renewAll ε cs catalogue rules = ⟨renewed, none⟩ := by
  induction h with
  | nil => rfl
  | cons hrenew _ ih => simp only [renewAll, hrenew, ih, Outcome.map]

/-- Rules that can be activated one by one can be renewed together. -/
theorem error_renewAll {rules : List (Rule α)} (h : ∀ r ∈ rules, r.enabled = true →
      ∃ r', r.deactivate.activate ε cs catalogue = .ok r') :
    (renewAll ε cs catalogue rules).error = none := by
  cases herror : (renewAll ε cs catalogue rules).error with
  | none => rfl
  | some cause =>
    obtain ⟨earlier, failed, later, -, rfl, henabled, hactivate, -⟩ :=
      failsAtomically_renewAll herror
    obtain ⟨r', hr'⟩ := h failed (by simp) henabled
    rw [hactivate] at hr'
    cases hr'

end Run

namespace Activation

variable {activation : Activation α} {rules : List (Rule α)}

/-- A cycle in two phases that fails has failed in the first one. -/
theorem failsAtomically_run (h : activation.IsTwoPhase) {cause : Error}
    (herror : (activation.run ε cs rules catalogue).error = some cause) :
    (Run.renewAll ε cs catalogue rules).error = some cause ∧
      (activation.run ε cs rules catalogue).catalogue = catalogue ∧
      Run.FailsAtomically ε cs catalogue cause rules
        (activation.run ε cs rules catalogue).rules := by
  rw [run_of_isTwoPhase h] at herror ⊢
  have hrenew := Run.error_renewAll_of_twoPhase (activation.deactivate_adjust ε)
    (activation.select_subset ε) herror
  have hrules := Run.failsAtomically_renewAll hrenew
  cases heq : Run.renewAll ε cs catalogue rules with
  | mk renewed error =>
    rw [heq] at hrenew hrules
    cases hrenew
    unfold Run.twoPhase
    rw [heq]
    exact ⟨rfl, rfl, hrules⟩

/-- Nothing is left that can fail once all rules have been renewed. -/
theorem error_run_of_isTwoPhase (h : activation.IsTwoPhase)
    (hrenew : (Run.renewAll ε cs catalogue rules).error = none) :
    (activation.run ε cs rules catalogue).error = none := by
  cases herror : (activation.run ε cs rules catalogue).error with
  | none => rfl
  | some cause => cases hrenew.symm.trans (failsAtomically_run h herror).1

theorem exists_renewed_of_isTwoPhase (h : activation.IsTwoPhase)
    (herror : (activation.run ε cs rules catalogue).error = none) :
    ∃ renewed, Run.renewAll ε cs catalogue rules = ⟨renewed, none⟩ ∧
      (activation.run ε cs rules catalogue).rules.map Rule.degree =
        (activation.adjust ε renewed).map Rule.degree := by
  rw [run_of_isTwoPhase h] at herror ⊢
  obtain ⟨renewed, hrenew, hrun⟩ := Run.exists_of_twoPhase herror
  refine ⟨renewed, hrenew, ?_⟩
  rw [hrun, Run.degree_triggerAt]

end Activation

/-! ### Blocks -/

/-- What a cycle of a block in two phases does. Its loops activate rules, all in the catalogue as it
was on entry, before they trigger any. If the cycle fails, it has triggered none, and the catalogue
is as it was on entry. If all enabled rules can be activated, it does not fail. -/
theorem Block.atomic_of_isTwoPhase {b : Block α} {activation : Activation α}
    (hactivation : b.activation = some activation) (h : activation.IsTwoPhase) (ε : α)
    (catalogue : κ) :
    let after := b.run ε catalogue
    ∃ activated triggered : List Nat,
      Outcome.ofSteps (InPlace.run ε b) ⟨b.rules, catalogue, []⟩ =
        ⟨⟨after.state.1.rules, after.state.2,
          InPlace.activations catalogue activated ++ triggered.map .trigger⟩, after.error⟩ ∧
      (∀ cause, after.error = some cause → triggered = [] ∧ after.state.2 = catalogue ∧
        Run.FailsAtomically ε b.combinators catalogue cause b.rules after.state.1.rules) ∧
      (b.enabled = true → after.error = none → ∃ renewed,
        List.Forall₂ (fun r r' => r.renew ε b.combinators catalogue = .ok r') b.rules renewed ∧
        activated = (Run.degrees renewed).map Prod.fst ∧
        after.state.1.rules.map Rule.degree =
          (activation.adjust ε renewed).map Rule.degree) ∧
      ((∀ r ∈ b.rules, r.enabled = true →
        ∃ r', r.deactivate.activate ε b.combinators catalogue = .ok r') → after.error = none) := by
  cases henabled : b.enabled with
  | false =>
    rw [Block.run_of_disabled henabled, InPlace.run, henabled]
    refine ⟨[], [], rfl, fun cause hcause => ?_, fun htrue => ?_, fun _ => rfl⟩
    · cases hcause
    · cases htrue
  | true =>
    obtain ⟨activated, triggered, hsteps, hfailed, hactivated⟩ :=
      InPlace.exists_of_twoPhase h ε b.combinators b.rules catalogue
    rw [Block.run_of_enabled henabled, InPlace.run, henabled, hactivation]
    simp only [if_true, Option.getD_some] at hsteps ⊢
    refine ⟨activated, triggered, hsteps, fun cause hcause => ?_, fun _ hnone => ?_, fun hall => ?_⟩
    · obtain ⟨hrenew, hcatalogue, hrules⟩ := Activation.failsAtomically_run h hcause
      exact ⟨hfailed (by simp [hrenew]), hcatalogue, hrules⟩
    · obtain ⟨renewed, hrenew, hdegree⟩ := Activation.exists_renewed_of_isTwoPhase h hnone
      have hrules := Run.forall₂_renewAll (congrArg Outcome.error hrenew)
      rw [hrenew] at hactivated hrules
      exact ⟨renewed, hrules, hactivated rfl, hdegree⟩
    · exact Activation.error_run_of_isTwoPhase h (Run.error_renewAll hall)

/-- A fan whose second rule takes a conjunction that is not there. -/
def Block.surge : Block Float where
  name := "speed"
  activation := some .proportional
  rules := [
    { Engine.fanRule with degree := 0.5, triggered := true },
    { Engine.fanRule with antecedent := ⟨"heat is high and heat is high", some (.combination .and
      (.proposition ⟨⟨⟨.input, 0⟩, "heat"⟩, [], some ⟨⟨0⟩, "high"⟩⟩)
      (.proposition ⟨⟨⟨.input, 0⟩, "heat"⟩, [], some ⟨⟨0⟩, "high"⟩⟩))⟩ },
    { Engine.fanRule with degree := 0.5, triggered := true }]

/-- The first rule could have been triggered, and is not. -/
theorem Block.atomic_surge :
    surge.activation = some .proportional ∧ (Activation.proportional (α := Float)).IsTwoPhase ∧
      (surge.run Binary64.defaultTolerance Engine.fan.vars).error =
        some (.missingCombinator .conjunction) ∧
      (surge.run Binary64.defaultTolerance Engine.fan.vars).state.2 = Engine.fan.vars ∧
      Run.FailsAtomically Binary64.defaultTolerance surge.combinators Engine.fan.vars
        (.missingCombinator .conjunction) surge.rules
        (surge.run Binary64.defaultTolerance Engine.fan.vars).state.1.rules := by
  have herror : (surge.run Binary64.defaultTolerance Engine.fan.vars).error =
      some (.missingCombinator .conjunction) := by decide +kernel
  have hactivation : surge.activation = some .proportional := rfl
  obtain ⟨activated, triggered, -, hfailed, -⟩ := atomic_of_isTwoPhase hactivation .proportional
    Binary64.defaultTolerance Engine.fan.vars
  obtain ⟨-, hcatalogue, hrules⟩ := hfailed _ herror
  exact ⟨rfl, .proportional, herror, hcatalogue, hrules⟩

end FuzzyInference
