import FuzzyInference.Binary64.Instances
import FuzzyInference.Proofs.Cycle.Frame

/-!
Cycles do not depend on history. A rule is deactivated before anything of it is read, so a cycle of
rules that earlier cycles have marked draws the same conclusions, and ends with the same error, as
one of rules that have just been deactivated. Only rules that an error keeps it from stay marked.
-/
namespace FuzzyInference

variable {α κ : Type} [Scalar α] [NumberText α]

/-- The runs have the same effect; their rules may differ only if they end with an error. -/
structure Run.Agrees (run run' : Run κ α) : Prop where
  catalogue : run.catalogue = run'.catalogue
  error : run.error = run'.error
  rules : run.error = none → run.rules = run'.rules

section Runs

variable [Catalogue κ α]

theorem Rule.renew_deactivate (ε : α) (cs : Combinators α) (catalogue : κ) (r : Rule α) :
    r.deactivate.renew ε cs catalogue = r.renew ε cs catalogue := rfl

namespace Run

omit [Scalar α] [NumberText α] [Catalogue κ α] in
theorem Agrees.refl (run : Run κ α) : run.Agrees run := ⟨rfl, rfl, fun _ => rfl⟩

omit [Scalar α] [NumberText α] [Catalogue κ α] in
theorem Agrees.cons {run run' : Run κ α} (h : run.Agrees run') (rule : Rule α) :
    (run.cons rule).Agrees (run'.cons rule) :=
  ⟨h.catalogue, h.error, fun herror => congrArg (rule :: ·) (h.rules herror)⟩

omit [Scalar α] [NumberText α] [Catalogue κ α] in
theorem Agrees.reverse {run run' : Run κ α} (h : run.Agrees run') :
    run.reverse.Agrees run'.reverse :=
  ⟨h.catalogue, h.error, fun herror => congrArg List.reverse (h.rules herror)⟩

omit [Scalar α] [NumberText α] [Catalogue κ α] in
theorem Agrees.of_error {run run' : Run κ α} {cause : Error} (h : run.error = some cause)
    (h' : run'.error = some cause) (hcatalogue : run.catalogue = run'.catalogue) :
    run.Agrees run' := by
  refine ⟨hcatalogue, h.trans h'.symm, fun herror => ?_⟩
  rw [h] at herror
  cases herror

theorem inOrder_deactivate (ε : α) (cs : Combinators α) (admits : Nat → α → Bool)
    (admitted : Nat) (rules : List (Rule α)) (catalogue : κ) :
    (inOrder ε cs admits admitted (rules.map Rule.deactivate) catalogue).Agrees
      (inOrder ε cs admits admitted rules catalogue) := by
  fun_induction inOrder ε cs admits admitted rules catalogue with
  | case1 admitted catalogue => exact .refl _
  | case2 admitted rule rest catalogue cause hrenew =>
    simp only [List.map_cons, inOrder, Rule.renew_deactivate, hrenew]
    exact .of_error rfl rfl rfl
  | case3 admitted rule rest catalogue renewed hrenew hadmitted cause htrigger =>
    simp only [List.map_cons, inOrder, Rule.renew_deactivate, hrenew, hadmitted, htrigger, if_true]
    exact .of_error rfl rfl rfl
  | case4 admitted rule rest catalogue renewed hrenew hadmitted fired catalogue' htrigger ih =>
    simp only [List.map_cons, inOrder, Rule.renew_deactivate, hrenew, hadmitted, htrigger, if_true]
    exact ih.cons fired
  | case5 admitted rule rest catalogue renewed hrenew hadmitted ih =>
    simp only [List.map_cons, inOrder, Rule.renew_deactivate, hrenew, if_neg hadmitted]
    exact ih.cons renewed

/-- Renewing forgets the marks of all rules, unless it fails. -/
theorem renewAll_deactivate (ε : α) (cs : Combinators α) (catalogue : κ) (rules : List (Rule α)) :
    (renewAll ε cs catalogue (rules.map Rule.deactivate)).error =
        (renewAll ε cs catalogue rules).error ∧
      ((renewAll ε cs catalogue rules).error = none →
        renewAll ε cs catalogue (rules.map Rule.deactivate) = renewAll ε cs catalogue rules) := by
  fun_induction renewAll ε cs catalogue rules with
  | case1 => exact ⟨rfl, fun _ => rfl⟩
  | case2 rule rest cause hrenew =>
    rw [List.map_cons, renewAll, Rule.renew_deactivate, hrenew]
    exact ⟨rfl, fun herror => absurd herror (Option.some_ne_none cause)⟩
  | case3 rule rest renewed hrenew ih =>
    simp only [List.map_cons, renewAll, Rule.renew_deactivate, hrenew]
    refine ⟨ih.1, fun herror => ?_⟩
    rw [ih.2 herror]

theorem twoPhase_deactivate (ε : α) (cs : Combinators α)
    (adjust : List (Rule α) → List (Rule α)) (select : List (Nat × α) → List Nat)
    (rules : List (Rule α)) (catalogue : κ) :
    (twoPhase ε cs adjust select (rules.map Rule.deactivate) catalogue).Agrees
      (twoPhase ε cs adjust select rules catalogue) := by
  obtain ⟨herror, hstate⟩ := renewAll_deactivate ε cs catalogue rules
  cases hrenew : (renewAll ε cs catalogue rules).error with
  | none =>
    have heq := hstate hrenew
    simp only [twoPhase, heq]
    exact .refl _
  | some cause =>
    rw [hrenew] at herror
    obtain ⟨rules', hrules'⟩ : ∃ rules', renewAll ε cs catalogue rules = ⟨rules', some cause⟩ :=
      ⟨_, by rw [← hrenew]⟩
    obtain ⟨rules'', hrules''⟩ : ∃ rules'',
        renewAll ε cs catalogue (rules.map Rule.deactivate) = ⟨rules'', some cause⟩ :=
      ⟨_, by rw [← herror]⟩
    simp only [twoPhase, hrules', hrules'']
    exact .of_error rfl rfl rfl

end Run

theorem Activation.run_deactivate (ε : α) (cs : Combinators α) (rules : List (Rule α))
    (catalogue : κ) (activation : Activation α) :
    (activation.run ε cs (rules.map Rule.deactivate) catalogue).Agrees
      (activation.run ε cs rules catalogue) := by
  cases activation with
  | general => exact Run.inOrder_deactivate ..
  | first count bound => exact Run.inOrder_deactivate ..
  | last count bound =>
    have hrun := Run.inOrder_deactivate ε cs (Run.reaches ε count bound) 0 rules.reverse catalogue
    rw [List.map_reverse] at hrun
    exact hrun.reverse
  | highest count => exact Run.twoPhase_deactivate ..
  | lowest count => exact Run.twoPhase_deactivate ..
  | threshold comparison value =>
    unfold Activation.run
    exact Run.twoPhase_deactivate ..
  | proportional => exact Run.twoPhase_deactivate ..

/-- A block that is not enabled keeps its marks. -/
theorem Block.run_deactivate (ε : α) (catalogue : κ) (b : Block α) :
    (b.deactivate.run ε catalogue).error = (b.run ε catalogue).error ∧
      (b.deactivate.run ε catalogue).state.2 = (b.run ε catalogue).state.2 ∧
      ((b.run ε catalogue).error = none → b.enabled = true →
        (b.deactivate.run ε catalogue).state.1 = (b.run ε catalogue).state.1) := by
  have hrun := (b.activation.getD .general).run_deactivate ε b.combinators b.rules catalogue
  cases henabled : b.enabled with
  | false => simp [Block.run, Block.deactivate, henabled]
  | true =>
    simp only [Block.run, Block.deactivate, henabled, if_true]
    refine ⟨hrun.error, hrun.catalogue, fun herror _ => ?_⟩
    rw [hrun.rules (hrun.error.trans herror)]

end Runs

/-! ### Engines -/

namespace Engine

theorem runBlocks_deactivate (ε : α) (blocks : List (Block α)) (vars : Variables α) :
    (runBlocks ε (blocks.map Block.deactivate) vars).error = (runBlocks ε blocks vars).error ∧
      (runBlocks ε (blocks.map Block.deactivate) vars).state.2 =
        (runBlocks ε blocks vars).state.2 ∧
      ((runBlocks ε blocks vars).error = none →
        (runBlocks ε (blocks.map Block.deactivate) vars).state.1.filter Block.enabled =
          (runBlocks ε blocks vars).state.1.filter Block.enabled) := by
  induction blocks generalizing vars with
  | nil => exact ⟨rfl, rfl, fun _ => rfl⟩
  | cons b rest ih =>
    obtain ⟨herror, hvars, hblock⟩ := b.run_deactivate ε vars
    cases hrun : (b.run ε vars).error with
    | some cause =>
      have hrun' := herror.trans hrun
      rw [List.map_cons, runBlocks_cons_of_error hrun, runBlocks_cons_of_error hrun']
      exact ⟨rfl, hvars, nofun⟩
    | none =>
      have hrun' := herror.trans hrun
      rw [List.map_cons, runBlocks_cons_of_none hrun, runBlocks_cons_of_none hrun', hvars]
      obtain ⟨hrest, hvars', hblocks⟩ := ih (b.run ε vars).state.2
      refine ⟨hrest, hvars', fun hnone => ?_⟩
      have henabled : (b.deactivate.run ε vars).state.1.enabled = b.enabled :=
        b.deactivate.enabled_run ε vars
      simp only [Outcome.map, List.filter_cons, henabled, b.enabled_run, hblocks hnone]
      split
      · next h => rw [hblock hrun h]
      · rfl

theorem process_restart (ε : α) (e : Engine α) :
    (e.restart.process ε).error = (e.process ε).error ∧
      (e.restart.process ε).state.vars = (e.process ε).state.vars ∧
      ((e.process ε).error = none →
        (e.restart.process ε).state.blocks.filter Block.enabled =
          (e.process ε).state.blocks.filter Block.enabled) := by
  have hrun := runBlocks_deactivate ε e.blocks e.vars.clearOutputs
  simpa only [process, Outcome.map, restart, Variables.clearOutputs_clearOutputs] using hrun

/-- A cycle has the same effect on two engines that a restart makes equal, that is, on engines that
differ in the degrees and flags of their rules and in their conclusions only. -/
theorem process_of_restart_eq {e e' : Engine α} (ε : α) (h : e.restart = e'.restart) :
    (e.process ε).error = (e'.process ε).error ∧
      (e.process ε).state.vars = (e'.process ε).state.vars ∧
      ((e.process ε).error = none →
        (e.process ε).state.blocks.filter Block.enabled =
          (e'.process ε).state.blocks.filter Block.enabled) := by
  obtain ⟨herror, hvars, hblocks⟩ := process_restart ε e
  obtain ⟨herror', hvars', hblocks'⟩ := process_restart ε e'
  rw [h] at herror hvars hblocks
  refine ⟨herror.symm.trans herror', hvars.symm.trans hvars', fun hnone => ?_⟩
  have hnone' := (herror'.symm.trans herror).trans hnone
  exact (hblocks hnone).symm.trans (hblocks' hnone')

/-- A fan that runs fast when it is hot. -/
def fanRule : Rule Float where
  antecedent := ⟨"heat is high", some (.proposition
    ⟨⟨⟨.input, 0⟩, "heat"⟩, [], some ⟨⟨0⟩, "high"⟩⟩)⟩
  consequent := ⟨"fan is fast", some [⟨⟨⟨.output, 0⟩, "fan"⟩, [], some ⟨⟨0⟩, "fast"⟩⟩]⟩
  weight := 1
  enabled := true
  degree := 0
  triggered := false

def fan : Engine Float where
  name := "fan"
  vars :=
    { inputs := [{
        name := "heat", minimum := 0, maximum := 1, value := 0.75
        terms := [⟨"high", .triangle 0 1 1⟩] }]
      outputs := [{ name := "fan", terms := [⟨"fast", .triangle 0 1 1⟩] }] }
  blocks := [{
    name := "speed", activation := some (.highest 1)
    rules := [fanRule, { fanRule with enabled := false }] }]

/-- The fan with what earlier cycles may have left. -/
def usedFan : Engine Float where
  name := "fan"
  vars := { fan.vars with outputs := [{
    name := "fan", terms := [⟨"fast", .triangle 0 1 1⟩], entries := [⟨⟨0⟩, 0.5, none⟩] }] }
  blocks := [{
    name := "speed", activation := some (.highest 1)
    rules := [
      { fanRule with degree := 0.5, triggered := true },
      { fanRule with enabled := false, degree := 0.25, triggered := true }] }]

/-- Neither the old conclusion nor the flag of the disabled rule is left. -/
theorem process_usedFan :
    usedFan.restart = fan.restart ∧
      (fan.process Binary64.defaultTolerance).error = none ∧
      (usedFan.process Binary64.defaultTolerance).error = none ∧
      (usedFan.process Binary64.defaultTolerance).state.vars =
        (fan.process Binary64.defaultTolerance).state.vars ∧
      (usedFan.process Binary64.defaultTolerance).state.blocks.filter Block.enabled =
        (fan.process Binary64.defaultTolerance).state.blocks.filter Block.enabled := by
  have hrestart : usedFan.restart = fan.restart := rfl
  have hfan : (fan.process Binary64.defaultTolerance).error = none := by decide +kernel
  obtain ⟨herror, hvars, hblocks⟩ := process_of_restart_eq Binary64.defaultTolerance hrestart
  have hused := herror.trans hfan
  exact ⟨hrestart, hfan, hused, hvars, hblocks hused⟩

end Engine

end FuzzyInference
