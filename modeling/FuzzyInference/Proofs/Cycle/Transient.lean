import FuzzyInference.Proofs.Cycle.Entries
import FuzzyInference.Proofs.Cycle.Simulation
import FuzzyInference.Proofs.Loading.Definition
import FuzzyInference.Proofs.Rule.Consistency

/-!
What a cycle changes, part by part. Of the variables it is the conclusions, and of the rules of
enabled blocks the degree and the flag; all else is as before, whether the cycle ends with an error
or not. Disabled output variables are left without conclusions, because a rule that has been loaded
concludes about output variables only and looks at their flag.
-/
namespace FuzzyInference

variable {α κ : Type} [Scalar α]

/-! ### Parts that a cycle may change -/

/-- The second rule is the first one with another degree and flag. -/
def Rule.Remarked (r r' : Rule α) : Prop :=
  r' = { r with degree := r'.degree, triggered := r'.triggered }

/-- The second variable is the first one with other conclusions. -/
def OutputVariable.Rewritten (v v' : OutputVariable α) : Prop :=
  v' = { v with entries := v'.entries }

/-- The second block is the first one with other degrees and flags of its rules, if it is enabled.
-/
structure Block.Remarked (b b' : Block α) : Prop where
  block : b' = { b with rules := b'.rules }
  rules : b.rules.Forall₂ Rule.Remarked b'.rules
  disabled : b.enabled = false → b' = b

/-- The second engine is the first one with other conclusions and other degrees and flags. -/
structure Engine.Cycled (e e' : Engine α) : Prop where
  name : e'.name = e.name
  description : e'.description = e.description
  inputs : e'.vars.inputs = e.vars.inputs
  hedges : e'.vars.hedges = e.vars.hedges
  outputs : e.vars.outputs.Forall₂ OutputVariable.Rewritten e'.vars.outputs
  blocks : e.blocks.Forall₂ Block.Remarked e'.blocks

/-- Lists that a view shows alike agree, member by member, in what the view shows. -/
theorem forall₂_of_map_eq {T U : Type} {view : T → U} {P : T → T → Prop}
    (hP : ∀ {x y : T}, view y = view x → P x y) {xs ys : List T} (h : ys.map view = xs.map view) :
    xs.Forall₂ P ys := by
  have hviews : (xs.map view).Forall₂ Eq (ys.map view) := by
    rw [List.forall₂_eq_eq_eq, h]
  rw [List.forall₂_map_left_iff, List.forall₂_map_right_iff] at hviews
  exact hviews.imp fun x y hxy => hP hxy.symm

theorem Rule.remarked_of_deactivate_eq {r r' : Rule α} (h : r'.deactivate = r.deactivate) :
    r.Remarked r' := by
  cases r
  cases r'
  simp only [deactivate, Rule.mk.injEq] at h
  simp [Remarked, h]

omit [Scalar α] in
theorem OutputVariable.rewritten_of_clear_eq {v v' : OutputVariable α} (h : v'.clear = v.clear) :
    v.Rewritten v' := by
  cases v
  cases v'
  simp only [clear, OutputVariable.mk.injEq] at h
  simp [Rewritten, h]

omit [Scalar α] in
theorem Block.remarked_refl (b : Block α) : b.Remarked b :=
  ⟨rfl, List.forall₂_same.mpr fun _ _ => rfl, fun _ => rfl⟩

variable [NumberText α]

theorem Block.remarked_run [Catalogue κ α] (ε : α) (catalogue : κ) (b : Block α) :
    b.Remarked (b.run ε catalogue).state.1 := by
  cases henabled : b.enabled with
  | false =>
    rw [run_of_disabled henabled]
    exact b.remarked_refl
  | true =>
    have hover := (b.activation.getD .general).over_run ε b.combinators b.rules catalogue
    rw [run_of_enabled henabled]
    refine ⟨rfl, forall₂_of_map_eq Rule.remarked_of_deactivate_eq hover.rules, ?_⟩
    intro hdisabled
    cases henabled.symm.trans hdisabled

namespace Engine

theorem remarked_runBlocks (ε : α) (blocks : List (Block α)) (vars : Variables α) :
    blocks.Forall₂ Block.Remarked (runBlocks ε blocks vars).state.1 := by
  induction blocks generalizing vars with
  | nil => exact .nil
  | cons b rest ih =>
    have hb := b.remarked_run ε vars
    cases herror : (b.run ε vars).error with
    | some cause =>
      rw [runBlocks_cons_of_error herror]
      exact .cons hb (List.forall₂_same.mpr fun b _ => b.remarked_refl)
    | none =>
      rw [runBlocks_cons_of_none herror]
      exact .cons hb (ih _)

theorem cycled_process (ε : α) (e : Engine α) : e.Cycled (e.process ε).state := by
  have hclear : (e.process ε).state.vars.clearOutputs = e.vars.clearOutputs :=
    congrArg Engine.vars (restart_process ε e)
  have hinputs := congrArg Variables.inputs hclear
  have hhedges := congrArg Variables.hedges hclear
  have houtputs := congrArg Variables.outputs hclear
  exact ⟨rfl, rfl, hinputs, hhedges,
    forall₂_of_map_eq OutputVariable.rewritten_of_clear_eq houtputs, remarked_runBlocks ..⟩

end Engine

/-! ### Rules that conclude about output variables -/

namespace Rule

/-- The rules that there can be: a rule is made, it is operated on, and it is taken through cycles
of blocks with such rules. -/
inductive Reachable : Rule α → Prop where
  | made {r : Rule α} (h : r.Made) : Reachable r
  | apply {r : Rule α} (h : Reachable r) (operation : Operation α) : Reachable (r.apply operation)
  | run {κ : Type} [Catalogue κ α] {ε : α} {catalogue : κ} {b : Block α} {r : Rule α}
      (h : ∀ r ∈ b.rules, Reachable r) (hr : r ∈ (b.run ε catalogue).state.1.rules) : Reachable r

namespace Concludes

variable {r r' : Rule α}

omit [Scalar α] [NumberText α] in
theorem of_consequent_eq (h : r.Concludes) (heq : r'.consequent = r.consequent) :
    r'.Concludes := by
  unfold Concludes
  rw [heq]
  exact h

omit [Scalar α] [NumberText α] in
theorem of_not_isLoaded (h : r.consequent.conclusions = none) : r.Concludes := by
  simp [Concludes, h]

omit [Scalar α] [NumberText α] in
theorem of_resolve [Catalogue κ α] {catalogue : κ} (h : r.resolve catalogue = .ok r') :
    r'.Concludes := by
  obtain ⟨e, ps, -, hps, rfl⟩ := exists_of_resolve h
  exact Proposition.isConclusion_of_parseConclusions hps

omit [Scalar α] [NumberText α] in
theorem orKeep {result : Except Error (Rule α)} (h : r.Concludes)
    (hresult : ∀ changed, result = .ok changed → changed.consequent = r.consequent) :
    (r.orKeep result).Concludes := by
  cases result with
  | ok changed => exact h.of_consequent_eq (hresult changed rfl)
  | error cause => exact h

theorem apply (h : r.Concludes) (operation : Operation α) : (r.apply operation).Concludes := by
  cases operation with
  | setWeight weight =>
    apply h.orKeep
    intro changed hchanged
    unfold Rule.setWeight at hchanged
    split at hchanged <;> cases hchanged
    rfl
  | setEnabled enabled => exact h
  | load catalogue => exact (r.resolved_load catalogue).concludes
  | unload => exact of_not_isLoaded rfl
  | deactivate => exact h
  | activate ε cs catalogue =>
    apply h.orKeep
    intro changed hchanged
    obtain ⟨-, degree, -, rfl⟩ := exists_of_activate hchanged
    rfl
  | trigger ε implication catalogue =>
    apply h.orKeep
    intro changed hchanged
    obtain ⟨fired, htrigger, rfl⟩ := exists_of_map_eq_ok hchanged
    obtain ⟨-, ⟨-, hfired, -⟩ | ⟨-, hfired, -⟩⟩ := trigger_cases htrigger <;> rw [hfired]

end Concludes

theorem Made.concludes {r : Rule α} (h : r.Made) : r.Concludes := by
  cases h with
  | new h =>
    unfold Rule.new at h
    split at h <;> cases h
    exact .of_not_isLoaded rfl
  | parse h =>
    rw [(wellFormed_of_parse h).1]
    exact .of_not_isLoaded rfl
  | create h =>
    obtain ⟨unloaded, -, hresolve⟩ := exists_of_bind_eq_ok h
    exact .of_resolve hresolve

theorem Reachable.concludes {r : Rule α} (h : r.Reachable) : r.Concludes := by
  induction h with
  | made h => exact h.concludes
  | apply _ operation ih => exact ih.apply operation
  | @run κ _ ε catalogue b r _ hr ih =>
    have hrun := congrArg Block.rules (b.deactivate_run ε catalogue)
    obtain ⟨r', hr', heq⟩ := exists_of_map_deactivate_eq hrun r hr
    exact concludes_of_deactivate_eq heq (ih r' hr')

end Rule

/-- All rules that a definition adds have been read and loaded. -/
theorem Engine.reachable_loadDefinition {components : Components α} {d : Definition}
    {e e' : Engine α} (h : ∀ b ∈ e.blocks, ∀ r ∈ b.rules, r.Reachable)
    (hload : e.loadDefinition components d = .ok e') :
    ∀ b ∈ e'.blocks, ∀ r ∈ b.rules, r.Reachable := by
  rw [loadDefinition_eq_map] at hload
  obtain ⟨added, hbuild, rfl⟩ := exists_of_map_eq_ok hload
  have hrules := (Definition.loadedTo_of_buildLoaded hbuild).rules
  simp only [addBlock, List.forall_mem_append, List.forall_mem_singleton]
  refine ⟨h, ?_⟩
  generalize d.rules = texts, added.rules = rules at hrules ⊢
  induction hrules with
  | nil => exact List.forall_mem_nil _
  | cons hr _ ih =>
    obtain ⟨r₀, hparse, hr₀⟩ := hr.read
    have hreachable := (Rule.Reachable.made (.parse hparse)).apply (.load e.vars)
    rw [Rule.apply, hr₀] at hreachable
    exact List.forall_mem_cons.mpr ⟨hreachable, ih⟩

/-! ### Disabled output variables -/

/-- No disabled output variable has a conclusion. -/
def Variables.DisabledEmpty (vs : Variables α) : Prop :=
  ∀ v ∈ vs.outputs, v.enabled = false → v.entries = []

namespace Variables.DisabledEmpty

variable {vs vs' : Variables α}

omit [Scalar α] [NumberText α] in
theorem clearOutputs (vs : Variables α) : vs.clearOutputs.DisabledEmpty := by
  simp only [DisabledEmpty, Variables.clearOutputs, List.forall_mem_map]
  exact fun _ _ _ => rfl

omit [Scalar α] [NumberText α] in
theorem of_gains {entriesAt : Nat → List (Entry α)} (h : vs.DisabledEmpty)
    (hgains : Gains entriesAt vs vs') : vs'.DisabledEmpty := by
  intro v' hv' hdisabled
  obtain ⟨index, hindex⟩ := List.mem_iff_getElem?.mp hv'
  rw [hgains index] at hindex
  obtain ⟨v, hv, rfl⟩ := Option.map_eq_some_iff.mp hindex
  have hdisabled : v.enabled = false := hdisabled
  rw [OutputVariable.extend_of_disabled hdisabled]
  exact h v (List.mem_of_getElem? hv) hdisabled

omit [NumberText α] in
/-- Both variables are the same here: the relation is an invariant of one run. -/
theorem respects {r : Rule α} (h : r.Concludes) (ε : α) (cs : Combinators α) :
    r.Respects ε cs fun vs vs' : Variables α => vs = vs' ∧ vs.DisabledEmpty where
  degree := by
    rintro vs _ ⟨rfl, -⟩ -
    rfl
  conclude := by
    rintro vs _ ⟨rfl, hvs⟩ p hp degree
    exact ⟨rfl, hvs.of_gains (Gains.of_conclude (h p hp) ε degree cs.implication vs)⟩

end Variables.DisabledEmpty

namespace Engine

theorem disabledEmpty_process {e : Engine α} (h : ∀ b ∈ e.blocks, ∀ r ∈ b.rules, r.Concludes)
    (ε : α) : (e.process ε).state.vars.DisabledEmpty := by
  have hrespects : ∀ b ∈ e.blocks,
      b.Respects ε fun vs vs' : Variables α => vs = vs' ∧ vs.DisabledEmpty :=
    fun b hb _ r hr => Variables.DisabledEmpty.respects (h b hb r hr) ε b.combinators
  obtain ⟨-, ⟨-, hvars⟩, -⟩ := matches_runBlocks hrespects
    (And.intro rfl (Variables.DisabledEmpty.clearOutputs e.vars))
  exact hvars

/-- A cycle changes the conclusions of output variables, and the degrees and flags of rules in
enabled blocks, and nothing else, whether it ends with an error or not. Disabled output variables
have no conclusions after it. -/
theorem process_changes (ε : α) (e : Engine α) :
    e.Cycled (e.process ε).state ∧
      ((∀ b ∈ e.blocks, ∀ r ∈ b.rules, r.Reachable) →
        ∀ v ∈ (e.process ε).state.vars.outputs, v.enabled = false → v.entries = []) :=
  ⟨e.cycled_process ε, fun h =>
    disabledEmpty_process (fun b hb r hr => (h b hb r hr).concludes) ε⟩

/-- The second rule needs a conjunction, and there is none. -/
def stopping : Definition where
  name := "stopping"
  rules := [
    "if heat is high then fan is fast and lamp is bright",
    "if heat is low and heat is high then fan is slow"]

/-- What the first rule has concluded about the fan stays when the second one fails; the lamp is
disabled. -/
theorem process_changes_stopping : ∃ e, room.loadDefinition Components.builtin stopping = .ok e ∧
    (∀ b ∈ e.blocks, ∀ r ∈ b.rules, r.Reachable) ∧
    e.Cycled (e.process Binary64.defaultTolerance).state ∧
    (∀ v ∈ (e.process Binary64.defaultTolerance).state.vars.outputs,
      v.enabled = false → v.entries = []) ∧
    (e.process Binary64.defaultTolerance).error = some (.missingCombinator .conjunction) ∧
    (e.process Binary64.defaultTolerance).state.vars.outputs.map (·.entries.length) = [1, 0] := by
  have hrun : (room.loadDefinition Components.builtin stopping).map (fun e =>
      ((e.process Binary64.defaultTolerance).error,
        (e.process Binary64.defaultTolerance).state.vars.outputs.map (·.entries.length))) =
      .ok (some (.missingCombinator .conjunction), [1, 0]) := by
    decide +kernel
  obtain ⟨e, hload, hcycle⟩ := exists_of_map_eq_ok hrun
  obtain ⟨herror, hentries⟩ := Prod.mk.inj hcycle
  have hreachable := reachable_loadDefinition (by simp [room]) hload
  obtain ⟨hcycled, hdisabled⟩ := process_changes Binary64.defaultTolerance e
  exact ⟨e, hload, hreachable, hcycled, hdisabled hreachable, herror, hentries⟩

end Engine

end FuzzyInference
