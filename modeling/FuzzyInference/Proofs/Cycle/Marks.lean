import FuzzyInference.Proofs.Cycle.Entries
import FuzzyInference.Proofs.Cycle.Steps
import FuzzyInference.Proofs.Cycle.Stops

/-!
What the mark of a rule says after a cycle. If the cycle has marked the rule, the conclusions of the
rule are among those that the cycle has drawn, also where an error has ended it. A rule that the
cycle has not reached keeps the mark of an earlier one: its block is disabled, or the cycle has
failed at a rule before it.
-/
namespace FuzzyInference

variable {α κ : Type} [Scalar α]

/-! ### Rules that have fired -/

/-- The rule could fire, and its conclusions are part of what was written on the way to the
catalogue. -/
structure Rule.Fired [Catalogue κ α] (ε : α) (implication : Option (TNorm α)) (catalogue : κ)
    (r : Rule α) : Prop where
  loaded : r.isLoaded = true
  fires : r.fires ε = true
  written : ∃ before : κ, Concluded (r.write ε implication before) catalogue

section Runs

variable [NumberText α] [Catalogue κ α] {ε : α} {cs : Combinators α}
  {implication : Option (TNorm α)} {catalogue catalogue' : κ}

omit [NumberText α] in
theorem Rule.Fired.of_concluded {r : Rule α} (h : r.Fired ε implication catalogue)
    (hconcluded : Concluded catalogue catalogue') : r.Fired ε implication catalogue' := by
  obtain ⟨before, hwritten⟩ := h.written
  exact ⟨h.loaded, h.fires, before, hwritten.trans hconcluded⟩

/-- A rule that triggering leaves marked has fired, now or before. -/
theorem Rule.fired_of_trigger {r fired : Rule α}
    (h : r.trigger ε implication catalogue = .ok (fired, catalogue'))
    (hr : r.triggered = true → r.Fired ε implication catalogue) (hfired : fired.triggered = true) :
    fired.Fired ε implication catalogue' := by
  obtain ⟨hloaded, ⟨-, rfl, rfl⟩ | ⟨hfires, rfl, rfl⟩⟩ := Rule.trigger_cases h
  · exact hr hfired
  · exact ⟨hloaded, hfires, catalogue, .refl _⟩

/-- The steps of a cycle mark only rules that fire. -/
theorem Rule.kept_fired (ε : α) (cs : Combinators α) :
    Rule.Kept ε cs fun (catalogue : κ) r =>
      r.triggered = true → r.Fired ε cs.implication catalogue where
  concluded h hconcluded htriggered := (h htriggered).of_concluded hconcluded
  deactivate _ htriggered := by cases htriggered
  renew _ hrenew htriggered := by cases (triggered_of_renew hrenew).symm.trans htriggered
  share _ _ _ hunmarked htriggered := by cases hunmarked.symm.trans htriggered
  trigger h htrigger := fired_of_trigger htrigger h

end Runs

/-! ### Entries -/

/-- From the first variables to the second ones each enabled output variable has got at least the
given conclusions, in order. -/
def GainsAtLeast (entriesAt : Nat → List (Entry α)) (vs vs' : Variables α) : Prop :=
  ∀ (index : Nat) (v' : OutputVariable α), vs'.outputs[index]? = some v' → v'.enabled = true →
    ∃ v, vs.outputs[index]? = some v ∧ v.enabled = true ∧
      (v.entries ++ entriesAt index).Sublist v'.entries

namespace GainsAtLeast

variable {vs vs' vs'' : Variables α} {entriesAt entriesAt' : Nat → List (Entry α)}

omit [Scalar α] in
theorem refl (vs : Variables α) : GainsAtLeast (fun _ => []) vs vs := by
  intro index v hv henabled
  exact ⟨v, hv, henabled, by simp⟩

omit [Scalar α] in
theorem trans (h : GainsAtLeast entriesAt vs vs') (h' : GainsAtLeast entriesAt' vs' vs'') :
    GainsAtLeast (fun index => entriesAt index ++ entriesAt' index) vs vs'' := by
  intro index v'' hv'' henabled''
  obtain ⟨v', hv', henabled', hentries'⟩ := h' index v'' hv'' henabled''
  obtain ⟨v, hv, henabled, hentries⟩ := h index v' hv' henabled'
  refine ⟨v, hv, henabled, ?_⟩
  rw [← List.append_assoc]
  exact (hentries.append_right _).trans hentries'

omit [Scalar α] in
theorem of_gains (h : Gains entriesAt vs vs') : GainsAtLeast entriesAt vs vs' := by
  intro index v' hv' henabled'
  rw [h index] at hv'
  obtain ⟨v, hv, rfl⟩ := Option.map_eq_some_iff.mp hv'
  have henabled : v.enabled = true := henabled'
  exact ⟨v, hv, henabled, by simp [OutputVariable.extend, henabled]⟩

theorem of_concluded (h : Concluded vs vs') : GainsAtLeast (fun _ => []) vs vs' := by
  obtain ⟨conclusions, rfl⟩ := h
  induction conclusions generalizing vs with
  | nil => exact refl vs
  | cons c rest ih =>
    have hstep : GainsAtLeast (fun _ => []) vs (Catalogue.conclude vs c) := by
      intro index v' hv' henabled'
      change (vs.outputs.modify c.variableId.index _)[index]? = some v' at hv'
      rw [List.getElem?_modify] at hv'
      obtain ⟨v, hv, rfl⟩ := Option.map_eq_some_iff.mp hv'
      refine ⟨v, hv, ?_, ?_⟩
      · revert henabled'
        split <;> exact id
      · split <;> simp [OutputVariable.push]
    exact hstep.trans ih

theorem of_conclude (ε degree : α) (implication : Option (TNorm α)) (vs : Variables α)
    (p : Proposition α) :
    GainsAtLeast (fun index => (p.entryAt ε degree implication index).toList) vs
      (p.conclude ε degree implication vs) := by
  intro index v' hv' henabled'
  cases hentry : p.entryAt ε degree implication index with
  | none =>
    have hconcluded := Concluded.of_conclude ε degree implication vs p
    simpa only [hentry, Option.toList_none] using of_concluded hconcluded index v' hv' henabled'
  | some entry =>
    have hp : p.IsConclusion := by
      unfold Proposition.entryAt at hentry
      split at hentry
      · next hid =>
        obtain ⟨term, hterm, -⟩ := Option.map_eq_some_iff.mp hentry
        exact ⟨by simp [hid, VariableId.isOutput], by simp [hterm]⟩
      · cases hentry
    have hgains := of_gains (Gains.of_conclude hp ε degree implication vs) index v' hv' henabled'
    simpa only [hentry] using hgains

theorem of_write (ε : α) (implication : Option (TNorm α)) (vs : Variables α) (r : Rule α) :
    GainsAtLeast (r.entriesAt ε implication) vs (r.write ε implication vs) := by
  unfold Rule.write
  have hentries : r.entriesAt ε implication = fun index =>
      (r.consequent.conclusions.getD []).filterMap (·.entryAt ε r.degree implication index) := rfl
  rw [hentries]
  induction r.consequent.conclusions.getD [] generalizing vs with
  | nil => exact refl vs
  | cons p ps ih =>
    have hgains := (of_conclude ε r.degree implication vs p).trans (ih _)
    simpa only [List.foldl_cons, List.filterMap_eq_flatMap_toList, List.flatMap_cons] using hgains

end GainsAtLeast

/-- The conclusions of a rule that has fired are among those of each enabled output variable that
they name. -/
theorem Rule.Fired.sublist_entries {ε : α} {implication : Option (TNorm α)} {vs : Variables α}
    {r : Rule α} (h : r.Fired ε implication vs) {index : Nat} {v : OutputVariable α}
    (hv : vs.outputs[index]? = some v) (henabled : v.enabled = true) :
    (r.entriesAt ε implication index).Sublist v.entries := by
  obtain ⟨before, hwritten⟩ := h.written
  have hgains := (GainsAtLeast.of_write ε implication before r).trans (.of_concluded hwritten)
  obtain ⟨u, -, -, hentries⟩ := hgains index v hv henabled
  simp only [List.append_nil] at hentries
  exact (List.sublist_append_right ..).trans hentries

/-! ### Blocks and engines -/

variable [NumberText α]

/-- A block whose rules have no marks marks only rules that fire, and none if it is disabled. -/
theorem Block.fired_of_run {b : Block α} (hb : ∀ r ∈ b.rules, r.triggered = false) (ε : α)
    (vs : Variables α) :
    ∀ r ∈ (b.run ε vs).state.1.rules, r.triggered = true →
      b.enabled = true ∧ r.Fired ε b.combinators.implication (b.run ε vs).state.2 := by
  have hunmarked : ∀ r ∈ b.rules, r.triggered = true →
      r.Fired ε b.combinators.implication vs := by
    intro r hr htriggered
    cases (hb r hr).symm.trans htriggered
  have hfired := forall_run (Rule.kept_fired ε b.combinators) hunmarked
  intro r hr htriggered
  refine ⟨?_, hfired r hr htriggered⟩
  cases henabled : b.enabled with
  | true => rfl
  | false =>
    rw [run_of_disabled henabled] at hr
    cases (hb r hr).symm.trans htriggered

namespace Engine

def rule? (e : Engine α) (i j : Nat) : Option (Rule α) := ruleAt? e.blocks i j

/-- Whether a cycle triggers a rule: it marks the rule also if no rule was marked before. -/
def triggers (ε : α) (e : Engine α) (i j : Nat) : Bool :=
  ((e.restart.process ε).state.rule? i j).any Rule.triggered

/-- A cycle does not reach a rule: its block is disabled, or an earlier rule fails. -/
def Misses (ε : α) (e : Engine α) (i j : Nat) : Prop :=
  Unreached ε e.blocks (e.process ε).state.vars (e.process ε).error i j

/-- A run of blocks without marks marks only rules that have fired. -/
theorem fired_of_runBlocks {blocks : List (Block α)}
    (hblocks : ∀ b ∈ blocks, ∀ r ∈ b.rules, r.triggered = false) (ε : α) (vars : Variables α) :
    ∀ b ∈ (runBlocks ε blocks vars).state.1, ∀ r ∈ b.rules, r.triggered = true →
      b.enabled = true ∧ r.Fired ε b.combinators.implication (runBlocks ε blocks vars).state.2 := by
  induction blocks generalizing vars with
  | nil => simp [runBlocks]
  | cons b rest ih =>
    obtain ⟨hb, hrest⟩ := List.forall_mem_cons.mp hblocks
    have hfired := Block.fired_of_run hb ε vars
    rw [← b.enabled_run ε vars, ← b.combinators_run ε vars] at hfired
    cases hrun : (b.run ε vars).error with
    | some cause =>
      rw [runBlocks_cons_of_error hrun]
      refine List.forall_mem_cons.mpr ⟨hfired, fun b' hb' r hr htriggered => ?_⟩
      cases (hrest b' hb' r hr).symm.trans htriggered
    | none =>
      have hlater := concluded_runBlocks ε rest (b.run ε vars).state.2
      rw [runBlocks_cons_of_none hrun]
      refine List.forall_mem_cons.mpr ⟨fun r hr htriggered => ?_, ih hrest (b.run ε vars).state.2⟩
      obtain ⟨hb', hr'⟩ := hfired r hr htriggered
      exact ⟨hb', hr'.of_concluded hlater⟩

theorem fired_of_process_restart (ε : α) (e : Engine α) :
    ∀ b ∈ (e.restart.process ε).state.blocks, ∀ r ∈ b.rules, r.triggered = true →
      b.enabled = true ∧ r.Fired ε b.combinators.implication (e.process ε).state.vars := by
  have hunmarked : ∀ b ∈ e.restart.blocks, ∀ r ∈ b.rules, r.triggered = false := by
    simp [restart, Block.deactivate]
  obtain ⟨-, hvars, -⟩ := process_restart ε e
  rw [← hvars]
  exact fired_of_runBlocks hunmarked ε e.restart.vars.clearOutputs

/-- What a mark says after a cycle, whether it ends with an error or not. Either this cycle has
triggered the rule, and then the rule can fire and its conclusions are among those of the enabled
output variables; or the cycle has not reached the rule and has left it as it was. -/
theorem triggered_process {ε : α} {e : Engine α} {i j : Nat} {b : Block α} {r : Rule α}
    (hb : (e.process ε).state.blocks[i]? = some b) (hr : b.rules[j]? = some r)
    (htriggered : r.triggered = true) :
    (e.triggers ε i j = true ∧ b.enabled = true ∧ r.isLoaded = true ∧ r.fires ε = true ∧
      ∀ index v, (e.process ε).state.vars.outputs[index]? = some v → v.enabled = true →
        (r.entriesAt ε b.combinators.implication index).Sublist v.entries) ∨
    (e.Misses ε i j ∧ e.rule? i j = some r) := by
  have hrule : (e.process ε).state.rule? i j = some r := by
    simp only [rule?, ruleAt?, hb, Option.bind_some, hr]
  obtain halike | ⟨hkept, hmisses⟩ := ruleAt?_runBlocks ε e.blocks e.vars.clearOutputs i j
  · have hclean : (e.restart.process ε).state.rule? i j = some r := by
      have hvars : e.restart.vars.clearOutputs = e.vars.clearOutputs :=
        e.vars.clearOutputs_clearOutputs
      simp only [rule?, process, Outcome.map, hvars]
      exact halike.symm.trans hrule
    left
    obtain ⟨b', hb', hr'⟩ := Option.bind_eq_some_iff.mp hclean
    have hblocks : (e.restart.process ε).state.blocks.map Block.deactivate =
        (e.process ε).state.blocks.map Block.deactivate :=
      congrArg Engine.blocks ((restart_process ε e.restart).trans
        (e.restart_restart.trans (restart_process ε e).symm))
    have hframe := congrArg (·[i]?) hblocks
    simp only [List.getElem?_map, hb, hb', Option.map_some, Option.some.injEq] at hframe
    have henabled := congrArg Block.enabled hframe
    have hcombinators := congrArg Block.combinators hframe
    simp only [Block.deactivate] at henabled hcombinators
    obtain ⟨hb'enabled, hfired⟩ := fired_of_process_restart ε e b' (List.mem_of_getElem? hb') r
      (List.mem_of_getElem? hr') htriggered
    rw [hcombinators] at hfired
    refine ⟨by simp [triggers, hclean, htriggered], henabled ▸ hb'enabled, hfired.loaded,
      hfired.fires, fun index v hv hvenabled => hfired.sublist_entries hv hvenabled⟩
  · exact Or.inr ⟨hmisses, hkept.symm.trans hrule⟩

/-- The engine with another setting of its blocks. -/
def changeBlocks (change : Block α → Block α) (e : Engine α) : Engine α :=
  { e with blocks := e.blocks.map change }

/-- A fan that also looks twice before it runs fast, which takes a conjunction. -/
def carefulFan : Engine Float := fan.changeBlocks fun b =>
  { b with
    combinators := { conjunction := some .minimum }
    activation := none
    rules := [
      { fanRule with antecedent := ⟨"heat is high and heat is high", some (.combination .and
        (.proposition ⟨⟨⟨.input, 0⟩, "heat"⟩, [], some ⟨⟨0⟩, "high"⟩⟩)
        (.proposition ⟨⟨⟨.input, 0⟩, "heat"⟩, [], some ⟨⟨0⟩, "high"⟩⟩))⟩ },
      fanRule] }

/-- The fan after a cycle that has triggered its rule, with its block disabled. -/
def idleFan : Engine Float :=
  (fan.process Binary64.defaultTolerance).state.changeBlocks ({ · with enabled := false })

/-- The careful fan after a cycle that has triggered its rules, without the conjunction. -/
def jammedFan : Engine Float :=
  (carefulFan.process Binary64.defaultTolerance).state.changeBlocks ({ · with combinators := {} })

theorem triggered_process_fan : ∃ b r v,
    (fan.process Binary64.defaultTolerance).state.blocks[0]? = some b ∧ b.rules[0]? = some r ∧
      (fan.process Binary64.defaultTolerance).state.vars.outputs[0]? = some v ∧
      r.triggered = true ∧ fan.triggers Binary64.defaultTolerance 0 0 = true ∧
      (r.entriesAt Binary64.defaultTolerance b.combinators.implication 0).Sublist v.entries := by
  have hmarked : ((fan.process Binary64.defaultTolerance).state.rule? 0 0).any Rule.triggered =
      true := by decide +kernel
  have houtput : (fan.process Binary64.defaultTolerance).state.vars.outputs[0]?.any
      OutputVariable.enabled = true := by decide +kernel
  obtain ⟨r, hrule, htriggered⟩ := (Option.any_eq_true ..).mp hmarked
  obtain ⟨b, hb, hr⟩ := Option.bind_eq_some_iff.mp hrule
  obtain ⟨v, hv, henabled⟩ := (Option.any_eq_true ..).mp houtput
  rcases triggered_process hb hr htriggered with ⟨htriggers, -, -, -, hentries⟩ | ⟨-, hkept⟩
  · exact ⟨b, r, v, hb, hr, hv, htriggered, htriggers, hentries 0 v hv henabled⟩
  · have hunmarked : (fan.rule? 0 0).any Rule.triggered = false := rfl
    rw [hkept, Option.any_some, htriggered] at hunmarked
    cases hunmarked

/-- After a second cycle the rules of both fans are still marked, although it has triggered neither
and nothing is concluded. -/
theorem marks_outlive_process :
    ((idleFan.process Binary64.defaultTolerance).error = none ∧
      ((idleFan.process Binary64.defaultTolerance).state.rule? 0 0).any Rule.triggered = true ∧
      idleFan.triggers Binary64.defaultTolerance 0 0 = false ∧
      (idleFan.process Binary64.defaultTolerance).state.vars.outputs.all
        (fun v => v.enabled && v.entries.isEmpty) = true) ∧
    ((jammedFan.process Binary64.defaultTolerance).error =
        some (.missingCombinator .conjunction) ∧
      ((jammedFan.process Binary64.defaultTolerance).state.rule? 0 1).any Rule.triggered = true ∧
      jammedFan.triggers Binary64.defaultTolerance 0 1 = false ∧
      (jammedFan.process Binary64.defaultTolerance).state.vars.outputs.all
        (fun v => v.enabled && v.entries.isEmpty) = true) := by
  decide +kernel

end Engine

end FuzzyInference
