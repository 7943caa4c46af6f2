import FuzzyInference.Proofs.Consequent.Conclusions
import FuzzyInference.Proofs.Cycle.Triggers
import FuzzyInference.Proofs.Loading.Resolved
import Mathlib.Data.List.Basic

/-!
The conclusions that a cycle leaves in the output variables. They can be read off the rules as the
cycle leaves them: block by block, the rules that are marked as triggered, in the order in which the
strategy triggers them, and of each rule the conclusions that name the variable.
-/
namespace FuzzyInference

variable {α : Type} [Scalar α]

/-! ### What a rule leaves -/

/-- What a conclusion drawn to a degree leaves in the output variable at an index, if it names that
variable. Its hedges are applied from the last one to the first. -/
def Proposition.entryAt (ε degree : α) (implication : Option (TNorm α)) (index : Nat)
    (p : Proposition α) : Option (Entry α) :=
  if p.subject.id = ⟨.output, index⟩ then
    p.term.map fun term =>
      ⟨term.id, p.hedges.reverse.foldl (fun degree hedge => hedge.apply ε degree) degree,
        implication⟩
  else none

theorem Proposition.entryAt_of_term {ε degree : α} {implication : Option (TNorm α)} {index : Nat}
    {p : Proposition α} {term : Reference TermId} (hid : p.subject.id = ⟨.output, index⟩)
    (hterm : p.term = some term) :
    p.entryAt ε degree implication index =
      some ⟨term.id, p.applyHedges ε degree, implication⟩ := by
  rw [entryAt, if_pos hid, hterm, Option.map_some, List.foldl_reverse]
  rfl

theorem Proposition.entryAt_of_ne {ε degree : α} {implication : Option (TNorm α)} {index : Nat}
    {p : Proposition α} (h : p.subject.id.index ≠ index) :
    p.entryAt ε degree implication index = none := by
  rw [entryAt, if_neg]
  rintro hsubject
  exact h (congrArg VariableId.index hsubject)

def Rule.entriesAt (ε : α) (implication : Option (TNorm α)) (index : Nat) (r : Rule α) :
    List (Entry α) :=
  (r.consequent.conclusions.getD []).filterMap (·.entryAt ε r.degree implication index)

/-- What the triggered rules of a block leave, in the order of its strategy. -/
def Block.entriesAt (ε : α) (index : Nat) (b : Block α) : List (Entry α) :=
  if b.enabled then
    ((b.activation.getD .general).triggerOrder (b.rules.filter Rule.triggered)).flatMap
      (Rule.entriesAt ε b.combinators.implication index)
  else []

/-- All conclusions of the rule can be drawn. -/
def Rule.Concludes (r : Rule α) : Prop :=
  ∀ p ∈ r.consequent.conclusions.getD [], p.IsConclusion

omit [Scalar α] in
theorem Rule.Resolved.concludes {κ : Type} [Catalogue κ α] {catalogue : κ} {r : Rule α}
    (h : r.Resolved catalogue) : r.Concludes := by
  unfold Rule.Concludes
  cases hconclusions : r.consequent.conclusions with
  | none => simp
  | some ps => exact Proposition.isConclusion_of_parseConclusions (h.consequent ps hconclusions)

/-! ### Output variables -/

namespace OutputVariable

/-- The variable with more conclusions, if it is enabled. -/
def extend (v : OutputVariable α) (entries : List (Entry α)) : OutputVariable α :=
  { v with entries := v.entries ++ if v.enabled then entries else [] }

omit [Scalar α] in
@[simp] theorem extend_nil (v : OutputVariable α) : v.extend [] = v := by
  simp [extend]

omit [Scalar α] in
theorem extend_of_disabled {v : OutputVariable α} (h : v.enabled = false)
    (entries : List (Entry α)) : v.extend entries = v := by
  cases v
  simp only at h
  subst h
  simp [extend]

omit [Scalar α] in
@[simp] theorem extend_extend (v : OutputVariable α) (entries entries' : List (Entry α)) :
    (v.extend entries).extend entries' = v.extend (entries ++ entries') := by
  cases henabled : v.enabled <;> simp [extend, henabled]

end OutputVariable

/-- From the first variables to the second ones each output variable has got the given conclusions.
-/
def Gains (entriesAt : Nat → List (Entry α)) (vs vs' : Variables α) : Prop :=
  ∀ index : Nat, vs'.outputs[index]? = vs.outputs[index]?.map (·.extend (entriesAt index))

namespace Gains

variable {vs vs' vs'' : Variables α} {entriesAt entriesAt' : Nat → List (Entry α)}

omit [Scalar α] in
theorem refl (vs : Variables α) : Gains (fun _ => []) vs vs := by
  intro index
  cases h : vs.outputs[index]? <;> simp

omit [Scalar α] in
theorem trans (h : Gains entriesAt vs vs') (h' : Gains entriesAt' vs' vs'') :
    Gains (fun index => entriesAt index ++ entriesAt' index) vs vs'' := by
  intro index
  rw [h' index, h index]
  cases vs.outputs[index]? <;> simp

theorem of_conclude {p : Proposition α} (hp : p.IsConclusion) (ε degree : α)
    (implication : Option (TNorm α)) (vs : Variables α) :
    Gains (fun index => (p.entryAt ε degree implication index).toList) vs
      (p.conclude ε degree implication vs) := by
  obtain ⟨term, hterm⟩ := Option.isSome_iff_exists.mp hp.2
  have hid := hp.id_eq
  intro index
  have henabled : Catalogue.isEnabled vs p.subject.id =
      vs.outputs[p.subject.id.index]?.any OutputVariable.enabled := by
    rw [hid]
    rfl
  change _ = vs.outputs[index]?.map (·.extend (p.entryAt ε degree implication index).toList)
  rw [Proposition.conclude, henabled, hterm]
  by_cases hindex : p.subject.id.index = index
  · subst hindex
    rw [Proposition.entryAt_of_term hid hterm]
    cases hv : vs.outputs[p.subject.id.index]? with
    | none => simp [hv]
    | some v =>
      cases hvenabled : v.enabled with
      | false => simp [hv, hvenabled, OutputVariable.extend_of_disabled hvenabled]
      | true =>
        simp only [Option.any_some, hvenabled, Bool.not_true, Bool.false_eq_true, if_false,
          Option.map_some]
        change (vs.outputs.modify p.subject.id.index _)[p.subject.id.index]? = _
        simp [hv, hvenabled, OutputVariable.extend, OutputVariable.push]
  · rw [Proposition.entryAt_of_ne hindex]
    split
    · simp
    · change (vs.outputs.modify p.subject.id.index _)[index]? = _
      simp [hindex]

theorem of_write {r : Rule α} (hr : r.Concludes) (ε : α) (implication : Option (TNorm α))
    (vs : Variables α) :
    Gains (fun index => r.entriesAt ε implication index) vs (r.write ε implication vs) := by
  unfold Rule.Concludes at hr
  unfold Rule.entriesAt Rule.write
  generalize r.consequent.conclusions.getD [] = conclusions at hr ⊢
  induction conclusions generalizing vs with
  | nil => exact refl vs
  | cons p ps ih =>
    obtain ⟨hp, hps⟩ := List.forall_mem_cons.mp hr
    have hgains := (of_conclude hp ε r.degree implication vs).trans (ih _ hps)
    simpa only [List.filterMap_eq_flatMap_toList, List.flatMap_cons, List.foldl_cons] using hgains

theorem of_writeAll {rules : List (Rule α)} (hrules : ∀ r ∈ rules, r.Concludes) (ε : α)
    (implication : Option (TNorm α)) (vs : Variables α) :
    Gains (fun index => rules.flatMap (Rule.entriesAt ε implication index)) vs
      (writeAll ε implication rules vs) := by
  induction rules generalizing vs with
  | nil => exact refl vs
  | cons r rest ih =>
    obtain ⟨hr, hrest⟩ := List.forall_mem_cons.mp hrules
    have hgains := (of_write hr ε implication vs).trans (ih hrest _)
    simpa only [List.flatMap_cons, writeAll, List.foldl_cons] using hgains

end Gains

/-! ### Blocks and engines -/

theorem Activation.mem_triggerOrder {activation : Activation α} {rules : List (Rule α)}
    {r : Rule α} : r ∈ activation.triggerOrder rules ↔ r ∈ rules := by
  cases activation <;> simp [Activation.triggerOrder]

theorem Rule.concludes_of_deactivate_eq {r r' : Rule α} (h : r.deactivate = r'.deactivate)
    (hr : r'.Concludes) : r.Concludes := by
  have hconsequent := congrArg Rule.consequent h
  simp only [deactivate] at hconsequent
  unfold Concludes
  rw [hconsequent]
  exact hr

variable [NumberText α] [Ranked α]

theorem Block.gains_run {ε : α} {vs : Variables α} {b : Block α}
    (hrules : ∀ r ∈ b.rules, r.Concludes) (h : (b.run ε vs).error = none) :
    Gains (fun index => (b.run ε vs).state.1.entriesAt ε index) vs (b.run ε vs).state.2 := by
  cases henabled : b.enabled with
  | false =>
    rw [run_of_disabled henabled]
    simpa only [entriesAt, henabled, Bool.false_eq_true, if_false] using Gains.refl vs
  | true =>
    let after := (b.activation.getD .general).run ε b.combinators b.rules vs
    rw [run_of_enabled henabled] at h ⊢
    have hafter : ∀ r ∈ after.rules, r.Concludes := by
      have hover := ((b.activation.getD .general).over_run ε b.combinators b.rules vs).rules
      intro r hr
      obtain ⟨r', hr', heq⟩ := Rule.exists_of_map_deactivate_eq hover r hr
      exact Rule.concludes_of_deactivate_eq heq (hrules r' hr')
    have hcatalogue := Activation.catalogue_run h
    simp only [entriesAt, henabled, if_true]
    change Gains _ vs after.catalogue
    rw [hcatalogue]
    refine Gains.of_writeAll (fun r hr => ?_) ε b.combinators.implication vs
    exact hafter r (List.mem_filter.mp (Activation.mem_triggerOrder.mp hr)).1

namespace Engine

theorem gains_runBlocks {ε : α} {blocks : List (Block α)} {vars : Variables α}
    (hblocks : ∀ b ∈ blocks, ∀ r ∈ b.rules, r.Concludes)
    (h : (runBlocks ε blocks vars).error = none) :
    Gains (fun index => (runBlocks ε blocks vars).state.1.flatMap (Block.entriesAt ε index)) vars
      (runBlocks ε blocks vars).state.2 := by
  induction blocks generalizing vars with
  | nil => exact Gains.refl vars
  | cons b rest ih =>
    obtain ⟨hb, hrest⟩ := List.forall_mem_cons.mp hblocks
    cases herror : (b.run ε vars).error with
    | some cause =>
      rw [runBlocks_cons_of_error herror] at h
      cases h
    | none =>
      rw [runBlocks_cons_of_none herror] at h ⊢
      have hgains := (Block.gains_run hb herror).trans (ih hrest h)
      simpa only [Outcome.map, List.flatMap_cons] using hgains

theorem gains_process {ε : α} {e : Engine α} (he : e.Resolved) (h : (e.process ε).error = none) :
    Gains (fun index => (e.process ε).state.blocks.flatMap (Block.entriesAt ε index))
      e.vars.clearOutputs (e.process ε).state.vars :=
  gains_runBlocks (fun b hb r hr => (he b hb r hr).concludes) h

/-- After a cycle without error an output variable holds the conclusions of this cycle and no
others, if it is enabled, and none if it is not. Except for these and for the degrees and flags of
rules the engine is as before. -/
theorem outputs_process {ε : Float} {e e' : Engine Float} (he : e.Resolved)
    (h : e.process ε = ⟨e', none⟩) :
    e'.vars.outputs = e.vars.outputs.mapIdx (fun index v =>
        { v with entries := if v.enabled then e'.blocks.flatMap (Block.entriesAt ε index) else [] }) ∧
      e'.restart = e.restart := by
  have hgains := gains_process he (ε := ε) (by rw [h])
  have hrestart := restart_process ε e
  rw [h] at hgains hrestart
  refine ⟨List.ext_getElem? fun index => ?_, hrestart⟩
  rw [hgains index, List.getElem?_mapIdx, Variables.clearOutputs, List.getElem?_map,
    Option.map_map]
  rfl

/-- A room whose fan and lamp follow the heat. -/
def room : Engine Float where
  name := "room"
  vars :=
    { inputs := [{
        name := "heat", minimum := 0, maximum := 1, value := 0.75
        terms := [⟨"low", .triangle 0 0 1⟩, ⟨"high", .triangle 0 1 1⟩] }]
      outputs := [
        { name := "fan", terms := [⟨"slow", .triangle 0 0 1⟩, ⟨"fast", .triangle 0 1 1⟩] },
        { name := "lamp", enabled := false, terms := [⟨"bright", .triangle 0 1 1⟩] }] }

def cooling : Definition where
  name := "cooling"
  activation := some "Last 2 0"
  rules := [
    "if heat is low then fan is slow and lamp is bright",
    "if heat is high then fan is very fast"]

/-- The strategy starts at the last rule, so the second rule writes first; the lamp is disabled. -/
theorem outputs_process_room : ∃ e e',
    room.loadDefinition Components.builtin cooling = .ok e ∧ e.Resolved ∧
      e.process Binary64.defaultTolerance = ⟨e', none⟩ ∧
      e'.vars.outputs = e.vars.outputs.mapIdx (fun index v =>
        { v with entries :=
          if v.enabled then
            e'.blocks.flatMap (Block.entriesAt Binary64.defaultTolerance index)
          else [] }) ∧
      e'.restart = e.restart ∧
      e'.vars.outputs.map (·.entries.map fun entry => (entry.termId.index, entry.degree)) =
        [[(1, 0.5625), (0, 0.25)], []] := by
  have hroom : room.Resolved := by
    intro b hb
    simp [room] at hb
  have hrun : (room.loadDefinition Components.builtin cooling).toOption.map (fun e =>
      ((e.process Binary64.defaultTolerance).error.isNone,
        (e.process Binary64.defaultTolerance).state.vars.outputs.map
          (·.entries.map fun entry => (entry.termId.index, entry.degree)))) =
      some (true, [[(1, 0.5625), (0, 0.25)], []]) := by decide +kernel
  cases hload : room.loadDefinition Components.builtin cooling with
  | error cause =>
    rw [hload] at hrun
    cases hrun
  | ok e =>
    rw [hload] at hrun
    obtain ⟨hnone, hentries⟩ := Prod.mk.inj (Option.some.inj hrun)
    have he := hroom.loadDefinition hload
    have hprocess : e.process Binary64.defaultTolerance =
        ⟨(e.process Binary64.defaultTolerance).state, none⟩ := by
      rw [← Option.isNone_iff_eq_none.mp hnone]
    obtain ⟨houtputs, hrestart⟩ := outputs_process he hprocess
    exact ⟨e, _, rfl, he, hprocess, houtputs, hrestart, hentries⟩

end Engine

end FuzzyInference
