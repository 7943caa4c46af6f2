import FuzzyInference.Proofs.Cycle.Triggers
import Mathlib.Data.List.Basic

/-!
What output variables receive. A rule draws its conclusions one after another, and each of them goes
to the end of the output variable at its index. Drawing conclusions enables or disables nothing, so
the conclusions of a list of rules can be told from the variables that the first rule finds.
-/
namespace FuzzyInference

variable {α : Type}

/-! ### Lists of conclusions -/

def Conclusion.entry (c : Conclusion α) : Entry α := ⟨c.termId, c.degree, c.implication⟩

/-- What conclusions leave in the output variable at an index. Only the index of a conclusion
counts, and not the role of its variable. -/
def Conclusion.entriesFor (index : Nat) (conclusions : List (Conclusion α)) : List (Entry α) :=
  (conclusions.filter fun c => c.variableId.index = index).map entry

/-- The variable with more conclusions. -/
def OutputVariable.pushAll (v : OutputVariable α) (entries : List (Entry α)) : OutputVariable α :=
  { v with entries := v.entries ++ entries }

@[simp] theorem OutputVariable.pushAll_nil (v : OutputVariable α) : v.pushAll [] = v := by
  simp [pushAll]

variable [Scalar α]

namespace Variables

theorem getElem?_outputs_conclude (c : Conclusion α) (vs : Variables α) (index : Nat) :
    (Catalogue.conclude vs c).outputs[index]? =
      vs.outputs[index]?.map (·.pushAll (Conclusion.entriesFor index [c])) := by
  change (vs.outputs.modify c.variableId.index _)[index]? = _
  rw [List.getElem?_modify]
  by_cases hindex : c.variableId.index = index
  · simp [Conclusion.entriesFor, hindex, OutputVariable.pushAll, OutputVariable.push,
      Conclusion.entry]
  · simp [Conclusion.entriesFor, hindex]

theorem getElem?_outputs_foldl (conclusions : List (Conclusion α)) (vs : Variables α)
    (index : Nat) :
    (conclusions.foldl Catalogue.conclude vs).outputs[index]? =
      vs.outputs[index]?.map (·.pushAll (Conclusion.entriesFor index conclusions)) := by
  induction conclusions generalizing vs with
  | nil => simp [Conclusion.entriesFor]
  | cons c rest ih =>
    have happend : ∀ v : OutputVariable α, (v.pushAll (Conclusion.entriesFor index [c])).pushAll
        (Conclusion.entriesFor index rest) =
          v.pushAll (Conclusion.entriesFor index (c :: rest)) := by
      intro v
      simp only [OutputVariable.pushAll, Conclusion.entriesFor, List.append_assoc,
        ← List.map_append, ← List.filter_append, List.singleton_append]
    rw [List.foldl_cons, ih, getElem?_outputs_conclude, Option.map_map]
    exact congrArg (Option.map · vs.outputs[index]?) (funext happend)

theorem inputs_foldl (conclusions : List (Conclusion α)) (vs : Variables α) :
    (conclusions.foldl Catalogue.conclude vs).inputs = vs.inputs := by
  have hconcluded : Concluded vs (conclusions.foldl Catalogue.conclude vs) := ⟨conclusions, rfl⟩
  have hinputs := congrArg Variables.inputs (clearOutputs_of_concluded hconcluded)
  exact hinputs

theorem isEnabled_foldl (conclusions : List (Conclusion α)) (vs : Variables α)
    (id : VariableId) :
    (conclusions.foldl Catalogue.conclude vs).isEnabled id = vs.isEnabled id := by
  unfold isEnabled
  cases id.role with
  | input => simp only [inputs_foldl]
  | output =>
    simp only [getElem?_outputs_foldl, Option.any_map]
    rfl

/-- What each output variable holds in the first variables is the beginning of what it holds in the
second ones. -/
def Begins (vs vs' : Variables α) : Prop :=
  ∀ (index : Nat) (v : OutputVariable α), vs.outputs[index]? = some v →
    ∃ v', vs'.outputs[index]? = some v' ∧ v.entries <+: v'.entries

theorem begins_of_concluded {vs vs' : Variables α} (h : Concluded vs vs') : vs.Begins vs' := by
  obtain ⟨conclusions, rfl⟩ := h
  intro index v hv
  rw [getElem?_outputs_foldl, hv]
  exact ⟨_, rfl, List.prefix_append ..⟩

end Variables

/-! ### The conclusions of rules -/

section Drawn

variable {κ : Type} [Catalogue κ α]

/-- The conclusion that a proposition stands for in a catalogue, unless its variable is disabled. -/
def Proposition.drawn? (ε degree : α) (implication : Option (TNorm α)) (catalogue : κ)
    (p : Proposition α) : Option (Conclusion α) :=
  if Catalogue.isEnabled catalogue p.subject.id then
    p.term.map fun term => ⟨p.subject.id, term.id, p.applyHedges ε degree, implication⟩
  else none

/-- The conclusions that a rule draws if it fires in a catalogue. -/
def Rule.drawn (ε : α) (implication : Option (TNorm α)) (catalogue : κ) (r : Rule α) :
    List (Conclusion α) :=
  (r.consequent.conclusions.getD []).filterMap (·.drawn? ε r.degree implication catalogue)

theorem Proposition.conclude_eq_foldl (ε degree : α) (implication : Option (TNorm α))
    (catalogue : κ) (p : Proposition α) :
    p.conclude ε degree implication catalogue =
      (p.drawn? ε degree implication catalogue).toList.foldl Catalogue.conclude catalogue := by
  unfold conclude drawn?
  cases Catalogue.isEnabled catalogue p.subject.id with
  | false => rfl
  | true => cases p.term <;> rfl

theorem Rule.exists_of_mem_drawn {ε : α} {implication : Option (TNorm α)} {catalogue : κ}
    {r : Rule α} {c : Conclusion α} (h : c ∈ r.drawn ε implication catalogue) :
    ∃ p ∈ r.consequent.conclusions.getD [], p.subject.id = c.variableId := by
  obtain ⟨p, hp, hdrawn⟩ := List.mem_filterMap.mp h
  refine ⟨p, hp, ?_⟩
  unfold Proposition.drawn? at hdrawn
  split at hdrawn
  · obtain ⟨term, -, rfl⟩ := Option.map_eq_some_iff.mp hdrawn
    rfl
  · cases hdrawn

end Drawn

namespace Variables

variable {vs vs' : Variables α}

/-- Variables with the same flags let a rule draw the same conclusions. -/
theorem write_eq_foldl (h : ∀ id, vs'.isEnabled id = vs.isEnabled id) (ε : α)
    (implication : Option (TNorm α)) (r : Rule α) :
    r.write ε implication vs' = (r.drawn ε implication vs).foldl Catalogue.conclude vs' := by
  unfold Rule.write Rule.drawn
  induction r.consequent.conclusions.getD [] generalizing vs' with
  | nil => rfl
  | cons p rest ih =>
    have hdrawn : p.drawn? ε r.degree implication vs' = p.drawn? ε r.degree implication vs := by
      have hp : Catalogue.isEnabled vs' p.subject.id = Catalogue.isEnabled vs p.subject.id :=
        h p.subject.id
      rw [Proposition.drawn?, Proposition.drawn?, hp]
    have hkept : ∀ id, (p.conclude ε r.degree implication vs').isEnabled id = vs.isEnabled id := by
      intro id
      rw [Proposition.conclude_eq_foldl, isEnabled_foldl, h id]
    rw [List.foldl_cons, ih hkept, Proposition.conclude_eq_foldl, hdrawn, ← List.foldl_append,
      List.filterMap_eq_flatMap_toList, List.filterMap_eq_flatMap_toList, List.flatMap_cons]

theorem writeAll_eq_foldl (h : ∀ id, vs'.isEnabled id = vs.isEnabled id) (ε : α)
    (implication : Option (TNorm α)) (rules : List (Rule α)) :
    writeAll ε implication rules vs' =
      (rules.flatMap (Rule.drawn ε implication vs)).foldl Catalogue.conclude vs' := by
  induction rules generalizing vs' with
  | nil => rfl
  | cons r rest ih =>
    have hwrite := write_eq_foldl h ε implication r
    have hkept : ∀ id, (r.write ε implication vs').isEnabled id = vs.isEnabled id := by
      intro id
      rw [hwrite, isEnabled_foldl, h id]
    have hrest := ih hkept
    rw [hwrite, ← List.foldl_append] at hrest
    rw [List.flatMap_cons, ← hrest, writeAll, List.foldl_cons, hwrite]
    rfl

end Variables

end FuzzyInference
