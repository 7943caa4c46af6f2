import FuzzyInference.Proofs.Cycle.Entries
import FuzzyInference.Proofs.Cycle.History
import FuzzyInference.Proofs.Proposition.WellFormed

/-!
The handles of a loaded rule. They are positions, and variables and terms are only ever added at the
end, so a handle goes on denoting the variable or term that its name was resolved to. No conclusion
is written past the end of the output variables, where it would be lost.
-/
namespace FuzzyInference

variable {α κ : Type}

/-! ### Variables that grow -/

namespace Variables

/-- The name and the terms of the variable that a handle denotes. -/
def denoted? (vs : Variables α) (id : VariableId) : Option (String × List (Term α)) :=
  match id.role with
  | .input => vs.inputs[id.index]?.map fun v => (v.name, v.terms)
  | .output => vs.outputs[id.index]?.map fun v => (v.name, v.terms)

/-- Every handle denotes a variable with the same name and the same terms, and possibly more. -/
def Extends (vs vs' : Variables α) : Prop :=
  ∀ id name terms, vs.denoted? id = some (name, terms) →
    ∃ more, vs'.denoted? id = some (name, terms ++ more)

namespace Extends

variable {vs vs' vs'' : Variables α}

theorem trans (h : Extends vs vs') (h' : Extends vs' vs'') : Extends vs vs'' := by
  intro id name terms hid
  obtain ⟨more, hmore⟩ := h id name terms hid
  obtain ⟨more', hmore'⟩ := h' id name _ hmore
  exact ⟨more ++ more', by rw [hmore', List.append_assoc]⟩

theorem of_signature (h : vs'.signature = vs.signature) : Extends vs vs' := by
  intro id name terms hid
  refine ⟨[], ?_⟩
  obtain ⟨hinputs, hrest⟩ := Prod.mk.inj h
  obtain ⟨houtputs, -⟩ := Prod.mk.inj hrest
  rw [List.append_nil, ← hid]
  unfold denoted?
  cases id.role with
  | input => simpa only [List.getElem?_map] using congrArg (·[id.index]?) hinputs
  | output => simpa only [List.getElem?_map] using congrArg (·[id.index]?) houtputs

theorem refl (vs : Variables α) : Extends vs vs := of_signature rfl

end Extends

/-- What may be done to variables without renaming any. -/
inductive Edit (α : Type) where
  | addInput (v : InputVariable α)
  | addOutput (v : OutputVariable α)
  | addTerm (id : VariableId) (term : Term α)
  | setInputValue (name : String) (value : α)
  | registerHedge (hedge : Hedge α)
  | conclude (c : Conclusion α)
  | clearOutputs

/-- Adds a term to the variable that a handle denotes. -/
def addTerm (vs : Variables α) (id : VariableId) (term : Term α) : Variables α :=
  match id.role with
  | .input => { vs with inputs := vs.inputs.modify id.index (·.addTerm term) }
  | .output => { vs with outputs := vs.outputs.modify id.index (·.addTerm term) }

variable [Scalar α]

/-- The variables after an edit. A value for an input variable that does not exist is ignored. -/
def edit (vs : Variables α) : Edit α → Variables α
  | .addInput v => vs.addInput v
  | .addOutput v => vs.addOutput v
  | .addTerm id term => vs.addTerm id term
  | .setInputValue name value => (vs.setInputValue name value).toOption.getD vs
  | .registerHedge hedge => vs.registerHedge hedge
  | .conclude c => vs.conclude c
  | .clearOutputs => vs.clearOutputs

def editAll (vs : Variables α) (edits : List (Edit α)) : Variables α := edits.foldl edit vs

omit [Scalar α] in
theorem extends_addTerm (vs : Variables α) (id : VariableId) (term : Term α) :
    Extends vs (vs.addTerm id term) := by
  obtain ⟨role, index⟩ := id
  rintro ⟨role', index'⟩ name terms hid
  cases role with
  | input =>
    cases role' with
    | output => exact ⟨[], by rw [List.append_nil]; exact hid⟩
    | input =>
      obtain ⟨v, hv, heq⟩ := Option.map_eq_some_iff.mp hid
      cases heq
      by_cases hindex : index = index'
      · exact ⟨[term], by simp [denoted?, addTerm, InputVariable.addTerm, hindex, hv]⟩
      · exact ⟨[], by simp [denoted?, addTerm, hindex, hv]⟩
  | output =>
    cases role' with
    | input => exact ⟨[], by rw [List.append_nil]; exact hid⟩
    | output =>
      obtain ⟨v, hv, heq⟩ := Option.map_eq_some_iff.mp hid
      cases heq
      by_cases hindex : index = index'
      · exact ⟨[term], by simp [denoted?, addTerm, OutputVariable.addTerm, hindex, hv]⟩
      · exact ⟨[], by simp [denoted?, addTerm, hindex, hv]⟩

omit [Scalar α] in
theorem extends_append (vs : Variables α) (inputs : List (InputVariable α))
    (outputs : List (OutputVariable α)) (hedges : List (Hedge α)) :
    Extends vs ⟨vs.inputs ++ inputs, vs.outputs ++ outputs, hedges⟩ := by
  rintro ⟨role, index⟩ name terms hid
  refine ⟨[], ?_⟩
  rw [List.append_nil]
  cases role with
  | input =>
    obtain ⟨v, hv, heq⟩ := Option.map_eq_some_iff.mp hid
    have hlt := (List.getElem?_eq_some_iff.mp hv).1
    exact Option.map_eq_some_iff.mpr ⟨v, (List.getElem?_append_left hlt).trans hv, heq⟩
  | output =>
    obtain ⟨v, hv, heq⟩ := Option.map_eq_some_iff.mp hid
    have hlt := (List.getElem?_eq_some_iff.mp hv).1
    exact Option.map_eq_some_iff.mpr ⟨v, (List.getElem?_append_left hlt).trans hv, heq⟩

/-- No edit moves or renames what a handle denotes. -/
theorem extends_edit (vs : Variables α) (change : Edit α) : Extends vs (vs.edit change) := by
  cases change with
  | addInput v => simpa [edit, addInput] using vs.extends_append [v] [] vs.hedges
  | addOutput v => simpa [edit, addOutput] using vs.extends_append [] [v] vs.hedges
  | addTerm id term => exact extends_addTerm vs id term
  | setInputValue name value =>
    simp only [edit]
    cases hset : vs.setInputValue name value with
    | error cause => exact .refl vs
    | ok vs' => exact .of_signature (signature_of_setInputValue hset)
  | registerHedge hedge =>
    simpa [edit, registerHedge] using vs.extends_append [] [] (hedge :: vs.hedges)
  | conclude c =>
    have hclear : (vs.conclude c).clearOutputs = vs.clearOutputs :=
      clearOutputs_of_concluded ⟨[c], rfl⟩
    have hsignature : (vs.conclude c).signature = vs.signature := by
      rw [← signature_clearOutputs, hclear, signature_clearOutputs]
    exact .of_signature hsignature
  | clearOutputs => exact .of_signature vs.signature_clearOutputs

theorem extends_editAll (vs : Variables α) (edits : List (Edit α)) :
    Extends vs (vs.editAll edits) := by
  induction edits generalizing vs with
  | nil => exact .refl vs
  | cons first rest ih => exact (vs.extends_edit first).trans (ih _)

end Variables

/-! ### What handles denote -/

theorem map_getElem?_of_findIdx? {T : Type} {view : T → String} {xs : List T} {name : String}
    {i : Nat} (h : (xs.findIdx? fun x => view x = name) = some i) :
    xs[i]?.map view = some name := by
  obtain ⟨hlt, hview, -⟩ := List.findIdx?_eq_some_iff_getElem.mp h
  rw [List.getElem?_eq_getElem hlt, Option.map_some, of_decide_eq_true hview]

namespace Variables

variable {vs : Variables α}

theorem exists_denoted_of_findVariable? {name : String} {id : VariableId}
    (h : vs.findVariable? name = some id) : ∃ terms, vs.denoted? id = some (name, terms) := by
  rcases Option.or_eq_some_iff.mp h with h | ⟨-, h⟩
  · obtain ⟨i, hi, rfl⟩ := Option.map_eq_some_iff.mp h
    obtain ⟨v, hv, rfl⟩ := Option.map_eq_some_iff.mp (map_getElem?_of_findIdx? hi)
    exact ⟨v.terms, by simp [denoted?, hv]⟩
  · obtain ⟨i, hi, rfl⟩ := Option.map_eq_some_iff.mp h
    obtain ⟨v, hv, rfl⟩ := Option.map_eq_some_iff.mp (map_getElem?_of_findIdx? hi)
    exact ⟨v.terms, by simp [denoted?, hv]⟩

theorem terms_of_denoted {id : VariableId} {name : String} {terms : List (Term α)}
    (h : vs.denoted? id = some (name, terms)) : vs.terms id = terms := by
  obtain ⟨role, index⟩ := id
  cases role with
  | input =>
    obtain ⟨v, hv, heq⟩ := Option.map_eq_some_iff.mp h
    cases heq
    simp [Variables.terms, hv]
  | output =>
    obtain ⟨v, hv, heq⟩ := Option.map_eq_some_iff.mp h
    cases heq
    simp [Variables.terms, hv]

end Variables

namespace Proposition

/-- The handles of the proposition denote a variable and a term of it, with the names that they have
been resolved from. -/
def Denotes (vs : Variables α) (p : Proposition α) : Prop :=
  ∃ terms, vs.denoted? p.subject.id = some (p.subject.name, terms) ∧
    ∀ t ∈ p.term, terms[t.id.index]?.map Term.name = some t.name

theorem Denotes.of_extends {vs vs' : Variables α} {p : Proposition α} (h : p.Denotes vs)
    (hextends : vs.Extends vs') : p.Denotes vs' := by
  obtain ⟨terms, hvariable, hterm⟩ := h
  obtain ⟨more, hmore⟩ := hextends _ _ _ hvariable
  refine ⟨terms ++ more, hmore, fun t ht => ?_⟩
  obtain ⟨term, hget, hname⟩ := Option.map_eq_some_iff.mp (hterm t ht)
  have hlt := (List.getElem?_eq_some_iff.mp hget).1
  exact Option.map_eq_some_iff.mpr ⟨term, (List.getElem?_append_left hlt).trans hget, hname⟩

variable [Scalar α]

/-- For an input variable, the membership is that of its value in the term that the handles denote.
-/
def ReadsTerm (vs : Variables α) (p : Proposition α) : Prop :=
  ∀ t, p.term = some t → p.subject.id.role = .input →
    ∃ v term, vs.inputs[p.subject.id.index]? = some v ∧ v.name = p.subject.name ∧
      v.terms[t.id.index]? = some term ∧ term.name = t.name ∧
      vs.membership p.subject.id t.id = term.membership v.value

/-- The conclusion leaves one entry, for the term that its handle denotes, in the output variable
that its handle denotes, and none elsewhere. -/
def LeavesEntry (ε degree : α) (implication : Option (TNorm α)) (vs : Variables α)
    (p : Proposition α) : Prop :=
  ∃ index v t term, p.subject.id = ⟨.output, index⟩ ∧ p.term = some t ∧
    vs.outputs[index]? = some v ∧ v.name = p.subject.name ∧
    v.terms[t.id.index]? = some term ∧ term.name = t.name ∧
    ∀ i, p.entryAt ε degree implication i =
      if i = index then some ⟨t.id, p.applyHedges ε degree, implication⟩ else none

variable {vs : Variables α} {p : Proposition α}

theorem Refers.denotes (h : p.Refers vs) : p.Denotes vs := by
  obtain ⟨terms, hterms⟩ := Variables.exists_denoted_of_findVariable? h.subject
  refine ⟨terms, hterms, fun t ht => ?_⟩
  obtain ⟨i, hi, hid⟩ := Option.map_eq_some_iff.mp (h.term t ht)
  rw [Variables.terms_of_denoted hterms] at hi
  rw [← hid]
  exact map_getElem?_of_findIdx? hi

theorem Denotes.readsTerm (h : p.Denotes vs) : p.ReadsTerm vs := by
  intro t ht hrole
  obtain ⟨terms, hvariable, hterm⟩ := h
  unfold Variables.denoted? at hvariable
  rw [hrole] at hvariable
  obtain ⟨v, hv, heq⟩ := Option.map_eq_some_iff.mp hvariable
  obtain ⟨hname, rfl⟩ := Prod.mk.inj heq
  obtain ⟨term, hget, htermName⟩ := Option.map_eq_some_iff.mp (hterm t ht)
  refine ⟨v, term, hv, hname, hget, htermName, ?_⟩
  simp [Variables.membership, hrole, hv, InputVariable.membership, hget]

theorem Denotes.leavesEntry (h : p.Denotes vs) (hp : p.IsConclusion) (ε degree : α)
    (implication : Option (TNorm α)) : p.LeavesEntry ε degree implication vs := by
  have hid := hp.id_eq
  obtain ⟨t, ht⟩ := Option.isSome_iff_exists.mp hp.2
  obtain ⟨terms, hvariable, hterm⟩ := h
  rw [hid] at hvariable
  obtain ⟨v, hv, heq⟩ := Option.map_eq_some_iff.mp hvariable
  obtain ⟨hname, rfl⟩ := Prod.mk.inj heq
  obtain ⟨term, hget, htermName⟩ := Option.map_eq_some_iff.mp (hterm t ht)
  refine ⟨_, v, t, term, hid, ht, hv, hname, hget, htermName, fun i => ?_⟩
  by_cases hi : i = p.subject.id.index
  · subst hi
    rw [if_pos rfl, entryAt_of_term hid ht]
  · rw [if_neg hi, entryAt_of_ne (Ne.symm hi)]

end Proposition

/-! ### Triggering -/

theorem Gains.eq_of_concluded [Scalar α] {vs vs' : Variables α} {entriesAt : Nat → List (Entry α)}
    (h : Gains entriesAt vs vs') (hconcluded : Concluded vs vs') :
    vs' = { vs with outputs := vs.outputs.mapIdx fun index v => v.extend (entriesAt index) } := by
  have hclear := Variables.clearOutputs_of_concluded hconcluded
  have hinputs := congrArg Variables.inputs hclear
  have hhedges := congrArg Variables.hedges hclear
  have houtputs : vs'.outputs = vs.outputs.mapIdx fun index v => v.extend (entriesAt index) :=
    List.ext_getElem? fun index => by rw [h index, List.getElem?_mapIdx]
  obtain ⟨inputs, outputs, hedges⟩ := vs'
  simp only [Variables.clearOutputs] at hinputs hhedges houtputs
  rw [hinputs, hhedges, houtputs]

namespace Rule

variable [Scalar α] [NumberText α]

/-- After any edits the handles of a loaded rule still denote what their names were resolved to. The
memberships that its antecedent reads are those of the terms it names, and if the rule fires, every
conclusion leaves one entry in its variable, if this is enabled, and nothing else changes. -/
theorem handles_of_load {vs : Variables α} {r loaded : Rule α} (h : r.load vs = ⟨loaded, none⟩)
    (edits : List (Variables.Edit α)) (ε : α) (implication : Option (TNorm α)) :
    ∃ e ps, loaded.antecedent.expression = some e ∧ loaded.consequent.conclusions = some ps ∧
      (∀ p ∈ e.propositions ++ ps, p.Refers vs ∧ p.Denotes (vs.editAll edits)) ∧
      (∀ p ∈ e.propositions, p.ReadsTerm (vs.editAll edits)) ∧
      ∀ r' : Rule α, r'.antecedent = loaded.antecedent → r'.consequent = loaded.consequent →
        r'.enabled = true → Tolerance.gt ε r'.degree Scalar.zero = true →
        (∀ p ∈ ps, p.LeavesEntry ε r'.degree implication (vs.editAll edits)) ∧
        r'.trigger ε implication (vs.editAll edits) = .ok ({ r' with triggered := true },
          { vs.editAll edits with
            outputs := (vs.editAll edits).outputs.mapIdx fun index v =>
              v.extend (ps.filterMap (·.entryAt ε r'.degree implication index)) }) := by
  obtain ⟨e, ps, he, hps, rfl⟩ := exists_of_resolve (resolve_of_load h)
  have hrefers : ∀ p ∈ e.propositions ++ ps, p.Refers vs := by
    intro p hp
    rcases List.mem_append.mp hp with hp | hp
    · exact Expression.refers_of_parse he p hp
    · exact Proposition.refers_of_parseConclusions hps p hp
  have hdenotes : ∀ p ∈ e.propositions ++ ps, p.Denotes (vs.editAll edits) :=
    fun p hp => (hrefers p hp).denotes.of_extends (vs.extends_editAll edits)
  have hconclusions := Proposition.isConclusion_of_parseConclusions hps
  refine ⟨e, ps, rfl, rfl, fun p hp => ⟨hrefers p hp, hdenotes p hp⟩, fun p hp => ?_, ?_⟩
  · exact (hdenotes p (List.mem_append_left _ hp)).readsTerm
  · intro r' hantecedent hconsequent henabled hdegree
    constructor
    · intro p hp
      exact (hdenotes p (List.mem_append_right _ hp)).leavesEntry (hconclusions p hp) ..
    · have hps' : r'.consequent.conclusions.getD [] = ps := by rw [hconsequent]; rfl
      have hloaded : r'.isLoaded = true := by rw [isLoaded, hantecedent, hconsequent]; rfl
      have hfires : r'.fires ε = true := by rw [fires, henabled, hdegree]; rfl
      have hconcludes : r'.Concludes := by
        unfold Concludes
        rw [hps']
        exact hconclusions
      have hgains := Gains.of_write hconcludes ε implication (vs.editAll edits)
      have hwritten := hgains.eq_of_concluded (Concluded.of_write ε implication _ r')
      simp only [entriesAt, hps'] at hwritten
      rw [trigger_of_isLoaded ε implication _ hloaded, hfires, if_pos rfl, hwritten]

end Rule

namespace Engine

/-- The fan gets a lower gear, a lamp, and an input variable with its own name, which comes first
when names are resolved. -/
def refit : List (Variables.Edit Float) := [
  .addInput { name := "fan", minimum := 0, maximum := 1, value := 0, terms := [] },
  .addTerm ⟨.output, 0⟩ ⟨"slow", .triangle 0 0 1⟩,
  .addOutput { name := "lamp", terms := [⟨"bright", .triangle 0 1 1⟩] },
  .setInputValue "heat" 0.5,
  .conclude ⟨⟨.output, 1⟩, ⟨0⟩, 0.25, none⟩,
  .registerHedge .somewhat]

/-- The rule still reads the heat and writes to the fan, although its text could not be loaded any
more. -/
theorem handles_of_load_refit : ∃ loaded e ps,
    fanRule.unload.load fan.vars = ⟨loaded, none⟩ ∧ loaded.antecedent.expression = some e ∧
      loaded.consequent.conclusions = some ps ∧
      (∀ p ∈ e.propositions ++ ps, p.Denotes (fan.vars.editAll refit)) ∧
      (∀ p ∈ ps, p.LeavesEntry Binary64.defaultTolerance 0.5 none (fan.vars.editAll refit)) ∧
      (fanRule.unload.load (fan.vars.editAll refit)).error.isSome = true := by
  have hnone : (fanRule.unload.load fan.vars).error.isNone = true := by decide +kernel
  have hsome : (fanRule.unload.load (fan.vars.editAll refit)).error.isSome = true := by
    decide +kernel
  have hdegree : Tolerance.gt Binary64.defaultTolerance (0.5 : Float) Scalar.zero = true := by
    decide +kernel
  cases hload : fanRule.unload.load fan.vars with
  | mk loaded error =>
    rw [hload, Option.isNone_iff_eq_none] at hnone
    cases hnone
    obtain ⟨e, ps, he, hps, hhandles, -, htrigger⟩ :=
      Rule.handles_of_load hload refit Binary64.defaultTolerance none
    obtain ⟨hentries, -⟩ :=
      htrigger { loaded with enabled := true, degree := 0.5 } rfl rfl rfl hdegree
    exact ⟨loaded, e, ps, rfl, he, hps, fun p hp => (hhandles p hp).2, hentries, hsome⟩

end Engine

end FuzzyInference
