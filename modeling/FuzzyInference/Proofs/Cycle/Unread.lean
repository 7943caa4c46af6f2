import FuzzyInference.Proofs.Cycle.History
import FuzzyInference.Proofs.Cycle.Simulation

/-!
Inputs that a cycle does not read. The degree of an antecedent depends only on what the catalogue
says about the variables that the antecedent refers to, and of a disabled variable it does not
depend on the value either. So a cycle gives the same conclusions, degrees, flags and error if all
other values of inputs are changed.
-/
namespace FuzzyInference

variable {α κ : Type} [Scalar α]

/-! ### Antecedents -/

/-- The catalogues give the same degrees for a variable. The membership is left open if the variable
is disabled. -/
structure AgreeOn [Catalogue κ α] (ε : α) (catalogue catalogue' : κ) (id : VariableId) : Prop where
  isEnabled : Catalogue.isEnabled catalogue id = Catalogue.isEnabled catalogue' id
  membership : Catalogue.isEnabled catalogue id = true → id.role = .input → ∀ term : TermId,
    Catalogue.membership catalogue id term = Catalogue.membership catalogue' id term
  activationDegree : id.role = .output → ∀ term : TermId,
    Catalogue.activationDegree ε catalogue id term = Catalogue.activationDegree ε catalogue' id term

section Degrees

variable [Catalogue κ α] {ε : α} {catalogue catalogue' : κ}

theorem Proposition.degree_of_agreeOn {p : Proposition α}
    (h : AgreeOn ε catalogue catalogue' p.subject.id) :
    p.degree ε catalogue = p.degree ε catalogue' := by
  unfold Proposition.degree
  rw [← h.isEnabled]
  cases henabled : Catalogue.isEnabled catalogue p.subject.id with
  | false => rfl
  | true =>
    cases hterm : p.term with
    | none => rfl
    | some term =>
      cases hrole : p.subject.id.role with
      | input => simp only [h.membership henabled hrole]
      | output => simp only [h.activationDegree hrole]

theorem Expression.degree_of_agreeOn {e : Expression α} (cs : Combinators α)
    (h : ∀ p ∈ e.propositions, AgreeOn ε catalogue catalogue' p.subject.id) :
    e.degree ε cs catalogue = e.degree ε cs catalogue' := by
  induction e with
  | proposition p => exact Proposition.degree_of_agreeOn (h p (List.mem_singleton_self p))
  | combination connective left right ihleft ihright =>
    obtain ⟨hleft, hright⟩ := List.forall_mem_append.mp h
    cases connective <;> simp only [Expression.degree, ihleft hleft, ihright hright]

theorem Antecedent.degree_of_agreeOn {a : Antecedent α} (cs : Combinators α)
    (h : ∀ e ∈ a.expression, ∀ p ∈ e.propositions, AgreeOn ε catalogue catalogue' p.subject.id) :
    a.degree ε cs catalogue = a.degree ε cs catalogue' := by
  unfold Antecedent.degree
  cases hexpression : a.expression with
  | none => rfl
  | some e => exact Expression.degree_of_agreeOn cs (h e hexpression)

end Degrees

/-! ### Engines -/

namespace Engine

omit [Scalar α] in
/-- The antecedent of an enabled rule in an enabled block refers to the variable. -/
def Reads (e : Engine α) (id : VariableId) : Prop :=
  ∃ b ∈ e.blocks, b.enabled = true ∧ ∃ r ∈ b.rules, r.enabled = true ∧
    ∃ expression ∈ r.antecedent.expression, ∃ p ∈ expression.propositions, p.subject.id = id

/-- The second engine is the first one with other values of input variables that are disabled or are
not read. -/
structure DiffersUnread (e e' : Engine α) : Prop where
  engine : e' = { e with vars := { e.vars with inputs := e'.vars.inputs } }
  length : e.vars.inputs.length = e'.vars.inputs.length
  input : ∀ {index : Nat} {v v' : InputVariable α}, e.vars.inputs[index]? = some v →
    e'.vars.inputs[index]? = some v' → v' = { v with value := v'.value } ∧
      (v.enabled = true → e.Reads ⟨.input, index⟩ → v' = v)

/-- The variables have the inputs of the two engines, and else are the same. -/
structure WithInputs (e e' : Engine α) (vs vs' : Variables α) : Prop where
  inputs : vs.inputs = e.vars.inputs
  others : vs' = { vs with inputs := e'.vars.inputs }

variable {e e' : Engine α} {vs vs' : Variables α}

omit [Scalar α] in
theorem DiffersUnread.getElem?_cases (h : e.DiffersUnread e') (index : Nat) :
    (e.vars.inputs[index]? = none ∧ e'.vars.inputs[index]? = none) ∨
    ∃ v v', e.vars.inputs[index]? = some v ∧ e'.vars.inputs[index]? = some v' := by
  by_cases hindex : index < e.vars.inputs.length
  · exact Or.inr ⟨_, _, List.getElem?_eq_getElem hindex,
      List.getElem?_eq_getElem (h.length ▸ hindex)⟩
  · have hlength := Nat.le_of_not_lt hindex
    exact Or.inl ⟨List.getElem?_eq_none hlength, List.getElem?_eq_none (h.length ▸ hlength)⟩

omit [Scalar α] in
theorem DiffersUnread.isEnabled_eq (h : e.DiffersUnread e') (hvs : WithInputs e e' vs vs')
    (id : VariableId) : vs.isEnabled id = vs'.isEnabled id := by
  rw [hvs.others]
  unfold Variables.isEnabled
  cases id.role with
  | output => rfl
  | input =>
    rw [hvs.inputs]
    obtain ⟨hv, hv'⟩ | ⟨v, v', hv, hv'⟩ := h.getElem?_cases id.index
    · rw [hv, hv']
    · rw [hv, hv', (h.input hv hv').1]
      rfl

theorem DiffersUnread.agreeOn (h : e.DiffersUnread e') (hvs : WithInputs e e' vs vs') (ε : α)
    {id : VariableId} (hreads : e.Reads id) : AgreeOn ε vs vs' id where
  isEnabled := h.isEnabled_eq hvs id
  membership := by
    intro henabled hrole term
    obtain ⟨role, index⟩ := id
    obtain rfl : role = .input := hrole
    change vs.inputs[index]?.any InputVariable.enabled = true at henabled
    change (vs.inputs[index]?.map (·.membership term)).getD Scalar.undefined =
      (vs'.inputs[index]?.map (·.membership term)).getD Scalar.undefined
    rw [hvs.inputs] at henabled ⊢
    rw [hvs.others]
    obtain ⟨hv, hv'⟩ | ⟨v, v', hv, hv'⟩ := h.getElem?_cases index
    · rw [hv, hv']
    · rw [hv] at henabled
      rw [hv, hv', (h.input hv hv').2 henabled hreads]
  activationDegree := by
    intro hrole term
    obtain ⟨role, index⟩ := id
    obtain rfl : role = .output := hrole
    rw [hvs.others]
    rfl

theorem DiffersUnread.conclude (h : e.DiffersUnread e') (hvs : WithInputs e e' vs vs')
    (p : Proposition α) (ε degree : α) (implication : Option (TNorm α)) :
    WithInputs e e' (p.conclude ε degree implication vs) (p.conclude ε degree implication vs') := by
  have henabled : Catalogue.isEnabled vs p.subject.id = Catalogue.isEnabled vs' p.subject.id :=
    h.isEnabled_eq hvs p.subject.id
  unfold Proposition.conclude
  rw [← henabled]
  split
  · exact hvs
  · cases p.term with
    | none => exact hvs
    | some term =>
      refine ⟨hvs.inputs, ?_⟩
      rw [hvs.others]
      rfl

theorem DiffersUnread.respects (h : e.DiffersUnread e') (ε : α) {b : Block α}
    (hb : b ∈ e.blocks) : b.Respects ε (WithInputs e e') := by
  intro hblock r hr
  constructor
  · intro vs vs' hvs henabled
    apply Antecedent.degree_of_agreeOn
    intro expression hexpression p hp
    exact h.agreeOn hvs ε ⟨b, hb, hblock, r, hr, henabled, expression, hexpression, p, hp, rfl⟩
  · intro vs vs' hvs p _ degree
    exact h.conclude hvs p ε degree b.combinators.implication

variable [NumberText α]

/-- A cycle does not depend on the values of inputs that are disabled, or to which no antecedent of
an enabled rule in an enabled block refers. -/
theorem process_of_differsUnread (h : e.DiffersUnread e') (ε : α) :
    (e.process ε).error = (e'.process ε).error ∧
      (e.process ε).state.vars.outputs = (e'.process ε).state.vars.outputs ∧
      (e.process ε).state.blocks = (e'.process ε).state.blocks := by
  have hcleared : WithInputs e e' e.vars.clearOutputs e'.vars.clearOutputs := by
    refine ⟨rfl, ?_⟩
    rw [h.engine]
    rfl
  have hblocks : e'.blocks = e.blocks := by rw [h.engine]
  obtain ⟨hrules, hvars, herror⟩ := matches_runBlocks (fun b hb => h.respects ε hb) hcleared
  have houtputs := congrArg Variables.outputs hvars.others
  simp only [process, Outcome.map, hblocks]
  exact ⟨herror, houtputs.symm, hrules⟩

/-- A fan behind a blind that is down or up, in a wind that only a disabled rule looks at. -/
def porch (sun wind : Float) : Engine Float where
  name := "porch"
  vars :=
    { inputs := [
        { name := "heat", minimum := 0, maximum := 1, value := 0.75
          terms := [⟨"high", .triangle 0 1 1⟩] },
        { name := "sun", enabled := false, minimum := 0, maximum := 1, value := sun
          terms := [⟨"bright", .triangle 0 1 1⟩] },
        { name := "wind", minimum := 0, maximum := 1, value := wind
          terms := [⟨"strong", .triangle 0 1 1⟩] }]
      outputs := [{ name := "fan", terms := [⟨"fast", .triangle 0 1 1⟩] }] }
  blocks := [{
    name := "speed", combinators := { disjunction := some .maximum }
    rules := [
      { fanRule with
        antecedent := ⟨"heat is high or sun is bright", some (.combination .or
          (.proposition ⟨⟨⟨.input, 0⟩, "heat"⟩, [], some ⟨⟨0⟩, "high"⟩⟩)
          (.proposition ⟨⟨⟨.input, 1⟩, "sun"⟩, [], some ⟨⟨0⟩, "bright"⟩⟩))⟩ },
      { fanRule with
        antecedent := ⟨"wind is strong", some (.proposition
          ⟨⟨⟨.input, 2⟩, "wind"⟩, [], some ⟨⟨0⟩, "strong"⟩⟩)⟩
        enabled := false }] }]

theorem not_reads_wind (sun wind : Float) : ¬ (porch sun wind).Reads ⟨.input, 2⟩ := by
  rintro ⟨b, hb, -, r, hr, henabled, expression, hexpression, p, hp, hid⟩
  obtain rfl := List.mem_singleton.mp hb
  simp only [List.mem_cons, List.not_mem_nil, or_false] at hr
  rcases hr with rfl | rfl
  · obtain rfl := Option.some.inj hexpression
    simp only [Expression.propositions, List.singleton_append, List.mem_cons, List.not_mem_nil,
      or_false] at hp
    rcases hp with rfl | rfl <;> simp at hid
  · cases henabled

theorem differsUnread_porch (sun wind sun' wind' : Float) :
    (porch sun wind).DiffersUnread (porch sun' wind') where
  engine := rfl
  length := rfl
  input := by
    intro index v v' hv hv'
    match index with
    | 0 =>
      obtain rfl := Option.some.inj hv
      obtain rfl := Option.some.inj hv'
      exact ⟨rfl, fun _ _ => rfl⟩
    | 1 =>
      obtain rfl := Option.some.inj hv
      obtain rfl := Option.some.inj hv'
      exact ⟨rfl, nofun⟩
    | 2 =>
      obtain rfl := Option.some.inj hv
      obtain rfl := Option.some.inj hv'
      exact ⟨rfl, fun _ hreads => absurd hreads (not_reads_wind sun wind)⟩

/-- The fan runs as fast in the sun and in a wind. -/
theorem process_porch :
    (porch 0 0).DiffersUnread (porch 1 0.5) ∧
      ((porch 0 0).process Binary64.defaultTolerance).error =
        ((porch 1 0.5).process Binary64.defaultTolerance).error ∧
      ((porch 0 0).process Binary64.defaultTolerance).state.vars.outputs =
        ((porch 1 0.5).process Binary64.defaultTolerance).state.vars.outputs ∧
      ((porch 0 0).process Binary64.defaultTolerance).state.blocks =
        ((porch 1 0.5).process Binary64.defaultTolerance).state.blocks ∧
      ((porch 0 0).process Binary64.defaultTolerance).state.vars.outputs.map
        (·.entries.map Entry.degree) = [[0.75]] := by
  have hentries : ((porch 0 0).process Binary64.defaultTolerance).state.vars.outputs.map
      (·.entries.map Entry.degree) = [[0.75]] := by
    decide +kernel
  have hdiffers := differsUnread_porch 0 0 1 0.5
  obtain ⟨herror, houtputs, hblocks⟩ :=
    process_of_differsUnread hdiffers Binary64.defaultTolerance
  exact ⟨hdiffers, herror, houtputs, hblocks, hentries⟩

end Engine

end FuzzyInference
