import FuzzyInference.Proofs.Cycle.Frame

/-!
Runs of the same rules in two catalogues. If the catalogues are related in such a way that every
rule has the same degree in both, and if conclusions keep them related, then no strategy can tell
them apart: both runs leave the same rules, end with the same error, and leave related catalogues.
-/
namespace FuzzyInference

variable {α κ : Type} [Scalar α] [NumberText α] [Catalogue κ α]

/-- In related catalogues the rule has the same degree, if it is enabled, and each of its
conclusions leaves the catalogues related. -/
structure Rule.Respects (ε : α) (cs : Combinators α) (R : κ → κ → Prop) (r : Rule α) : Prop where
  degree : ∀ {catalogue catalogue' : κ}, R catalogue catalogue' → r.enabled = true →
    r.antecedent.degree ε cs catalogue = r.antecedent.degree ε cs catalogue'
  conclude : ∀ {catalogue catalogue' : κ}, R catalogue catalogue' →
    ∀ p ∈ r.consequent.conclusions.getD [], ∀ degree : α,
      R (p.conclude ε degree cs.implication catalogue) (p.conclude ε degree cs.implication catalogue')

/-- The runs leave the same rules and related catalogues, and end alike. -/
structure Run.Matches (R : κ → κ → Prop) (run run' : Run κ α) : Prop where
  rules : run.rules = run'.rules
  catalogue : R run.catalogue run'.catalogue
  error : run.error = run'.error

variable {ε : α} {cs : Combinators α} {R : κ → κ → Prop} {catalogue catalogue' : κ}

/-! ### Rules -/

/-- A rule that is disabled is renewed without a look at the catalogue. -/
theorem Rule.renew_congr {r : Rule α}
    (h : r.enabled = true →
      r.antecedent.degree ε cs catalogue = r.antecedent.degree ε cs catalogue') :
    r.renew ε cs catalogue = r.renew ε cs catalogue' := by
  unfold renew activate
  by_cases henabled : r.enabled = true
  · simp only [antecedent_deactivate, h henabled]
  · simp only [henabled, Bool.false_eq_true, if_false]

namespace Rule.Respects

variable {r r' : Rule α}

omit [NumberText α] in
/-- A cycle does not change what a rule respects. -/
theorem of_deactivate_eq (h : r.Respects ε cs R) (heq : r'.deactivate = r.deactivate) :
    r'.Respects ε cs R := by
  have hparts := congrArg (fun r => (r.antecedent, r.consequent, r.enabled)) heq
  simp only [deactivate, Prod.mk.injEq] at hparts
  obtain ⟨hantecedent, hconsequent, henabled⟩ := hparts
  constructor
  · intro catalogue catalogue' hR
    rw [hantecedent, henabled]
    exact h.degree hR
  · intro catalogue catalogue' hR
    rw [hconsequent]
    exact h.conclude hR

omit [NumberText α] in
theorem forall_of_deactivate_eq {rules rules' : List (Rule α)} (h : ∀ r ∈ rules, r.Respects ε cs R)
    (heq : rules'.map Rule.deactivate = rules.map Rule.deactivate) :
    ∀ r ∈ rules', r.Respects ε cs R := by
  intro r' hr'
  obtain ⟨r, hr, hdeactivate⟩ := exists_of_map_deactivate_eq heq r' hr'
  exact (h r hr).of_deactivate_eq hdeactivate

theorem renew_eq (h : r.Respects ε cs R) (hR : R catalogue catalogue') :
    r.renew ε cs catalogue = r.renew ε cs catalogue' :=
  renew_congr fun henabled => h.degree hR henabled

omit [NumberText α] in
theorem write (h : r.Respects ε cs R) (hR : R catalogue catalogue') :
    R (r.write ε cs.implication catalogue) (r.write ε cs.implication catalogue') := by
  have hconclude : ∀ p ∈ r.consequent.conclusions.getD [], ∀ catalogue catalogue',
      R catalogue catalogue' → R (p.conclude ε r.degree cs.implication catalogue)
        (p.conclude ε r.degree cs.implication catalogue') :=
    fun p hp _ _ hR => h.conclude hR p hp r.degree
  unfold Rule.write
  generalize r.consequent.conclusions.getD [] = conclusions at hconclude
  induction conclusions generalizing catalogue catalogue' with
  | nil => exact hR
  | cons p rest ih =>
    obtain ⟨hp, hrest⟩ := List.forall_mem_cons.mp hconclude
    exact ih (hp _ _ hR) hrest

/-- Triggering fails in both catalogues or in none of them. -/
theorem trigger_cases (h : r.Respects ε cs R) (hR : R catalogue catalogue') :
    (∃ cause, r.trigger ε cs.implication catalogue = .error cause ∧
      r.trigger ε cs.implication catalogue' = .error cause) ∨
    ∃ fired written written', r.trigger ε cs.implication catalogue = .ok (fired, written) ∧
      r.trigger ε cs.implication catalogue' = .ok (fired, written') ∧ R written written' := by
  cases hloaded : r.isLoaded with
  | false => exact Or.inl ⟨_, by rw [trigger, hloaded]; rfl, by rw [trigger, hloaded]; rfl⟩
  | true =>
    simp only [trigger_of_isLoaded ε cs.implication _ hloaded]
    cases r.fires ε with
    | false => exact Or.inr ⟨r, catalogue, catalogue', rfl, rfl, hR⟩
    | true => exact Or.inr ⟨_, _, _, rfl, rfl, h.write hR⟩

end Rule.Respects

/-! ### Runs -/

namespace Run

omit [Scalar α] [NumberText α] [Catalogue κ α] in
theorem Matches.cons {run run' : Run κ α} (h : run.Matches R run') (rule : Rule α) :
    (run.cons rule).Matches R (run'.cons rule) :=
  ⟨congrArg (rule :: ·) h.rules, h.catalogue, h.error⟩

omit [Scalar α] [NumberText α] [Catalogue κ α] in
theorem Matches.reverse {run run' : Run κ α} (h : run.Matches R run') :
    run.reverse.Matches R run'.reverse :=
  ⟨congrArg List.reverse h.rules, h.catalogue, h.error⟩

variable {rules : List (Rule α)}

theorem matches_inOrder (h : ∀ r ∈ rules, r.Respects ε cs R) (hR : R catalogue catalogue')
    (admits : Nat → α → Bool) (admitted : Nat) :
    (inOrder ε cs admits admitted rules catalogue).Matches R
      (inOrder ε cs admits admitted rules catalogue') := by
  induction rules generalizing admitted catalogue catalogue' with
  | nil => exact ⟨rfl, hR, rfl⟩
  | cons rule rest ih =>
    obtain ⟨hrule, hrest⟩ := List.forall_mem_cons.mp h
    simp only [inOrder, ← hrule.renew_eq hR]
    cases hrenew : rule.renew ε cs catalogue with
    | error cause => exact ⟨rfl, hR, rfl⟩
    | ok renewed =>
      have hrenewed := hrule.of_deactivate_eq (Rule.deactivate_of_renew hrenew)
      by_cases hadmitted : (renewed.enabled && admits admitted renewed.degree) = true
      · simp only [hadmitted, if_true]
        obtain ⟨cause, htrigger, htrigger'⟩ | ⟨fired, written, written', htrigger, htrigger', hw⟩ :=
          hrenewed.trigger_cases hR
        · simp only [htrigger, htrigger']
          exact ⟨rfl, hR, rfl⟩
        · simp only [htrigger, htrigger']
          exact (ih hrest hw (admitted + 1)).cons fired
      · simp only [if_neg hadmitted]
        exact (ih hrest hR admitted).cons renewed

theorem renewAll_eq (h : ∀ r ∈ rules, r.Respects ε cs R) (hR : R catalogue catalogue') :
    renewAll ε cs catalogue rules = renewAll ε cs catalogue' rules := by
  induction rules with
  | nil => rfl
  | cons rule rest ih =>
    obtain ⟨hrule, hrest⟩ := List.forall_mem_cons.mp h
    simp only [renewAll, hrule.renew_eq hR, ih hrest]

theorem matches_triggerAt (h : ∀ r ∈ rules, r.Respects ε cs R) (hR : R catalogue catalogue')
    (indices : List Nat) :
    (triggerAt ε cs.implication indices rules catalogue).Matches R
      (triggerAt ε cs.implication indices rules catalogue') := by
  induction indices generalizing rules catalogue catalogue' with
  | nil => exact ⟨rfl, hR, rfl⟩
  | cons index rest ih =>
    simp only [triggerAt]
    cases hindex : rules[index]? with
    | none => exact ih h hR
    | some rule =>
      have hrule := h rule (List.mem_of_getElem? hindex)
      obtain ⟨cause, htrigger, htrigger'⟩ | ⟨fired, written, written', htrigger, htrigger', hw⟩ :=
        hrule.trigger_cases hR
      · simp only [htrigger, htrigger']
        exact ⟨rfl, hR, rfl⟩
      · simp only [htrigger, htrigger']
        apply ih _ hw
        intro r hr
        rcases List.mem_or_eq_of_mem_set hr with hr | rfl
        · exact h r hr
        · exact hrule.of_deactivate_eq (Rule.deactivate_of_trigger htrigger)

theorem matches_twoPhase (h : ∀ r ∈ rules, r.Respects ε cs R) (hR : R catalogue catalogue')
    {adjust : List (Rule α) → List (Rule α)}
    (hadjust : ∀ rules, (adjust rules).map Rule.deactivate = rules.map Rule.deactivate)
    (select : List (Nat × α) → List Nat) :
    (twoPhase ε cs adjust select rules catalogue).Matches R
      (twoPhase ε cs adjust select rules catalogue') := by
  have hdeactivate := deactivate_renewAll ε cs catalogue rules
  simp only [twoPhase, ← renewAll_eq h hR]
  cases hrenew : renewAll ε cs catalogue rules with
  | mk renewed error =>
    rw [hrenew] at hdeactivate
    cases error with
    | some cause => exact ⟨rfl, hR, rfl⟩
    | none =>
      have heq := (hadjust renewed).trans hdeactivate
      exact matches_triggerAt (Rule.Respects.forall_of_deactivate_eq h heq) hR _

end Run

/-- No strategy can tell related catalogues apart. -/
theorem Activation.matches_run {rules : List (Rule α)} (h : ∀ r ∈ rules, r.Respects ε cs R)
    (hR : R catalogue catalogue') (activation : Activation α) :
    (activation.run ε cs rules catalogue).Matches R (activation.run ε cs rules catalogue') := by
  have hid : ∀ rules : List (Rule α), (id rules).map Rule.deactivate = rules.map Rule.deactivate :=
    fun _ => rfl
  cases activation with
  | general => exact Run.matches_inOrder h hR _ 0
  | first count bound => exact Run.matches_inOrder h hR _ 0
  | last count bound =>
    have hreverse : ∀ r ∈ rules.reverse, r.Respects ε cs R :=
      fun r hr => h r (List.mem_reverse.mp hr)
    exact (Run.matches_inOrder hreverse hR _ 0).reverse
  | highest count => exact Run.matches_twoPhase h hR hid _
  | lowest count => exact Run.matches_twoPhase h hR hid _
  | threshold comparison value =>
    unfold Activation.run
    exact Run.matches_twoPhase h hR hid _
  | proportional => exact Run.matches_twoPhase h hR (Run.deactivate_share ε) _

/-! ### Blocks -/

/-- If the block is enabled, its rules respect the relation. -/
def Block.Respects (ε : α) (R : κ → κ → Prop) (b : Block α) : Prop :=
  b.enabled = true → ∀ r ∈ b.rules, r.Respects ε b.combinators R

theorem Block.Respects.run {b : Block α} (h : b.Respects ε R) (hR : R catalogue catalogue') :
    (b.run ε catalogue).state.1 = (b.run ε catalogue').state.1 ∧
      R (b.run ε catalogue).state.2 (b.run ε catalogue').state.2 ∧
      (b.run ε catalogue).error = (b.run ε catalogue').error := by
  cases henabled : b.enabled with
  | false =>
    rw [run_of_disabled henabled, run_of_disabled henabled]
    exact ⟨rfl, hR, rfl⟩
  | true =>
    have hrun := Activation.matches_run (h henabled) hR (b.activation.getD .general)
    rw [run_of_enabled henabled, run_of_enabled henabled]
    exact ⟨congrArg (fun rules => { b with rules }) hrun.rules, hrun.catalogue, hrun.error⟩

/-- The blocks of an engine are run alike on related variables. -/
theorem Engine.matches_runBlocks {R : Variables α → Variables α → Prop} {blocks : List (Block α)}
    (h : ∀ b ∈ blocks, b.Respects ε R) {vars vars' : Variables α} (hR : R vars vars') :
    (runBlocks ε blocks vars).state.1 = (runBlocks ε blocks vars').state.1 ∧
      R (runBlocks ε blocks vars).state.2 (runBlocks ε blocks vars').state.2 ∧
      (runBlocks ε blocks vars).error = (runBlocks ε blocks vars').error := by
  induction blocks generalizing vars vars' with
  | nil => exact ⟨rfl, hR, rfl⟩
  | cons b rest ih =>
    obtain ⟨hb, hrest⟩ := List.forall_mem_cons.mp h
    obtain ⟨hblock, hvars, herror⟩ := hb.run hR
    cases hrun : (b.run ε vars).error with
    | some cause =>
      rw [runBlocks_cons_of_error hrun, runBlocks_cons_of_error (herror ▸ hrun), hblock]
      exact ⟨rfl, hvars, rfl⟩
    | none =>
      obtain ⟨hblocks, hvars', herror'⟩ := ih hrest hvars
      rw [runBlocks_cons_of_none hrun, runBlocks_cons_of_none (herror ▸ hrun), hblock]
      exact ⟨congrArg ((b.run ε vars').state.1 :: ·) hblocks, hvars', herror'⟩

end FuzzyInference
