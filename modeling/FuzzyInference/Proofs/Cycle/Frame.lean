import FuzzyInference.Engine

/-!
What a cycle leaves as it was. A cycle writes the degree and the flag of rules and draws
conclusions; once rules are deactivated and conclusions cleared, nothing of it is left. This holds
also for a cycle that ends with an error.
-/
namespace FuzzyInference

variable {α κ : Type} [Scalar α]

/-! ### The steps of a rule -/

namespace Rule

@[simp] theorem deactivate_deactivate (r : Rule α) : r.deactivate.deactivate = r.deactivate := rfl

@[simp] theorem enabled_deactivate (r : Rule α) : r.deactivate.enabled = r.enabled := rfl

@[simp] theorem triggered_deactivate (r : Rule α) : r.deactivate.triggered = false := rfl

@[simp] theorem antecedent_deactivate (r : Rule α) : r.deactivate.antecedent = r.antecedent := rfl

@[simp] theorem isLoaded_deactivate (r : Rule α) : r.deactivate.isLoaded = r.isLoaded := rfl

/-- Of rules that deactivation makes equal to others, each one is so made equal to one of these. -/
theorem exists_of_map_deactivate_eq {rules rules' : List (Rule α)}
    (h : rules'.map deactivate = rules.map deactivate) :
    ∀ r' ∈ rules', ∃ r ∈ rules, r'.deactivate = r.deactivate := by
  intro r' hr'
  have hmem : r'.deactivate ∈ rules.map deactivate := h ▸ List.mem_map_of_mem hr'
  obtain ⟨r, hr, heq⟩ := List.mem_map.mp hmem
  exact ⟨r, hr, heq.symm⟩

omit [Scalar α] in
/-- A rule is resolved if both of its texts can be read, and then holds what they stand for. -/
theorem exists_of_resolve [Catalogue κ α] {catalogue : κ} {r r' : Rule α}
    (h : r.resolve catalogue = .ok r') :
    ∃ e ps, Expression.parse catalogue r.antecedent.text = .ok e ∧
      Proposition.parseConclusions catalogue r.consequent.text = .ok ps ∧
      r' = { r with
        antecedent := ⟨r.antecedent.text, some e⟩
        consequent := ⟨r.consequent.text, some ps⟩ } := by
  obtain ⟨antecedent, hantecedent, h⟩ := exists_of_bind_eq_ok h
  obtain ⟨consequent, hconsequent, h⟩ := exists_of_bind_eq_ok h
  obtain ⟨e, he, hantecedent⟩ := exists_of_bind_eq_ok hantecedent
  obtain ⟨ps, hps, hconsequent⟩ := exists_of_bind_eq_ok hconsequent
  cases h
  cases hantecedent
  cases hconsequent
  exact ⟨e, ps, he, hps, rfl⟩

omit [Scalar α] in
theorem exists_conclusions {r : Rule α} (h : r.isLoaded = true) :
    ∃ conclusions, r.consequent.conclusions = some conclusions := by
  simp only [isLoaded, Consequent.isLoaded, Bool.and_eq_true] at h
  exact Option.isSome_iff_exists.mp h.2

/-- The rule has something to conclude. -/
def fires (ε : α) (r : Rule α) : Bool := r.enabled && Tolerance.gt ε r.degree Scalar.zero

variable [NumberText α] [Catalogue κ α]

/-- The catalogue after the conclusions of the rule, written one after another. -/
def write (ε : α) (implication : Option (TNorm α)) (catalogue : κ) (r : Rule α) : κ :=
  (r.consequent.conclusions.getD []).foldl
    (fun catalogue p => p.conclude ε r.degree implication catalogue) catalogue

variable {ε : α} {cs : Combinators α} {implication : Option (TNorm α)} {catalogue catalogue' : κ}
  {r r' : Rule α}

theorem exists_of_activate (h : r.activate ε cs catalogue = .ok r') :
    r.isLoaded = true ∧ ∃ degree, r.antecedent.degree ε cs catalogue = .ok degree ∧
      r' = { r with degree := r.weight * degree } := by
  unfold activate at h
  cases hloaded : r.isLoaded with
  | false =>
    rw [hloaded] at h
    cases h
  | true =>
    rw [hloaded] at h
    obtain ⟨degree, hdegree, h⟩ := exists_of_bind_eq_ok h
    cases h
    exact ⟨rfl, degree, hdegree, rfl⟩

theorem renew_cases (h : r.renew ε cs catalogue = .ok r') :
    (r.enabled = false ∧ r' = r.deactivate) ∨
    (r.enabled = true ∧ r.isLoaded = true ∧ ∃ degree,
      r.antecedent.degree ε cs catalogue = .ok degree ∧
      r' = { r.deactivate with degree := r.weight * degree }) := by
  unfold renew at h
  by_cases henabled : r.enabled = true
  · rw [if_pos henabled] at h
    obtain ⟨hloaded, degree, hdegree, rfl⟩ := exists_of_activate h
    exact Or.inr ⟨henabled, hloaded, degree, hdegree, rfl⟩
  · rw [if_neg henabled] at h
    cases h
    exact Or.inl ⟨by simpa using henabled, rfl⟩

/-- Triggering a loaded rule gives a result. -/
theorem trigger_of_isLoaded (ε : α) (implication : Option (TNorm α)) (catalogue : κ)
    (h : r.isLoaded = true) :
    r.trigger ε implication catalogue =
      .ok (if r.fires ε then ({ r with triggered := true }, r.write ε implication catalogue)
        else (r, catalogue)) := by
  obtain ⟨conclusions, hconclusions⟩ := exists_conclusions h
  have hmodify : r.consequent.modify ε r.degree implication catalogue =
      .ok (r.write ε implication catalogue) := by
    simp [Consequent.modify, write, hconclusions]
  unfold trigger
  rw [h, hmodify]
  change (if r.fires ε then _ else _) = _
  cases r.fires ε <;> rfl

theorem trigger_cases (h : r.trigger ε implication catalogue = .ok (r', catalogue')) :
    r.isLoaded = true ∧
    ((r.fires ε = false ∧ r' = r ∧ catalogue' = catalogue) ∨
    (r.fires ε = true ∧ r' = { r with triggered := true } ∧
      catalogue' = r.write ε implication catalogue)) := by
  cases hloaded : r.isLoaded with
  | false =>
    rw [trigger, hloaded] at h
    cases h
  | true =>
    rw [trigger_of_isLoaded ε implication catalogue hloaded] at h
    cases hfires : r.fires ε with
    | false =>
      rw [hfires] at h
      cases h
      exact ⟨rfl, Or.inl ⟨rfl, rfl, rfl⟩⟩
    | true =>
      rw [hfires] at h
      cases h
      exact ⟨rfl, Or.inr ⟨rfl, rfl, rfl⟩⟩

theorem deactivate_of_renew (h : r.renew ε cs catalogue = .ok r') :
    r'.deactivate = r.deactivate := by
  obtain ⟨-, rfl⟩ | ⟨-, -, degree, -, rfl⟩ := renew_cases h <;> rfl

/-- A rule that has been renewed is loaded, unless it is disabled. -/
theorem isLoaded_of_renew (h : r.renew ε cs catalogue = .ok r') (henabled : r'.enabled = true) :
    r'.isLoaded = true := by
  obtain ⟨hdisabled, rfl⟩ | ⟨-, hloaded, degree, -, rfl⟩ := renew_cases h
  · cases hdisabled.symm.trans henabled
  · exact hloaded

theorem triggered_of_renew (h : r.renew ε cs catalogue = .ok r') : r'.triggered = false := by
  obtain ⟨-, rfl⟩ | ⟨-, -, degree, -, rfl⟩ := renew_cases h <;> rfl

theorem deactivate_of_trigger (h : r.trigger ε implication catalogue = .ok (r', catalogue')) :
    r'.deactivate = r.deactivate := by
  obtain ⟨-, ⟨-, rfl, -⟩ | ⟨-, rfl, -⟩⟩ := trigger_cases h <;> rfl

end Rule

/-! ### Conclusions -/

/-- The second catalogue is the first one after some conclusions. -/
def Concluded [Catalogue κ α] (catalogue catalogue' : κ) : Prop :=
  ∃ conclusions : List (Conclusion α), catalogue' = conclusions.foldl Catalogue.conclude catalogue

namespace Concluded

variable [Catalogue κ α] {catalogue catalogue' catalogue'' : κ}

omit [Scalar α] in
theorem refl (catalogue : κ) : Concluded catalogue catalogue := ⟨[], rfl⟩

omit [Scalar α] in
theorem trans (h : Concluded catalogue catalogue') (h' : Concluded catalogue' catalogue'') :
    Concluded catalogue catalogue'' := by
  obtain ⟨conclusions, rfl⟩ := h
  obtain ⟨conclusions', rfl⟩ := h'
  exact ⟨conclusions ++ conclusions', by rw [List.foldl_append]⟩

theorem of_conclude (ε degree : α) (implication : Option (TNorm α)) (catalogue : κ)
    (p : Proposition α) : Concluded catalogue (p.conclude ε degree implication catalogue) := by
  unfold Proposition.conclude
  split
  · exact refl catalogue
  · split
    · exact refl catalogue
    · exact ⟨[_], rfl⟩

theorem of_write (ε : α) (implication : Option (TNorm α)) (catalogue : κ) (r : Rule α) :
    Concluded catalogue (r.write ε implication catalogue) := by
  unfold Rule.write
  induction r.consequent.conclusions.getD [] generalizing catalogue with
  | nil => exact refl catalogue
  | cons p rest ih => exact (of_conclude ε r.degree implication catalogue p).trans (ih _)

theorem of_trigger [NumberText α] {ε : α} {implication : Option (TNorm α)} {r r' : Rule α}
    (h : r.trigger ε implication catalogue = .ok (r', catalogue')) :
    Concluded catalogue catalogue' := by
  obtain ⟨-, ⟨-, -, rfl⟩ | ⟨-, -, rfl⟩⟩ := Rule.trigger_cases h
  · exact refl catalogue'
  · exact of_write ε implication catalogue r

end Concluded

/-! ### Runs -/

/-- The run goes over the rules and starts at the catalogue: it changes nothing but what
deactivation resets, and draws conclusions. -/
structure Run.Over [Catalogue κ α] (rules : List (Rule α)) (catalogue : κ) (run : Run κ α) :
    Prop where
  rules : run.rules.map Rule.deactivate = rules.map Rule.deactivate
  catalogue : Concluded catalogue run.catalogue

namespace Run

variable [NumberText α] [Catalogue κ α] {ε : α} {cs : Combinators α}

theorem over_inOrder (ε : α) (cs : Combinators α) (admits : Nat → α → Bool) (admitted : Nat)
    (rules : List (Rule α)) (catalogue : κ) :
    (inOrder ε cs admits admitted rules catalogue).Over rules catalogue := by
  -- A rule may fail to renew, or to trigger, or be triggered, or not be admitted.
  fun_induction inOrder ε cs admits admitted rules catalogue with
  | case1 admitted catalogue => exact ⟨rfl, .refl catalogue⟩
  | case2 admitted rule rest catalogue cause hrenew => exact ⟨rfl, .refl catalogue⟩
  | case3 admitted rule rest catalogue renewed hrenew hadmitted cause htrigger =>
    have hrule := Rule.deactivate_of_renew hrenew
    exact ⟨by simp [hrule], .refl catalogue⟩
  | case4 admitted rule rest catalogue renewed hrenew hadmitted fired catalogue' htrigger ih =>
    have hrule := Rule.deactivate_of_renew hrenew
    have hfired := (Rule.deactivate_of_trigger htrigger).trans hrule
    exact ⟨by simp [cons, hfired, ih.rules], (Concluded.of_trigger htrigger).trans ih.catalogue⟩
  | case5 admitted rule rest catalogue renewed hrenew hadmitted ih =>
    have hrule := Rule.deactivate_of_renew hrenew
    exact ⟨by simp [cons, hrule, ih.rules], ih.catalogue⟩

theorem deactivate_renewAll (ε : α) (cs : Combinators α) (catalogue : κ) (rules : List (Rule α)) :
    (renewAll ε cs catalogue rules).state.map Rule.deactivate = rules.map Rule.deactivate := by
  fun_induction renewAll ε cs catalogue rules with
  | case1 => rfl
  | case2 rule rest cause hrenew => rfl
  | case3 rule rest renewed hrenew ih =>
    have hrule := Rule.deactivate_of_renew hrenew
    simp [Outcome.map, hrule, ih]

/-- Where no renewal fails, every rule that is left is a renewed one. -/
theorem exists_renew_of_renewAll {catalogue : κ} {rules renewed : List (Rule α)}
    (h : renewAll ε cs catalogue rules = ⟨renewed, none⟩) :
    ∀ r' ∈ renewed, ∃ r ∈ rules, r.renew ε cs catalogue = .ok r' := by
  fun_induction renewAll ε cs catalogue rules generalizing renewed with
  | case1 =>
    cases h
    simp
  | case2 rule rest cause hrenew => cases h
  | case3 rule rest first hrenew ih =>
    cases hrest : renewAll ε cs catalogue rest with
    | mk rules error =>
      rw [hrest] at h
      cases h
      intro r' hr'
      rcases List.mem_cons.mp hr' with rfl | hr'
      · exact ⟨rule, List.mem_cons_self .., hrenew⟩
      · obtain ⟨r, hr, hrenew⟩ := ih hrest r' hr'
        exact ⟨r, List.mem_cons_of_mem _ hr, hrenew⟩

theorem triggered_of_renewAll {catalogue : κ} {rules renewed : List (Rule α)}
    (h : renewAll ε cs catalogue rules = ⟨renewed, none⟩) :
    ∀ r ∈ renewed, r.triggered = false := by
  intro r hr
  obtain ⟨before, -, hrenew⟩ := exists_renew_of_renewAll h r hr
  exact Rule.triggered_of_renew hrenew

theorem over_triggerAt (ε : α) (implication : Option (TNorm α)) (indices : List Nat)
    (rules : List (Rule α)) (catalogue : κ) :
    (triggerAt ε implication indices rules catalogue).Over rules catalogue := by
  fun_induction triggerAt ε implication indices rules catalogue with
  | case1 rules catalogue => exact ⟨rfl, .refl catalogue⟩
  | case2 index rest rules catalogue hrule ih => exact ih
  | case3 index rest rules catalogue rule hrule cause htrigger => exact ⟨rfl, .refl catalogue⟩
  | case4 index rest rules catalogue rule hrule fired catalogue' htrigger ih =>
    refine ⟨ih.rules.trans ?_, (Concluded.of_trigger htrigger).trans ih.catalogue⟩
    have hindex : (rules.map Rule.deactivate)[index]? = some fired.deactivate := by
      simp [hrule, Rule.deactivate_of_trigger htrigger]
    obtain ⟨hlt, hget⟩ := List.getElem?_eq_some_iff.mp hindex
    rw [List.map_set, ← hget, List.set_getElem_self]

omit [NumberText α] [Catalogue κ α] in
theorem deactivate_share (ε : α) (rules : List (Rule α)) :
    (share ε rules).map Rule.deactivate = rules.map Rule.deactivate := by
  simp only [share]
  split
  · rw [List.map_map]
    refine List.map_congr_left fun rule _ => ?_
    simp only [Function.comp_apply]
    split <;> rfl
  · rfl

theorem over_twoPhase (ε : α) (cs : Combinators α) {adjust : List (Rule α) → List (Rule α)}
    (hadjust : ∀ rules, (adjust rules).map Rule.deactivate = rules.map Rule.deactivate)
    (select : List (Nat × α) → List Nat) (rules : List (Rule α)) (catalogue : κ) :
    (twoPhase ε cs adjust select rules catalogue).Over rules catalogue := by
  have hrenew := deactivate_renewAll ε cs catalogue rules
  unfold twoPhase
  split
  · next renewed cause heq =>
    rw [heq] at hrenew
    exact ⟨hrenew, .refl catalogue⟩
  · next renewed heq =>
    rw [heq] at hrenew
    obtain ⟨hrules, hcatalogue⟩ := over_triggerAt ε cs.implication (select (degrees renewed))
      (adjust renewed) catalogue
    exact ⟨hrules.trans ((hadjust renewed).trans hrenew), hcatalogue⟩

end Run

section Cycle

variable [NumberText α]

theorem Activation.over_run [Catalogue κ α] (ε : α) (cs : Combinators α) (rules : List (Rule α))
    (catalogue : κ) (activation : Activation α) :
    (activation.run ε cs rules catalogue).Over rules catalogue := by
  have hid : ∀ rules : List (Rule α), (id rules).map Rule.deactivate = rules.map Rule.deactivate :=
    fun _ => rfl
  cases activation with
  | general => exact Run.over_inOrder ..
  | first count bound => exact Run.over_inOrder ..
  | last count bound =>
    obtain ⟨hrules, hcatalogue⟩ :=
      Run.over_inOrder ε cs (Run.reaches ε count bound) 0 rules.reverse catalogue
    refine ⟨?_, hcatalogue⟩
    simp only [Activation.run, Run.reverse, List.map_reverse] at hrules ⊢
    rw [hrules, List.reverse_reverse]
  | highest count => exact Run.over_twoPhase ε cs hid ..
  | lowest count => exact Run.over_twoPhase ε cs hid ..
  | threshold comparison value =>
    unfold Activation.run
    exact Run.over_twoPhase ε cs hid _ rules catalogue
  | proportional => exact Run.over_twoPhase ε cs (Run.deactivate_share ε) ..

omit [NumberText α] in
@[simp] theorem Block.deactivate_deactivate (b : Block α) :
    b.deactivate.deactivate = b.deactivate := by
  simp only [Block.deactivate, List.map_map]
  rfl

theorem Block.run_of_enabled [Catalogue κ α] {b : Block α} (h : b.enabled = true) (ε : α)
    (catalogue : κ) :
    let run := (b.activation.getD .general).run ε b.combinators b.rules catalogue
    b.run ε catalogue = ⟨({ b with rules := run.rules }, run.catalogue), run.error⟩ := by
  simp [Block.run, h]

theorem Block.run_of_disabled [Catalogue κ α] {b : Block α} (h : b.enabled = false) (ε : α)
    (catalogue : κ) : b.run ε catalogue = ⟨(b, catalogue), none⟩ := by
  simp [Block.run, h]

theorem Block.deactivate_run [Catalogue κ α] (ε : α) (catalogue : κ) (b : Block α) :
    (b.run ε catalogue).state.1.deactivate = b.deactivate := by
  unfold Block.run
  split
  · have hover := (b.activation.getD .general).over_run ε b.combinators b.rules catalogue
    simp only [Block.deactivate, hover.rules]
  · rfl

theorem Block.enabled_run [Catalogue κ α] (ε : α) (catalogue : κ) (b : Block α) :
    (b.run ε catalogue).state.1.enabled = b.enabled := by
  have hrun := congrArg Block.enabled (b.deactivate_run ε catalogue)
  exact hrun

theorem Block.combinators_run [Catalogue κ α] (ε : α) (catalogue : κ) (b : Block α) :
    (b.run ε catalogue).state.1.combinators = b.combinators := by
  have hrun := congrArg Block.combinators (b.deactivate_run ε catalogue)
  exact hrun

theorem Block.concluded_run [Catalogue κ α] (ε : α) (catalogue : κ) (b : Block α) :
    Concluded catalogue (b.run ε catalogue).state.2 := by
  unfold Block.run
  split
  · exact ((b.activation.getD .general).over_run ε b.combinators b.rules catalogue).catalogue
  · exact .refl catalogue

/-! ### Engines -/

omit [Scalar α] [NumberText α] in
@[simp] theorem Variables.clearOutputs_clearOutputs (vs : Variables α) :
    vs.clearOutputs.clearOutputs = vs.clearOutputs := by
  simp only [Variables.clearOutputs, List.map_map]
  rfl

/-- A change that a view does not show. -/
theorem map_modify_of_eq {T U : Type} {view : T → U} {change : T → T}
    (h : ∀ x, view (change x) = view x) (xs : List T) (index : Nat) :
    (xs.modify index change).map view = xs.map view := by
  refine List.ext_getElem? fun i => ?_
  rw [List.getElem?_map, List.getElem?_map, List.getElem?_modify]
  cases xs[i]? with
  | none => rfl
  | some x => by_cases hindex : index = i <;> simp [hindex, h]

/-- A change that keeps a property keeps it for all members of a list. -/
theorem forall_mem_modify {T : Type} {P : T → Prop} {change : T → T} {xs : List T}
    (h : ∀ x ∈ xs, P x) (hchange : ∀ x, P x → P (change x)) (index : Nat) :
    ∀ x ∈ xs.modify index change, P x := by
  intro x hx
  obtain ⟨i, hi⟩ := List.mem_iff_getElem?.mp hx
  rw [List.getElem?_modify] at hi
  obtain ⟨y, hy, rfl⟩ := Option.map_eq_some_iff.mp hi
  have hP := h y (List.mem_of_getElem? hy)
  split
  · exact hchange y hP
  · exact hP

omit [NumberText α] in
theorem Variables.clearOutputs_of_concluded {vs vs' : Variables α} (h : Concluded vs vs') :
    vs'.clearOutputs = vs.clearOutputs := by
  obtain ⟨conclusions, rfl⟩ := h
  induction conclusions generalizing vs with
  | nil => rfl
  | cons c rest ih =>
    have hpush : ∀ v : OutputVariable α,
        (v.push ⟨c.termId, c.degree, c.implication⟩).clear = v.clear := fun _ => rfl
    have houtputs : (vs.conclude c).outputs.map OutputVariable.clear =
        vs.outputs.map OutputVariable.clear :=
      map_modify_of_eq hpush vs.outputs c.variableId.index
    have hconclude : (vs.conclude c).clearOutputs = vs.clearOutputs := by
      rw [Variables.clearOutputs, houtputs]
      rfl
    exact ih.trans hconclude

namespace Engine

omit [NumberText α] in
@[simp] theorem restart_restart (e : Engine α) : e.restart.restart = e.restart := by
  simp [restart]

theorem runBlocks_cons_of_error {ε : α} {b : Block α} {vars : Variables α} {cause : Error}
    (h : (b.run ε vars).error = some cause) (rest : List (Block α)) :
    runBlocks ε (b :: rest) vars =
      ⟨((b.run ε vars).state.1 :: rest, (b.run ε vars).state.2), some cause⟩ := by
  cases hrun : b.run ε vars with
  | mk state error =>
    obtain rfl : error = some cause := by simpa [hrun] using h
    simp only [runBlocks, hrun]

theorem runBlocks_cons_of_none {ε : α} {b : Block α} {vars : Variables α}
    (h : (b.run ε vars).error = none) (rest : List (Block α)) :
    runBlocks ε (b :: rest) vars =
      (runBlocks ε rest (b.run ε vars).state.2).map
        fun (blocks, vars') => ((b.run ε vars).state.1 :: blocks, vars') := by
  cases hrun : b.run ε vars with
  | mk state error =>
    obtain rfl : error = none := by simpa [hrun] using h
    simp only [runBlocks, hrun]

theorem deactivate_runBlocks (ε : α) (blocks : List (Block α)) (vars : Variables α) :
    (runBlocks ε blocks vars).state.1.map Block.deactivate = blocks.map Block.deactivate := by
  induction blocks generalizing vars with
  | nil => rfl
  | cons b rest ih =>
    have hb := b.deactivate_run ε vars
    cases herror : (b.run ε vars).error with
    | some cause => simp [runBlocks_cons_of_error herror, hb]
    | none => simp [runBlocks_cons_of_none herror, Outcome.map, hb, ih]

theorem concluded_runBlocks (ε : α) (blocks : List (Block α)) (vars : Variables α) :
    Concluded vars (runBlocks ε blocks vars).state.2 := by
  induction blocks generalizing vars with
  | nil => exact .refl vars
  | cons b rest ih =>
    have hb := b.concluded_run ε vars
    cases herror : (b.run ε vars).error with
    | some cause =>
      rw [runBlocks_cons_of_error herror]
      exact hb
    | none =>
      rw [runBlocks_cons_of_none herror]
      exact hb.trans (ih _)

/-- A cycle changes nothing that a restart does not reset, whether it ends with an error or not. -/
theorem restart_process (ε : α) (e : Engine α) : (e.process ε).state.restart = e.restart := by
  have hblocks := deactivate_runBlocks ε e.blocks e.vars.clearOutputs
  have hvars := Variables.clearOutputs_of_concluded
    (concluded_runBlocks ε e.blocks e.vars.clearOutputs)
  simp only [process, Outcome.map, restart, hblocks, hvars, Variables.clearOutputs_clearOutputs]

end Engine

end Cycle

end FuzzyInference
