import FuzzyInference.Proofs.Cycle.Forward
import FuzzyInference.Proofs.Cycle.Selection
import FuzzyInference.Proofs.Cycle.Unread

/-!
Cycles without feedback. A cycle that goes rule by rule lets a rule find what the rules before it
have concluded. If none of them concludes anything that an antecedent refers to, every rule gets the
degree that it would get on entry, and to activate all rules first makes no difference.
-/
namespace FuzzyInference

variable {α κ : Type} [Scalar α] [NumberText α] [Catalogue κ α] {ε : α} {cs : Combinators α}

/-! ### Rule by rule, with degrees that are settled on entry -/

namespace Run

/-- A rule that has been renewed is triggered at once if it has something to conclude. -/
theorem exists_inOrder_cons {rule renewed : Rule α} {catalogue : κ}
    (h : rule.renew ε cs catalogue = .ok renewed) (admitted : Nat) (rest : List (Rule α)) :
    ∃ before, inOrder ε cs (fun _ _ => true) admitted (rule :: rest) catalogue =
      (inOrder ε cs (fun _ _ => true) before rest
        (if renewed.fires ε then renewed.write ε cs.implication catalogue else catalogue)).cons
          (renewed.marked ε fun _ => true) := by
  simp only [inOrder, h, Bool.and_true]
  by_cases henabled : renewed.enabled = true
  · have htrigger := Rule.trigger_of_isLoaded ε cs.implication catalogue
      (Rule.isLoaded_of_renew h henabled)
    refine ⟨admitted + 1, ?_⟩
    by_cases hfires : renewed.fires ε = true
    · simp only [henabled, htrigger, hfires, Rule.marked, Bool.and_true, if_true]
    · simp only [henabled, htrigger, hfires, Rule.marked, Bool.false_and, Bool.false_eq_true,
        if_true, if_false]
  · have hfires : renewed.fires ε = false := by simp [Rule.fires, henabled]
    refine ⟨admitted, ?_⟩
    simp only [henabled, hfires, Rule.marked, Bool.false_and, Bool.false_eq_true, if_false]

/-- What the conclusions of the rules keep of a catalogue is enough to tell the degrees of all of
them. So the rules are renewed as on entry, and all that have something to conclude then do so. -/
theorem inOrder_of_kept {P : κ → Prop} {start : κ} {rules : List (Rule α)}
    (hdegree : ∀ r ∈ rules, r.enabled = true → ∀ catalogue, P catalogue →
      r.antecedent.degree ε cs catalogue = r.antecedent.degree ε cs start)
    (hwrite : ∀ r ∈ rules, r.enabled = true → ∀ r' : Rule α, r'.deactivate = r.deactivate →
      ∀ catalogue, P catalogue → P (r'.write ε cs.implication catalogue))
    (admitted : Nat) {catalogue : κ} (hkept : P catalogue) :
    let run := inOrder ε cs (fun _ _ => true) admitted rules catalogue
    let renewed := renewAll ε cs start rules
    run.error = renewed.error ∧
      (run.error = none → run.rules = renewed.state.map (Rule.marked ε fun _ => true)) := by
  induction rules generalizing admitted catalogue with
  | nil => exact ⟨rfl, fun _ => rfl⟩
  | cons rule rest ih =>
    obtain ⟨hdegree, hdegrees⟩ := List.forall_mem_cons.mp hdegree
    obtain ⟨hwrite, hwrites⟩ := List.forall_mem_cons.mp hwrite
    have hrenew := Rule.renew_congr fun henabled => hdegree henabled catalogue hkept
    cases hstart : rule.renew ε cs start with
    | error cause =>
      simp only [inOrder, renewAll, hrenew, hstart, true_and]
      intro hnone
      cases hnone
    | ok renewed =>
      obtain ⟨before, hrun⟩ := exists_inOrder_cons (hrenew.trans hstart) admitted rest
      have hnext : P (if renewed.fires ε then renewed.write ε cs.implication catalogue
          else catalogue) := by
        by_cases hfires : renewed.fires ε = true
        · have henabled : rule.enabled = true := by
            simp only [Rule.fires, Bool.and_eq_true, Rule.enabled_of_renew hstart] at hfires
            exact hfires.1
          rw [if_pos hfires]
          exact hwrite henabled renewed (Rule.deactivate_of_renew hstart) catalogue hkept
        · rwa [if_neg hfires]
      obtain ⟨herror, hrules⟩ := ih hdegrees hwrites before hnext
      simp only [hrun, renewAll, hstart, cons, Outcome.map, List.map_cons]
      exact ⟨herror, fun hnone => congrArg _ (hrules hnone)⟩

end Run

/-! ### Antecedents that no conclusion reaches -/

namespace Rule

omit [Scalar α] [NumberText α]

/-- The antecedent of the rule refers to the output variable at an index. -/
def ReadsOutput (r : Rule α) (index : Nat) : Prop :=
  ∃ expression ∈ r.antecedent.expression, ∃ p ∈ expression.propositions,
    p.subject.id = ⟨.output, index⟩

/-- The rule has a conclusion for the output variable at an index. The index alone tells where a
conclusion goes. -/
def ConcludesAt (r : Rule α) (index : Nat) : Prop :=
  ∃ p ∈ r.consequent.conclusions.getD [], p.subject.id.index = index

end Rule

omit [NumberText α] in
/-- Conclusions change nothing but the output variables that they go to. -/
theorem Variables.agreeOn_foldl {conclusions : List (Conclusion α)} {id : VariableId}
    (h : id.role = .output → ∀ c ∈ conclusions, c.variableId.index ≠ id.index) (ε : α)
    (vs : Variables α) : AgreeOn ε (conclusions.foldl Catalogue.conclude vs) vs id where
  isEnabled := isEnabled_foldl conclusions vs id
  membership := by
    intro _ hrole term
    obtain ⟨role, index⟩ := id
    obtain rfl : role = .input := hrole
    show ((conclusions.foldl Catalogue.conclude vs).inputs[index]?.map _).getD _ =
      (vs.inputs[index]?.map _).getD _
    rw [inputs_foldl]
  activationDegree := by
    intro hrole term
    have hnone : Conclusion.entriesFor id.index conclusions = [] := by
      simp only [Conclusion.entriesFor, List.map_eq_nil_iff, List.filter_eq_nil_iff,
        decide_eq_true_eq]
      exact h hrole
    obtain ⟨role, index⟩ := id
    obtain rfl : role = .output := hrole
    show ((conclusions.foldl Catalogue.conclude vs).outputs[index]?.map _).getD _ =
      (vs.outputs[index]?.map _).getD _
    rw [getElem?_outputs_foldl, hnone]
    simp

/-- No enabled rule refers to an output variable for which an enabled rule has a conclusion. -/
def Block.FeedbackFree (b : Block α) : Prop :=
  ∀ r ∈ b.rules, r.enabled = true → ∀ index, r.ReadsOutput index →
    ∀ s ∈ b.rules, s.enabled = true → ¬ s.ConcludesAt index

/-- The variables with conclusions that none of the enabled rules of a block looks at. -/
def Block.ConcludedUnread (b : Block α) (vs vs' : Variables α) : Prop :=
  ∃ conclusions : List (Conclusion α), vs' = conclusions.foldl Catalogue.conclude vs ∧
    ∀ c ∈ conclusions, ∀ r ∈ b.rules, r.enabled = true → ¬ r.ReadsOutput c.variableId.index

namespace Block

variable {b : Block α} {vs vs' : Variables α}

omit [NumberText α] in
theorem ConcludedUnread.degree_eq (h : b.ConcludedUnread vs vs') {r : Rule α} (hr : r ∈ b.rules)
    (henabled : r.enabled = true) (ε : α) (cs : Combinators α) :
    r.antecedent.degree ε cs vs' = r.antecedent.degree ε cs vs := by
  obtain ⟨conclusions, rfl, hunread⟩ := h
  refine Antecedent.degree_of_agreeOn cs fun expression hexpression p hp => ?_
  refine Variables.agreeOn_foldl (fun hrole c hc hindex => ?_) ε vs
  refine hunread c hc r hr henabled ⟨expression, hexpression, p, hp, ?_⟩
  rw [hindex, ← hrole]

omit [NumberText α] in
theorem ConcludedUnread.write (hfree : b.FeedbackFree) (h : b.ConcludedUnread vs vs') {r r' : Rule α}
    (hr : r ∈ b.rules) (henabled : r.enabled = true) (heq : r'.deactivate = r.deactivate)
    (ε : α) (implication : Option (TNorm α)) :
    b.ConcludedUnread vs (r'.write ε implication vs') := by
  obtain ⟨conclusions, rfl, hunread⟩ := h
  have hsame := Variables.isEnabled_foldl conclusions vs
  refine ⟨conclusions ++ r'.drawn ε implication vs, ?_, ?_⟩
  · rw [List.foldl_append, Variables.write_eq_foldl hsame]
  · refine List.forall_mem_append.mpr ⟨hunread, fun c hc s hs hsenabled hreads => ?_⟩
    have hconsequent : r'.consequent = r.consequent := by
      show r'.deactivate.consequent = r.deactivate.consequent
      rw [heq]
    obtain ⟨p, hp, hid⟩ := Rule.exists_of_mem_drawn hc
    rw [hconsequent] at hp
    exact hfree s hs hsenabled _ hreads r hr henabled ⟨p, hp, congrArg VariableId.index hid⟩

/-- To activate and trigger rule by rule ends as it does to activate all rules first. -/
theorem FeedbackFree.run_eq (hfree : b.FeedbackFree) (ε : α) (vs : Variables α) :
    let general := (Activation.general (α := α)).run ε b.combinators b.rules vs
    let threshold := (Activation.threshold .greater (Scalar.zero : α)).run ε b.combinators b.rules vs
    general.error = threshold.error ∧ (general.error = none → general = threshold) := by
  intro general threshold
  let renewed := Run.renewAll ε b.combinators vs b.rules
  let marked := renewed.state.map (Rule.marked ε (Comparison.greater.holds ε · Scalar.zero))
  have hentry : b.ConcludedUnread vs vs := ⟨[], rfl, by simp⟩
  obtain ⟨hgeneral, hall⟩ := Run.inOrder_of_kept (P := b.ConcludedUnread vs)
    (fun r hr henabled vs' hunread => hunread.degree_eq hr henabled ε b.combinators)
    (fun r hr henabled r' heq vs' hunread => hunread.write hfree hr henabled heq ε _) 0 hentry
  have hthreshold : threshold.error = renewed.error :=
    Activation.error_run_eq (.threshold .greater Scalar.zero)
  refine ⟨hgeneral.trans hthreshold.symm, fun hnone => ?_⟩
  have hrenewed : renewed = ⟨renewed.state, none⟩ := by
    rw [← hgeneral.symm.trans hnone]
  -- What fires has a positive degree, so that the threshold leaves out nothing.
  have hmarked : ∀ r : Rule α, r.marked ε (fun _ => true) =
      r.marked ε (Comparison.greater.holds ε · Scalar.zero) := by
    intro r
    refine Rule.marked_congr fun hfires => ?_
    simp only [Rule.fires, Bool.and_eq_true] at hfires
    exact hfires.2.symm
  have hrules : general.rules = marked := (hall hnone).trans (by rw [funext hmarked])
  have hcatalogue : general.catalogue =
      writeAll ε b.combinators.implication (general.rules.filter Rule.triggered) vs :=
    Run.catalogue_inOrder hnone
  rw [hrules] at hcatalogue
  calc general = ⟨general.rules, general.catalogue, general.error⟩ := rfl
    _ = ⟨marked, writeAll ε b.combinators.implication (marked.filter Rule.triggered) vs, none⟩ := by
      rw [hcatalogue, hrules, hnone]
    _ = threshold := (Activation.run_threshold .greater Scalar.zero hrenewed).symm

/-- If no enabled rule refers to an output variable that the enabled ones conclude, it makes no
difference whether each rule is triggered as soon as it is activated, or all of them later. Both
cycles fail with the same error, or both end well and leave the same. -/
theorem cyclesAlike_of_feedbackFree (hfree : b.FeedbackFree) (ε : α) (vs : Variables α) :
    let general : Block α := { b with activation := some .general }
    let threshold : Block α := { b with activation := some (.threshold .greater Scalar.zero) }
    (general.run ε vs).error = (threshold.run ε vs).error ∧
      ((general.run ε vs).error = none → CyclesAlike ε vs general threshold) := by
  intro general threshold
  obtain ⟨herror, hrun⟩ := hfree.run_eq ε vs
  by_cases henabled : b.enabled = true
  · have hgeneral := run_of_enabled (b := general) henabled ε vs
    have hthreshold := run_of_enabled (b := threshold) henabled ε vs
    constructor
    · rw [hgeneral, hthreshold]
      exact herror
    · intro hnone
      rw [hgeneral] at hnone
      exact cyclesAlike_of_run_eq (hrun hnone)
  · have hdisabled : b.enabled = false := by simpa using henabled
    have halike := cyclesAlike_of_disabled hdisabled ε vs (some .general)
      (some (.threshold .greater Scalar.zero))
    exact ⟨halike.error, fun _ => halike⟩

/-- Two rules conclude about the fan, and one that is disabled looks at it. -/
def breeze : Block Float where
  name := "speed"
  rules := [
    Engine.fanRule,
    { Engine.fanRule with
      antecedent := ⟨"fan is fast", some (.proposition
        ⟨⟨⟨.output, 0⟩, "fan"⟩, [], some ⟨⟨0⟩, "fast"⟩⟩)⟩
      enabled := false, triggered := true },
    { Engine.fanRule with weight := 0.5 }]

theorem feedbackFree_breeze : breeze.FeedbackFree := by
  intro r hr henabled index hreads
  obtain ⟨expression, hexpression, p, hp, hid⟩ := hreads
  simp only [breeze, List.mem_cons, List.not_mem_nil, or_false] at hr
  have hantecedent : r.antecedent = Engine.fanRule.antecedent := by
    rcases hr with rfl | rfl | rfl
    · rfl
    · cases henabled
    · rfl
  rw [hantecedent] at hexpression
  obtain rfl := Option.some.inj hexpression
  obtain rfl := List.mem_singleton.mp hp
  cases hid

/-- The first and the third rule are triggered, either way. -/
theorem cyclesAlike_breeze :
    let general : Block Float := { breeze with activation := some .general }
    let threshold : Block Float := { breeze with activation := some (.threshold .greater 0) }
    breeze.FeedbackFree ∧
      CyclesAlike Binary64.defaultTolerance Engine.fan.vars general threshold ∧
      (threshold.run Binary64.defaultTolerance Engine.fan.vars).error = none ∧
      (threshold.run Binary64.defaultTolerance Engine.fan.vars).state.1.rules.map
        Rule.triggered = [true, false, true] := by
  intro general threshold
  have hnone : (general.run Binary64.defaultTolerance Engine.fan.vars).error = none := by
    decide +kernel
  obtain ⟨herror, halike⟩ := cyclesAlike_of_feedbackFree feedbackFree_breeze
    Binary64.defaultTolerance Engine.fan.vars
  exact ⟨feedbackFree_breeze, halike hnone, herror.symm.trans hnone, by decide +kernel⟩

end Block

end FuzzyInference
