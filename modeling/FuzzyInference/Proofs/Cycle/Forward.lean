import FuzzyInference.Proofs.Cycle.Quota
import FuzzyInference.Proofs.Cycle.Received

/-!
Cycles that go forward through the rules. To trigger a rule without a positive degree does nothing,
so a quota that is never used up leaves out no rule. What a cycle makes of a rule is settled when it
goes on to the next one: rules that are added at the end change nothing for those before them.
-/
namespace FuzzyInference

variable {α κ : Type} [Scalar α] [NumberText α] [Catalogue κ α] {ε : α} {cs : Combinators α}

/-- From the same catalogue on, the two blocks end with the same error or with none, and leave the
same catalogue and the same rules. -/
structure Block.CyclesAlike (ε : α) (start : κ) (b b' : Block α) : Prop where
  error : (b.run ε start).error = (b'.run ε start).error
  catalogue : (b.run ε start).state.2 = (b'.run ε start).state.2
  rules : (b.run ε start).state.1.rules = (b'.run ε start).state.1.rules

/-! ### Quotas that are not used up -/

omit [NumberText α] in
theorem Tolerance.ge_of_gt {ε a b : α} (h : gt ε a b = true) : ge ε a b = true := by
  simp only [gt, Bool.and_eq_true] at h
  simp [ge, h.2]

namespace Run

/-- As long as the quota exceeds the number of rules, every rule that has something to conclude is
admitted. -/
theorem inOrder_of_length_le {count : Nat} {rules : List (Rule α)} {admitted : Nat}
    (h : admitted + rules.length ≤ count) (others : Nat) (catalogue : κ) :
    inOrder ε cs (reaches ε count Scalar.zero) admitted rules catalogue =
      inOrder ε cs (fun _ _ => true) others rules catalogue := by
  induction rules generalizing admitted others catalogue with
  | nil => rfl
  | cons rule rest ih =>
    rw [List.length_cons] at h
    simp only [inOrder]
    cases hrenew : rule.renew ε cs catalogue with
    | error cause => rfl
    | ok renewed =>
      by_cases henabled : renewed.enabled = true
      · have hloaded := Rule.isLoaded_of_renew hrenew henabled
        have htrigger := Rule.trigger_of_isLoaded ε cs.implication catalogue hloaded
        by_cases hpositive : Tolerance.gt ε renewed.degree Scalar.zero = true
        · have hreaches : reaches ε count Scalar.zero admitted renewed.degree = true := by
            have hlt : admitted < count := by omega
            simp [reaches, hlt, hpositive, Tolerance.ge_of_gt hpositive]
          have hfires : renewed.fires ε = true := by simp [Rule.fires, henabled, hpositive]
          have hrest : admitted + 1 + rest.length ≤ count := by omega
          rw [hfires, if_pos rfl] at htrigger
          simp only [henabled, hreaches, htrigger, Bool.true_and, if_true, ih hrest (others + 1)]
        · have hreaches : reaches ε count Scalar.zero admitted renewed.degree = false := by
            simp [reaches, hpositive]
          have hfires : renewed.fires ε = false := by simp [Rule.fires, hpositive]
          have hrest : admitted + rest.length ≤ count := by omega
          rw [hfires, if_neg Bool.false_ne_true] at htrigger
          simp only [henabled, hreaches, htrigger, Bool.true_and, Bool.false_eq_true, if_true,
            if_false, ih hrest (others + 1)]
      · have hrest : admitted + rest.length ≤ count := by omega
        simp only [henabled, Bool.false_and, Bool.false_eq_true, if_false, ih hrest others]

end Run

/-- A block that is disabled has no use for a strategy. -/
theorem Block.cyclesAlike_of_disabled {b : Block α} (h : b.enabled = false) (ε : α) (start : κ)
    (strategy strategy' : Option (Activation α)) :
    CyclesAlike ε start { b with activation := strategy } { b with activation := strategy' } := by
  have hrun := run_of_disabled (b := { b with activation := strategy }) h ε start
  have hrun' := run_of_disabled (b := { b with activation := strategy' }) h ε start
  constructor <;> rw [hrun, hrun']

theorem Block.cyclesAlike_of_run_eq {b : Block α} {start : κ}
    {strategy strategy' : Option (Activation α)}
    (h : (strategy.getD .general).run ε b.combinators b.rules start =
      (strategy'.getD .general).run ε b.combinators b.rules start) :
    CyclesAlike ε start { b with activation := strategy } { b with activation := strategy' } := by
  by_cases henabled : b.enabled = true
  · have hrun := run_of_enabled (b := { b with activation := strategy }) henabled ε start
    have hrun' := run_of_enabled (b := { b with activation := strategy' }) henabled ε start
    simp only at hrun hrun'
    rw [h] at hrun
    constructor <;> rw [hrun, hrun']
  · have hdisabled : b.enabled = false := by simpa using henabled
    exact cyclesAlike_of_disabled hdisabled ε start strategy strategy'

/-- To trigger all rules is to trigger the first ones, if there may be as many of them as there are
rules; and a block without a strategy triggers all rules. -/
theorem Block.cyclesAlike_general (ε : α) (b : Block α) {count : Nat}
    (h : b.rules.length ≤ count) (catalogue : κ) :
    let first : Block α := { b with activation := some (.first count Scalar.zero) }
    CyclesAlike ε catalogue { b with activation := some .general } first ∧
      CyclesAlike ε catalogue { b with activation := none } first := by
  intro first
  have hcount : 0 + b.rules.length ≤ count := by omega
  have hgeneral : (Activation.general (α := α)).run ε b.combinators b.rules catalogue =
      (Activation.first count Scalar.zero).run ε b.combinators b.rules catalogue :=
    (Run.inOrder_of_length_le hcount 0 catalogue).symm
  exact ⟨cyclesAlike_of_run_eq hgeneral, cyclesAlike_of_run_eq hgeneral⟩

/-- Both rules that are enabled are triggered, the second one because of the first. -/
theorem Block.cyclesAlike_draught :
    let general : Block Float := { draught with activation := some .general }
    let first : Block Float := { draught with activation := some (.first 3 0) }
    draught.rules.length ≤ 3 ∧
      CyclesAlike Binary64.defaultTolerance Engine.fan.vars general first ∧
      (general.run Binary64.defaultTolerance Engine.fan.vars).error = none ∧
      (general.run Binary64.defaultTolerance Engine.fan.vars).state.1.rules.map Rule.triggered =
        [true, true, false] := by
  have hlength : draught.rules.length ≤ 3 := by decide
  obtain ⟨halike, -⟩ := cyclesAlike_general Binary64.defaultTolerance draught hlength
    Engine.fan.vars
  exact ⟨hlength, halike, by decide +kernel, by decide +kernel⟩

/-! ### Rules that are added at the end -/

/-- The strategy activates and triggers rules one after another, from the first one on. -/
inductive Activation.GoesForward : Activation α → Prop
  | general : GoesForward .general
  | first (count : Nat) (bound : α) : GoesForward (.first count bound)

namespace Run

/-- A run of more rules begins with the run of the first ones, and ends with it if that fails. -/
theorem inOrder_append (ε : α) (cs : Combinators α) (admits : Nat → α → Bool) (admitted : Nat)
    (rules more : List (Rule α)) (catalogue : κ) :
    let run := inOrder ε cs admits admitted rules catalogue
    (∀ cause, run.error = some cause →
      inOrder ε cs admits admitted (rules ++ more) catalogue =
        ⟨run.rules ++ more, run.catalogue, some cause⟩) ∧
    (run.error = none → ∃ before,
      let later := inOrder ε cs admits before more run.catalogue
      inOrder ε cs admits admitted (rules ++ more) catalogue =
        ⟨run.rules ++ later.rules, later.catalogue, later.error⟩) := by
  fun_induction inOrder ε cs admits admitted rules catalogue with
  | case1 admitted catalogue =>
    refine ⟨fun failure hcause => ?_, fun _ => ⟨admitted, rfl⟩⟩
    cases hcause
  | case2 admitted rule rest catalogue cause hrenew =>
    refine ⟨fun failure hcause => ?_, fun hnone => ?_⟩
    · cases hcause
      simp only [List.cons_append, inOrder, hrenew]
    · cases hnone
  | case3 admitted rule rest catalogue renewed hrenew hadmitted cause htrigger =>
    refine ⟨fun failure hcause => ?_, fun hnone => ?_⟩
    · cases hcause
      simp only [List.cons_append, inOrder, hrenew, hadmitted, htrigger, if_true]
    · cases hnone
  | case4 admitted rule rest catalogue renewed hrenew hadmitted fired catalogue' htrigger ih =>
    obtain ⟨hfailed, hdone⟩ := ih
    simp only [List.cons_append, inOrder, hrenew, hadmitted, htrigger, if_true]
    constructor
    · intro cause hcause
      rw [hfailed cause hcause]
      rfl
    · intro hnone
      obtain ⟨before, hlater⟩ := hdone hnone
      exact ⟨before, by rw [hlater]; rfl⟩
  | case5 admitted rule rest catalogue renewed hrenew hadmitted ih =>
    obtain ⟨hfailed, hdone⟩ := ih
    simp only [List.cons_append, inOrder, hrenew, if_neg hadmitted]
    constructor
    · intro cause hcause
      rw [hfailed cause hcause]
      rfl
    · intro hnone
      obtain ⟨before, hlater⟩ := hdone hnone
      exact ⟨before, by rw [hlater]; rfl⟩

end Run

theorem Activation.GoesForward.exists_run_append {activation : Activation α}
    (h : activation.GoesForward) (ε : α) (cs : Combinators α) (rules more : List (Rule α))
    (catalogue : κ) :
    let run := activation.run ε cs rules catalogue
    let longer := activation.run ε cs (rules ++ more) catalogue
    (∀ cause, run.error = some cause → longer = ⟨run.rules ++ more, run.catalogue, some cause⟩) ∧
    (run.error = none → ∃ later, longer.rules = run.rules ++ later ∧
      Concluded run.catalogue longer.catalogue) := by
  have hinOrder : ∃ admits : Nat → α → Bool, ∀ rules : List (Rule α),
      activation.run ε cs rules catalogue = Run.inOrder ε cs admits 0 rules catalogue := by
    cases h with
    | general => exact ⟨_, fun _ => rfl⟩
    | first count bound => exact ⟨_, fun _ => rfl⟩
  obtain ⟨admits, hrun⟩ := hinOrder
  obtain ⟨hfailed, hdone⟩ := Run.inOrder_append ε cs admits 0 rules more catalogue
  simp only [hrun]
  refine ⟨hfailed, fun hnone => ?_⟩
  obtain ⟨before, hlater⟩ := hdone hnone
  exact ⟨_, congrArg Run.rules hlater, hlater ▸ (Run.over_inOrder ..).catalogue⟩

/-- What rules at the end of a block can do. If the block alone ends without an error, they change
nothing that it makes of its own rules, and what it concludes comes before what they conclude, also
if they fail. If the block alone fails, it fails with them as well, and they are not reached. -/
theorem Block.run_append {b : Block α} (h : (b.activation.getD .general).GoesForward)
    (more : List (Rule α)) (ε : α) (vs : Variables α) :
    let longer : Block α := { b with rules := b.rules ++ more }
    let after := b.run ε vs
    let after' := longer.run ε vs
    (after.error = none →
      after'.state.1.rules.take b.rules.length = after.state.1.rules ∧
      after.state.2.Begins after'.state.2) ∧
    (∀ cause, after.error = some cause →
      after'.error = some cause ∧ after'.state.2 = after.state.2 ∧
      after'.state.1.rules = after.state.1.rules ++ more) := by
  intro longer after after'
  by_cases henabled : b.enabled = true
  · have hafter : after = _ := run_of_enabled henabled ε vs
    have hafter' : after' = _ := run_of_enabled (b := longer) henabled ε vs
    obtain ⟨hfailed, hdone⟩ := h.exists_run_append ε b.combinators b.rules more vs
    simp only [longer] at hafter'
    rw [hafter, hafter']
    constructor
    · intro hnone
      obtain ⟨later, hrules, hconcluded⟩ := hdone hnone
      have hover := ((b.activation.getD .general).over_run ε b.combinators b.rules vs).rules
      have hlength := congrArg List.length hover
      simp only [List.length_map] at hlength
      refine ⟨?_, Variables.begins_of_concluded hconcluded⟩
      simp only [hrules, ← hlength, List.take_left]
    · intro cause hcause
      simp only [hfailed cause hcause, and_self]
  · have hdisabled : b.enabled = false := by simpa using henabled
    have hafter : after = _ := run_of_disabled hdisabled ε vs
    have hafter' : after' = _ := run_of_disabled (b := longer) hdisabled ε vs
    rw [hafter, hafter']
    constructor
    · intro _
      exact ⟨by simp [longer], Variables.begins_of_concluded (.refl vs)⟩
    · intro cause hcause
      cases hcause

/-- A rule that takes a conjunction fails behind the rules of a block that has none. -/
theorem Block.run_append_draught :
    let general : Block Float := { draught with activation := none }
    let longer : Block Float := { general with rules := general.rules ++ surge.rules.drop 1 }
    let after := general.run Binary64.defaultTolerance Engine.fan.vars
    let after' := longer.run Binary64.defaultTolerance Engine.fan.vars
    (general.activation.getD .general).GoesForward ∧ after.error = none ∧
      after'.error = some (.missingCombinator .conjunction) ∧
      after'.state.1.rules.take 3 = after.state.1.rules ∧
      after.state.2.Begins after'.state.2 := by
  intro general longer after after'
  have hforward : (general.activation.getD .general).GoesForward := .general
  have hnone : after.error = none := by decide +kernel
  have hsome : after'.error = some (.missingCombinator .conjunction) := by decide +kernel
  obtain ⟨hdone, -⟩ := run_append hforward (surge.rules.drop 1) Binary64.defaultTolerance
    Engine.fan.vars
  obtain ⟨hrules, hentries⟩ := hdone hnone
  exact ⟨hforward, hnone, hsome, hrules, hentries⟩

end FuzzyInference
