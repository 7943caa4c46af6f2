import FuzzyInference.Proofs.Cycle.Ranking

/-!
Strategies that trigger the first or the last rules that reach a threshold. Such a cycle goes rule
by rule, and a rule is judged in the catalogue that the triggered ones before it have left, also
after the quota is used up.
-/
namespace FuzzyInference

variable {α κ : Type} [Scalar α] [NumberText α] [Catalogue κ α] {ε : α} {cs : Combinators α}

/-! ### The first rules -/

/-- A cycle that starts with some rules in a catalogue triggers the first `quota` of them that have
a positive degree and reach the bound. -/
structure SelectsFirst (ε : α) (cs : Combinators α) (quota : Nat) (bound : α)
    (rules : List (Rule α)) (catalogue : κ) (rules' : List (Rule α)) (catalogue' : κ) : Prop where
  length : rules'.length = rules.length
  number : rules'.countP Rule.triggered ≤ quota
  /-- A rule finds the catalogue with the conclusions of the triggered rules before it. -/
  judged : ∀ (i : Nat) (r r' : Rule α), rules[i]? = some r → rules'[i]? = some r' →
    r.Judged ε cs (writeAll ε cs.implication ((rules'.take i).filter Rule.triggered) catalogue) r'
  triggered : ∀ (i : Nat) (r r' : Rule α), rules[i]? = some r → rules'[i]? = some r' →
    (r'.triggered = true ↔ r.enabled = true ∧ Tolerance.gt ε r'.degree Scalar.zero = true ∧
      Tolerance.ge ε r'.degree bound = true ∧ (rules'.take i).countP Rule.triggered < quota)
  written : catalogue' =
    writeAll ε cs.implication (rules'.filter Rule.triggered) catalogue

namespace SelectsFirst

variable {quota : Nat} {bound : α} {catalogue catalogue' : κ} {rest rest' : List (Rule α)}
  {r r' : Rule α}

omit [NumberText α] in
theorem nil (ε : α) (cs : Combinators α) (quota : Nat) (bound : α) (catalogue : κ) :
    SelectsFirst ε cs quota bound [] catalogue [] catalogue where
  length := rfl
  number := Nat.zero_le quota
  judged := by simp
  triggered := by simp
  written := rfl

omit [NumberText α] in
/-- If the rule in front is triggered, the others have a smaller quota and see what it writes. -/
theorem cons (hjudged : r.Judged ε cs catalogue r')
    (htriggered : r'.triggered = true ↔ r.enabled = true ∧
      Tolerance.gt ε r'.degree Scalar.zero = true ∧ Tolerance.ge ε r'.degree bound = true ∧
      0 < quota)
    (h : SelectsFirst ε cs (quota - [r'].countP Rule.triggered) bound rest
      (writeAll ε cs.implication ([r'].filter Rule.triggered) catalogue) rest' catalogue') :
    SelectsFirst ε cs quota bound (r :: rest) catalogue (r' :: rest') catalogue' := by
  have hquota : [r'].countP Rule.triggered ≤ quota := by
    rw [List.countP_singleton]
    split
    · next hr' => exact (htriggered.mp hr').2.2.2
    · exact Nat.zero_le quota
  constructor
  · rw [List.length_cons, List.length_cons, h.length]
  · have hnumber := h.number
    rw [← List.singleton_append, List.countP_append]
    omega
  · intro i s s' hs hs'
    cases i with
    | zero =>
      obtain rfl := Option.some.inj hs
      obtain rfl := Option.some.inj hs'
      exact hjudged
    | succ i =>
      rw [List.take_succ_cons, ← List.singleton_append, List.filter_append, writeAll_append]
      exact h.judged i s s' hs hs'
  · intro i s s' hs hs'
    cases i with
    | zero =>
      obtain rfl := Option.some.inj hs
      obtain rfl := Option.some.inj hs'
      exact htriggered
    | succ i =>
      have hleft : (rest'.take i).countP Rule.triggered < quota - [r'].countP Rule.triggered ↔
          [r'].countP Rule.triggered + (rest'.take i).countP Rule.triggered < quota := by omega
      rw [List.take_succ_cons, ← List.singleton_append, List.countP_append, ← hleft]
      exact h.triggered i s s' hs hs'
  · rw [← List.singleton_append, List.filter_append, writeAll_append]
    exact h.written

end SelectsFirst

/-- What is left of the quota is for the rules that come. -/
theorem Run.selectsFirst_inOrder {count admitted : Nat} {bound : α} {rules : List (Rule α)}
    {catalogue : κ}
    (h : (inOrder ε cs (reaches ε count bound) admitted rules catalogue).error = none) :
    SelectsFirst ε cs (count - admitted) bound rules catalogue
      (inOrder ε cs (reaches ε count bound) admitted rules catalogue).rules
      (inOrder ε cs (reaches ε count bound) admitted rules catalogue).catalogue := by
  fun_induction inOrder ε cs (reaches ε count bound) admitted rules catalogue with
  | case1 admitted catalogue => exact .nil ..
  | case2 admitted rule rest catalogue cause hrenew => cases h
  | case3 admitted rule rest catalogue renewed hrenew hadmitted cause htrigger => cases h
  | case4 admitted rule rest catalogue renewed hrenew hadmitted fired catalogue' htrigger ih =>
    simp only [reaches, Bool.and_eq_true, decide_eq_true_eq] at hadmitted
    obtain ⟨henabled, ⟨hquota, hpositive⟩, hbound⟩ := hadmitted
    have hfires : renewed.fires ε = true := by simp [Rule.fires, henabled, hpositive]
    have hcatalogue := Rule.catalogue_of_trigger htrigger (Rule.triggered_of_renew hrenew)
    -- What is admitted has a positive degree, so it does fire and is counted.
    obtain ⟨-, ⟨hnot, -⟩ | ⟨-, rfl, -⟩⟩ := Rule.trigger_cases htrigger
    · cases hnot.symm.trans hfires
    · rw [Rule.enabled_of_renew hrenew] at henabled
      have hleft : 0 < count - admitted := Nat.sub_pos_of_lt hquota
      refine .cons (Rule.judged_of_renew hrenew rfl rfl fun _ => hfires)
        (iff_of_true rfl ⟨henabled, hpositive, hbound, hleft⟩) ?_
      rw [← hcatalogue]
      exact ih h
  | case5 admitted rule rest catalogue renewed hrenew hadmitted ih =>
    have hunmarked := Rule.triggered_of_renew hrenew
    refine .cons (Rule.judged_of_renew hrenew rfl rfl ?_) ?_ ?_
    · simp [hunmarked]
    · rw [← Rule.enabled_of_renew hrenew]
      simp only [hunmarked, Bool.false_eq_true, false_iff]
      rintro ⟨henabled, hpositive, hbound, hquota⟩
      have hlt : admitted < count := by omega
      exact hadmitted (by simp [reaches, henabled, hpositive, hbound, hlt])
    · have hnone : [renewed].filter Rule.triggered = [] := by simp [hunmarked]
      have hzero : [renewed].countP Rule.triggered = 0 := by simp [hunmarked]
      rw [hnone, hzero]
      exact ih h

/-- An enabled block that triggers its first rules triggers exactly these, unless it fails. -/
theorem Block.selectsFirst_of_first {b : Block α} {count : Nat} {bound : α} {catalogue : κ}
    (hactivation : b.activation = some (.first count bound)) (henabled : b.enabled = true)
    (h : (b.run ε catalogue).error = none) :
    SelectsFirst ε b.combinators count bound b.rules catalogue
      (b.run ε catalogue).state.1.rules (b.run ε catalogue).state.2 := by
  rw [Block.run_of_enabled henabled, hactivation] at h ⊢
  exact Run.selectsFirst_inOrder h

/-- The second rule looks at what the first one concludes. -/
def Block.draught : Block Float where
  name := "speed"
  activation := some (.first 1 0.5)
  rules := [
    Engine.fanRule,
    { Engine.fanRule with
      antecedent := ⟨"fan is fast", some (.proposition
        ⟨⟨⟨.output, 0⟩, "fan"⟩, [], some ⟨⟨0⟩, "fast"⟩⟩)⟩
      triggered := true },
    { Engine.fanRule with enabled := false, degree := 0.5, triggered := true }]

/-- It gets a degree that would suffice, but too late. -/
theorem Block.selectsFirst_draught :
    (draught.run Binary64.defaultTolerance Engine.fan.vars).error = none ∧
      SelectsFirst Binary64.defaultTolerance {} 1 0.5 draught.rules Engine.fan.vars
        (draught.run Binary64.defaultTolerance Engine.fan.vars).state.1.rules
        (draught.run Binary64.defaultTolerance Engine.fan.vars).state.2 ∧
      (draught.run Binary64.defaultTolerance Engine.fan.vars).state.1.rules.map (fun r =>
        (r.triggered, Tolerance.ge Binary64.defaultTolerance r.degree 0.5)) =
        [(true, true), (false, true), (false, false)] := by
  have herror : (draught.run Binary64.defaultTolerance Engine.fan.vars).error = none := by
    decide +kernel
  exact ⟨herror, selectsFirst_of_first rfl rfl herror, by decide +kernel⟩

/-! ### The last rules -/

/-- Triggering the last rules is triggering the first ones of the reversed list. The two cycles
leave the same catalogue and the same error, and rules in the opposite order; and so do the loops,
of which one walks down the positions of the list and the other one up those of the reversed list.
-/
theorem Block.run_last_eq_reverse (ε : α) (b : Block α) (count : Nat) (bound : α)
    (catalogue : κ) :
    let last : Block α := { b with activation := some (.last count bound) }
    let first : Block α :=
      { b with activation := some (.first count bound), rules := b.rules.reverse }
    let down := Outcome.ofSteps (InPlace.run ε last) ⟨last.rules, catalogue, []⟩
    let up := Outcome.ofSteps (InPlace.run ε first) ⟨first.rules, catalogue, []⟩
    ((last.run ε catalogue).error = (first.run ε catalogue).error ∧
      (last.run ε catalogue).state.2 = (first.run ε catalogue).state.2 ∧
      (last.run ε catalogue).state.1.rules = (first.run ε catalogue).state.1.rules.reverse) ∧
    (down.error = up.error ∧ down.state.catalogue = up.state.catalogue ∧
      down.state.rules = up.state.rules.reverse) := by
  intro last first down up
  have hrun : (last.run ε catalogue).error = (first.run ε catalogue).error ∧
      (last.run ε catalogue).state.2 = (first.run ε catalogue).state.2 ∧
      (last.run ε catalogue).state.1.rules = (first.run ε catalogue).state.1.rules.reverse := by
    cases henabled : b.enabled with
    | false =>
      rw [Block.run_of_disabled (b := last) henabled, Block.run_of_disabled (b := first) henabled]
      exact ⟨rfl, rfl, (List.reverse_reverse b.rules).symm⟩
    | true =>
      rw [Block.run_of_enabled (b := last) henabled, Block.run_of_enabled (b := first) henabled]
      exact ⟨rfl, rfl, rfl⟩
  obtain ⟨downCalls, hdown⟩ := InPlace.exists_of_run ε last catalogue
  obtain ⟨upCalls, hup⟩ := InPlace.exists_of_run ε first catalogue
  refine ⟨hrun, ?_⟩
  rw [show down = _ from hdown, show up = _ from hup]
  exact hrun

end FuzzyInference
