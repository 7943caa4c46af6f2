import FuzzyInference.Proofs.Cycle.InPlace

/-!
Cycles in two phases as they happen. The first loop activates the enabled rules and never touches
the catalogue; the second one triggers what has been selected. Together with the loops that go rule
by rule, they leave what the run of a block leaves.
-/
namespace FuzzyInference.Block.InPlace

variable {α κ : Type} [Scalar α] [NumberText α] [Catalogue κ α]

/-! ### The first phase -/

/-- The enabled ones among rules at some positions, with their degrees. -/
def degreesAt (ps : List Nat) (rules : List (Rule α)) : List (Nat × α) :=
  ((rules.zip ps).filter fun (rule, _) => rule.enabled).map fun (rule, p) => (p, rule.degree)

omit [Scalar α] [NumberText α] in
theorem degreesAt_range (rules : List (Rule α)) :
    degreesAt (List.range rules.length) rules = Run.degrees rules := by
  rw [degreesAt, Run.degrees, List.zipIdx_eq_zip_range', List.range_eq_range']

omit [Scalar α] [NumberText α] in
theorem degreesAt_cons (p : Nat) (ps : List Nat) (r : Rule α) (rules : List (Rule α)) :
    degreesAt (p :: ps) (r :: rules) =
      if r.enabled then (p, r.degree) :: degreesAt ps rules else degreesAt ps rules := by
  cases h : r.enabled <;> simp [degreesAt, h]

/-- The calls that activate the rules at some positions in a catalogue. -/
def activations (catalogue : κ) (ps : List Nat) : List (Call κ) := ps.map (.activate · catalogue)

/-- The first loop activates rules in the catalogue that it finds, and does not change it. -/
theorem exists_of_activateEnabled (ε : α) (cs : Combinators α) (catalogue : κ) {ps : List Nat}
    (hps : ps.Nodup) {todo rules : List (Rule α)} (h : ps.map (rules[·]?) = todo.map some)
    (degrees : List (Nat × α)) (calls : List (Call κ)) :
    let renewed := Run.renewAll ε cs catalogue todo
    ∃ rules' activated, Replaced ps renewed.state rules rules' ∧
      (∀ cause, renewed.error = some cause →
        (activateEnabled ε cs degrees ps).run ⟨rules, catalogue, calls⟩ =
          .error cause ⟨rules', catalogue, calls ++ activations catalogue activated⟩) ∧
      (renewed.error = none →
        activated = (degreesAt ps renewed.state).map Prod.fst ∧
        (activateEnabled ε cs degrees ps).run ⟨rules, catalogue, calls⟩ =
          .ok (degrees ++ degreesAt ps renewed.state)
            ⟨rules', catalogue, calls ++ activations catalogue activated⟩) := by
  fun_induction Run.renewAll ε cs catalogue todo generalizing ps rules degrees calls with
  | case1 =>
    obtain rfl : ps = [] := by simpa using h
    refine ⟨rules, [], .refl rfl, fun cause hcause => ?_, fun _ => ⟨rfl, ?_⟩⟩
    · cases hcause
    · simp [activateEnabled, degreesAt, activations]
  | case2 rule rest cause hrenew =>
    obtain ⟨p, ps, rfl, hrule, hrest⟩ := List.map_eq_cons_iff.mp h
    obtain ⟨hp, -⟩ := List.nodup_cons.mp hps
    have hrenewAt := run_renewAt hrule ε cs catalogue calls
    rw [hrenew] at hrenewAt
    simp only [activateEnabled, EStateM.run_bind, hrenewAt]
    refine ⟨_, [p], .cons hp hrule (.refl (Replaced.map_set hp hrest _)), fun failure hcause => ?_,
      fun hnone => ?_⟩
    · cases hcause
      rfl
    · cases hnone
  | case3 rule rest renewed hrenew ih =>
    obtain ⟨p, ps, rfl, hrule, hrest⟩ := List.map_eq_cons_iff.mp h
    obtain ⟨hp, hps⟩ := List.nodup_cons.mp hps
    have hrenewAt := run_renewAt hrule ε cs catalogue calls
    rw [hrenew] at hrenewAt
    have henabled := Rule.enabled_of_renew hrenew
    have hset := Replaced.map_set hp hrest renewed
    simp only [activateEnabled, EStateM.run_bind, hrenewAt, Outcome.map, degreesAt_cons, henabled]
    cases rule.enabled with
    | false =>
      obtain ⟨rules', activated, hreplaced, hrun⟩ := ih hps hset degrees (calls ++ [])
      rw [List.append_nil] at hrun
      exact ⟨rules', activated, .cons hp hrule hreplaced, by simpa using hrun⟩
    | true =>
      obtain ⟨rules', activated, hreplaced, hfailed, hdone⟩ := ih hps hset
        (degrees ++ [(p, renewed.degree)]) (calls ++ [.activate p catalogue])
      simp only [List.append_assoc, List.singleton_append] at hfailed hdone
      refine ⟨rules', p :: activated, .cons hp hrule hreplaced, hfailed, fun herror => ?_⟩
      obtain ⟨hactivated, hrun⟩ := hdone herror
      exact ⟨congrArg (p :: ·) hactivated, hrun⟩

/-! ### The second phase -/

theorem exists_of_triggerEach (ε : α) (implication : Option (TNorm α)) (indices : List Nat)
    (rules : List (Rule α)) (catalogue : κ) (calls : List (Call κ)) :
    let run := Run.triggerAt ε implication indices rules catalogue
    ∃ triggered : List Nat,
      Outcome.ofSteps (triggerEach ε implication indices) ⟨rules, catalogue, calls⟩ =
        ⟨⟨run.rules, run.catalogue, calls ++ triggered.map .trigger⟩, run.error⟩ := by
  fun_induction Run.triggerAt ε implication indices rules catalogue generalizing calls with
  | case1 rules catalogue => exact ⟨[], by simp [Outcome.ofSteps, triggerEach]⟩
  | case2 index rest rules catalogue hrule ih =>
    have htriggerAt := run_triggerAt_of_none hrule ε implication catalogue calls
    obtain ⟨triggered, hrun⟩ := ih calls
    refine ⟨triggered, ?_⟩
    simp only [Outcome.ofSteps, triggerEach, EStateM.run_bind, htriggerAt]
    exact hrun
  | case3 index rest rules catalogue rule hrule cause htrigger =>
    have htriggerAt := run_triggerAt hrule ε implication catalogue calls
    rw [htrigger] at htriggerAt
    refine ⟨[index], ?_⟩
    simp only [Outcome.ofSteps, triggerEach, EStateM.run_bind, htriggerAt]
    rfl
  | case4 index rest rules catalogue rule hrule fired catalogue' htrigger ih =>
    have htriggerAt := run_triggerAt hrule ε implication catalogue calls
    rw [htrigger] at htriggerAt
    obtain ⟨triggered, hrun⟩ := ih (calls ++ [.trigger index])
    refine ⟨index :: triggered, ?_⟩
    rw [List.append_assoc] at hrun
    simp only [Outcome.ofSteps, triggerEach, EStateM.run_bind, htriggerAt]
    exact hrun

section Degrees

omit [Scalar α] [NumberText α] [Catalogue κ α]

/-- The rules with other degrees at some positions. -/
def withDegrees (degrees : List (Nat × α)) (rules : List (Rule α)) : List (Rule α) :=
  degrees.foldl (fun rules d => rules.modify d.1 ({ · with degree := d.2 })) rules

theorem run_setDegrees (degrees : List (Nat × α)) (rules : List (Rule α)) (catalogue : κ)
    (calls : List (Call κ)) :
    (setDegrees degrees).run ⟨rules, catalogue, calls⟩ =
      .ok () ⟨withDegrees degrees rules, catalogue, calls⟩ := by
  induction degrees generalizing rules with
  | nil => rfl
  | cons d rest ih => exact ih (rules.modify d.1 ({ · with degree := d.2 }))

theorem withDegrees_cons (p : Nat) (degree : α) (rest : List (Nat × α)) (rules : List (Rule α)) :
    withDegrees ((p, degree) :: rest) rules =
      withDegrees rest (rules.modify p ({ · with degree })) := rfl

/-- Each enabled rule gets what becomes of its own degree. -/
theorem withDegrees_degreesAt (f : α → α) (done rules : List (Rule α)) :
    withDegrees ((degreesAt (List.range' done.length rules.length) rules).map fun d =>
        (d.1, f d.2)) (done ++ rules) =
      done ++ rules.map fun r => if r.enabled then { r with degree := f r.degree } else r := by
  induction rules generalizing done with
  | nil => simp [degreesAt, withDegrees]
  | cons r rest ih =>
    have hmodify : ∀ change : Rule α → Rule α,
        (done ++ r :: rest).modify done.length change = done ++ change r :: rest := by
      intro change
      induction done <;> simp_all
    have hrest := ih (done ++ [if r.enabled then { r with degree := f r.degree } else r])
    simp only [List.length_append, List.length_singleton, List.append_assoc,
      List.singleton_append] at hrest
    rw [List.length_cons, List.range'_succ, degreesAt_cons, List.map_cons]
    by_cases henabled : r.enabled = true
    · rw [if_pos henabled] at hrest ⊢
      rw [if_pos henabled, List.map_cons, withDegrees_cons, hmodify]
      exact hrest
    · rw [if_neg henabled] at hrest ⊢
      rw [if_neg henabled]
      exact hrest

end Degrees

omit [NumberText α] [Catalogue κ α] in
theorem run_shareDegrees (ε : α) (rules : List (Rule α)) (catalogue : κ)
    (calls : List (Call κ)) :
    (shareDegrees ε (Run.degrees rules)).run ⟨rules, catalogue, calls⟩ =
      .ok () ⟨Run.share ε rules, catalogue, calls⟩ := by
  simp only [shareDegrees, Run.share]
  split
  · generalize (Run.degrees rules).foldl _ (Scalar.zero : α) = sum
    have hshared := withDegrees_degreesAt (· / sum) [] rules
    rw [List.length_nil, ← List.range_eq_range', degreesAt_range, List.nil_append,
      List.nil_append] at hshared
    rw [run_setDegrees, hshared]
  · rfl

omit [NumberText α] [Catalogue κ α] in
theorem run_settle (ε : α) (activation : Activation α) (rules : List (Rule α)) (catalogue : κ)
    (calls : List (Call κ)) :
    (settle ε activation (Run.degrees rules)).run ⟨rules, catalogue, calls⟩ =
      .ok () ⟨activation.adjust ε rules, catalogue, calls⟩ := by
  cases activation with
  | proportional => exact run_shareDegrees ε rules catalogue calls
  | _ => rfl

/-- The loop of two phases leaves what the run leaves. It makes no call to trigger a rule if one
cannot be renewed, and otherwise has activated the enabled ones. -/
theorem exists_of_twoPhase {activation : Activation α} (h : activation.IsTwoPhase) (ε : α)
    (cs : Combinators α) (rules : List (Rule α)) (catalogue : κ) :
    let run := activation.run ε cs rules catalogue
    let renewed := Run.renewAll ε cs catalogue rules
    ∃ activated triggered : List Nat,
      Outcome.ofSteps (cycle ε cs activation) ⟨rules, catalogue, []⟩ =
        ⟨⟨run.rules, run.catalogue,
          activations catalogue activated ++ triggered.map .trigger⟩, run.error⟩ ∧
      (renewed.error ≠ none → triggered = []) ∧
      (renewed.error = none → activated = (Run.degrees renewed.state).map Prod.fst) := by
  have hlength := congrArg List.length (Run.deactivate_renewAll ε cs catalogue rules)
  obtain ⟨rules', activated, hreplaced, hfailed, hdone⟩ :=
    exists_of_activateEnabled ε cs catalogue List.nodup_range (Replaced.map_range rules) [] []
  obtain rfl := hreplaced.eq_of_range
  simp only [List.length_map] at hlength
  rw [← hlength, degreesAt_range] at hdone
  rw [← hlength] at hfailed
  have hcycle : cycle (κ := κ) ε cs activation =
      twoPhase ε cs (settle ε activation) (activation.select ε) := by
    cases h <;> rfl
  simp only [Activation.run_of_isTwoPhase h, hcycle, Outcome.ofSteps, twoPhase, positions,
    EStateM.run_bind, EStateM.run_get, EStateM.run_pure, ← hlength, Run.twoPhase]
  cases hrenew : Run.renewAll ε cs catalogue rules with
  | mk renewed error =>
    rw [hrenew] at hfailed hdone
    cases error with
    | some cause =>
      refine ⟨activated, [], ?_, fun _ => rfl, fun hnone => absurd hnone (Option.some_ne_none _)⟩
      rw [hfailed cause rfl]
      simp
    | none =>
      obtain ⟨hactivated, hrun⟩ := hdone rfl
      obtain ⟨triggered, htriggered⟩ := exists_of_triggerEach ε cs.implication
        (activation.select ε (Run.degrees renewed)) (activation.adjust ε renewed) catalogue
        (activations catalogue activated)
      refine ⟨activated, triggered, ?_, fun h => absurd rfl h, fun _ => hactivated⟩
      simp only [List.nil_append] at hrun
      rw [hrun]
      simp only [run_settle]
      exact htriggered

/-! ### Blocks -/

/-- The loops of each strategy leave what its run leaves. -/
theorem exists_of_cycle (ε : α) (cs : Combinators α) (activation : Activation α)
    (rules : List (Rule α)) (catalogue : κ) :
    let run := activation.run ε cs rules catalogue
    ∃ calls, Outcome.ofSteps (cycle ε cs activation) ⟨rules, catalogue, []⟩ =
      ⟨⟨run.rules, run.catalogue, calls⟩, run.error⟩ := by
  have htwoPhase : activation.IsTwoPhase → ∃ calls,
      Outcome.ofSteps (cycle ε cs activation) ⟨rules, catalogue, []⟩ =
        ⟨⟨(activation.run ε cs rules catalogue).rules,
          (activation.run ε cs rules catalogue).catalogue, calls⟩,
          (activation.run ε cs rules catalogue).error⟩ := by
    intro h
    obtain ⟨activated, triggered, hrun, -⟩ := exists_of_twoPhase h ε cs rules catalogue
    exact ⟨_, hrun⟩
  cases activation with
  | general => exact exists_of_ascending ..
  | first count bound => exact exists_of_ascending ..
  | last count bound => exact exists_of_descending ..
  | highest count => exact htwoPhase (.highest count)
  | lowest count => exact htwoPhase (.lowest count)
  | threshold comparison value => exact htwoPhase (.threshold comparison value)
  | proportional => exact htwoPhase .proportional

/-- The loops leave what the run of the block leaves. -/
theorem exists_of_run (ε : α) (b : Block α) (catalogue : κ) :
    ∃ calls, Outcome.ofSteps (run ε b) ⟨b.rules, catalogue, []⟩ =
      ⟨⟨(b.run ε catalogue).state.1.rules, (b.run ε catalogue).state.2, calls⟩,
        (b.run ε catalogue).error⟩ := by
  cases henabled : b.enabled with
  | false =>
    rw [Block.run_of_disabled henabled, run, henabled]
    exact ⟨[], rfl⟩
  | true =>
    rw [Block.run_of_enabled henabled, run, henabled]
    exact exists_of_cycle ε b.combinators _ b.rules catalogue

end FuzzyInference.Block.InPlace
