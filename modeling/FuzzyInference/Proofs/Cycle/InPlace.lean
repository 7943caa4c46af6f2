import FuzzyInference.Proofs.Cycle.Stops
import FuzzyInference.Proofs.Rule.InPlace

/-!
Cycles as they happen. The loops of a strategy walk over positions and assign the rules there, one
step at a time; what has been assigned is still there after an error. The calls that activate or
trigger a rule are noted, with the catalogue that an activation sees, so that the order of the calls
can be stated. A loop that goes rule by rule leaves at its positions what the run of the rules there
leaves.
-/
namespace FuzzyInference

/-- What a cycle calls for the rule at a position. -/
inductive Call (κ : Type) where
  | activate (position : Nat) (catalogue : κ)
  | trigger (position : Nat)

/-- A block in the middle of a cycle, and the calls that the cycle has made, the latest last. -/
structure Stage (κ α : Type) where
  rules : List (Rule α)
  catalogue : κ
  calls : List (Call κ) := []

/-- The second list has the given members at the positions, and is else the first one. -/
structure Replaced {T : Type} (ps : List Nat) (xs before after : List T) : Prop where
  at_positions : ps.map (after[·]?) = xs.map some
  elsewhere : ∀ p ∉ ps, after[p]? = before[p]?

namespace Replaced

variable {T : Type} {p : Nat} {ps : List Nat} {x y : T} {xs before after : List T}

/-- What is assigned to another position is not seen. -/
theorem map_set (hp : p ∉ ps) (h : ps.map (before[·]?) = xs.map some) (y : T) :
    ps.map ((before.set p y)[·]?) = xs.map some := by
  rw [← h]
  refine List.map_congr_left fun q hq => ?_
  have hne : p ≠ q := by
    rintro rfl
    exact hp hq
  rw [List.getElem?_set_ne hne]

/-- A list has its members at all of its positions. -/
theorem map_range (xs : List T) : (List.range xs.length).map (xs[·]?) = xs.map some := by
  refine List.ext_getElem? fun i => ?_
  by_cases hi : i < xs.length <;> simp [hi]

/-- One member is assigned before the others are replaced. -/
theorem cons (hp : p ∉ ps) (hx : before[p]? = some x)
    (h : Replaced ps xs (before.set p y) after) : Replaced (p :: ps) (y :: xs) before after := by
  have hlt := (List.getElem?_eq_some_iff.mp hx).1
  constructor
  · rw [List.map_cons, List.map_cons, h.at_positions, h.elsewhere p hp, List.getElem?_set_self hlt]
  · intro q hq
    obtain ⟨hne, hq⟩ := not_or.mp (mt List.mem_cons.mpr hq)
    rw [h.elsewhere q hq, List.getElem?_set_ne (Ne.symm hne)]

theorem refl (h : ps.map (before[·]?) = xs.map some) : Replaced ps xs before before :=
  ⟨h, fun _ _ => rfl⟩

/-- All members are replaced. -/
theorem eq_of_range (h : Replaced (List.range before.length) xs before after) : after = xs := by
  have hlength : before.length = xs.length := by
    simpa using congrArg List.length h.at_positions
  refine List.ext_getElem? fun i => ?_
  by_cases hi : i < before.length
  · have hat := congrArg (·[i]?) h.at_positions
    simpa [hi, hlength ▸ hi] using hat
  · rw [h.elsewhere i (by simpa using hi), List.getElem?_eq_none (Nat.le_of_not_lt hi),
      List.getElem?_eq_none (hlength ▸ Nat.le_of_not_lt hi)]

theorem eq_of_reverse_range (h : Replaced (List.range before.length).reverse xs before after) :
    after = xs.reverse := by
  have hat := congrArg List.reverse h.at_positions
  rw [← List.map_reverse, List.reverse_reverse, ← List.map_reverse] at hat
  have hreplaced : Replaced (List.range before.length) xs.reverse before after :=
    ⟨hat, fun p hp => h.elsewhere p (mt List.mem_reverse.mp hp)⟩
  exact hreplaced.eq_of_range

end Replaced

theorem Rule.enabled_of_renew {α κ : Type} [Scalar α] [NumberText α] [Catalogue κ α] {ε : α}
    {cs : Combinators α} {catalogue : κ} {r r' : Rule α} (h : r.renew ε cs catalogue = .ok r') :
    r'.enabled = r.enabled := by
  obtain ⟨-, rfl⟩ | ⟨-, -, degree, -, rfl⟩ := renew_cases h <;> rfl

/-! ### Strategies in two phases -/

namespace Activation

variable {α κ : Type}

/-- The strategy activates all rules before it triggers the first one. -/
inductive IsTwoPhase : Activation α → Prop
  | highest (count : Nat) : IsTwoPhase (.highest count)
  | lowest (count : Nat) : IsTwoPhase (.lowest count)
  | threshold (comparison : Comparison) (value : α) : IsTwoPhase (.threshold comparison value)
  | proportional : IsTwoPhase .proportional

variable [Scalar α]

/-- What becomes of the rules between the two phases. -/
def adjust (ε : α) : Activation α → List (Rule α) → List (Rule α)
  | proportional => Run.share ε
  | _ => id

/-- The positions of the rules that are triggered in the second phase. -/
def select (ε : α) : Activation α → List (Nat × α) → List Nat
  | highest count => Run.ranked ε (fun a b => Scalar.totalLe b a) count
  | lowest count => Run.ranked ε Scalar.totalLe count
  | threshold comparison value => fun degrees =>
    (degrees.filter fun (_, degree) => comparison.holds ε degree value).map (·.1)
  | _ => List.map (·.1)

theorem run_of_isTwoPhase [NumberText α] [Catalogue κ α] {activation : Activation α}
    (h : activation.IsTwoPhase) (ε : α) (cs : Combinators α) (rules : List (Rule α))
    (catalogue : κ) :
    activation.run ε cs rules catalogue =
      Run.twoPhase ε cs (activation.adjust ε) (activation.select ε) rules catalogue := by
  cases h <;> rfl

theorem deactivate_adjust (ε : α) (activation : Activation α) (rules : List (Rule α)) :
    (activation.adjust ε rules).map Rule.deactivate = rules.map Rule.deactivate := by
  cases activation with
  | proportional => exact Run.deactivate_share ε rules
  | _ => rfl

/-- Only positions of enabled rules are selected. -/
theorem select_subset (ε : α) (activation : Activation α) (degrees : List (Nat × α)) :
    activation.select ε degrees ⊆ degrees.map Prod.fst := by
  cases activation with
  | highest count => exact Run.ranked_subset ε (fun a b => Scalar.totalLe b a) count degrees
  | lowest count => exact Run.ranked_subset ε Scalar.totalLe count degrees
  | threshold comparison value => exact List.map_subset _ List.filter_sublist.subset
  | _ => exact List.Subset.refl _

end Activation

namespace Block.InPlace

variable {α κ : Type}

/-! ### The loops -/

/-- Steps on a block in the middle of a cycle. -/
abbrev Steps (κ α β : Type) : Type := EStateM Error (Stage κ α) β

def note (call : Call κ) : Steps κ α Unit :=
  modify fun s => { s with calls := s.calls ++ [call] }

def assign (position : Nat) (r : Rule α) : Steps κ α Unit :=
  modify fun s => { s with rules := s.rules.set position r }

def positions : Steps κ α (List Nat) := do
  return List.range (← get).rules.length

/-- Assigns degrees to the rules at some positions. -/
def setDegrees (degrees : List (Nat × α)) : Steps κ α Unit :=
  degrees.forM fun (position, degree) =>
    modify fun s => { s with rules := s.rules.modify position ({ · with degree }) }

variable [Scalar α] [NumberText α] [Catalogue κ α]

/-- Deactivates the rule at a position and, if it is enabled, activates it. The result is its degree
then. -/
def renewAt (ε : α) (cs : Combinators α) (position : Nat) : Steps κ α (Option α) := do
  let s ← get
  match s.rules[position]? with
  | none => return none
  | some r =>
    assign position r.deactivate
    if r.enabled then
      note (.activate position s.catalogue)
      match r.deactivate.activate ε cs s.catalogue with
      | .ok r =>
        assign position r
        return some r.degree
      | .error cause => throw cause
    else return none

def triggerAt (ε : α) (implication : Option (TNorm α)) (position : Nat) : Steps κ α Unit := do
  let s ← get
  match s.rules[position]? with
  | none => return ()
  | some r =>
    note (.trigger position)
    match r.trigger ε implication s.catalogue with
    | .ok (fired, catalogue) => modify fun s =>
      { s with rules := s.rules.set position fired, catalogue }
    | .error cause => throw cause

/-- Renews the rules at some positions one after another, and triggers those that are admitted at
once. -/
def visit (ε : α) (cs : Combinators α) (admits : Nat → α → Bool) :
    Nat → List Nat → Steps κ α Unit
  | _, [] => return ()
  | admitted, position :: rest => do
    match ← renewAt ε cs position with
    | none => visit ε cs admits admitted rest
    | some degree =>
      if admits admitted degree then
        triggerAt ε cs.implication position
        visit ε cs admits (admitted + 1) rest
      else visit ε cs admits admitted rest

/-- Renews the rules at some positions, and collects the positions of the enabled ones and their
degrees. -/
def activateEnabled (ε : α) (cs : Combinators α) :
    List (Nat × α) → List Nat → Steps κ α (List (Nat × α))
  | degrees, [] => return degrees
  | degrees, position :: rest => do
    match ← renewAt ε cs position with
    | none => activateEnabled ε cs degrees rest
    | some degree => activateEnabled ε cs (degrees ++ [(position, degree)]) rest

def triggerEach (ε : α) (implication : Option (TNorm α)) : List Nat → Steps κ α Unit
  | [] => return ()
  | position :: rest => do
    triggerAt ε implication position
    triggerEach ε implication rest

def twoPhase (ε : α) (cs : Combinators α) (settle : List (Nat × α) → Steps κ α Unit)
    (select : List (Nat × α) → List Nat) : Steps κ α Unit := do
  let degrees ← activateEnabled ε cs [] (← positions)
  settle degrees
  triggerEach ε cs.implication (select degrees)

def shareDegrees (ε : α) (degrees : List (Nat × α)) : Steps κ α Unit :=
  let sum := degrees.foldl (fun sum (_, degree) => sum + degree) Scalar.zero
  if Tolerance.gt ε sum Scalar.zero then
    setDegrees (degrees.map fun (position, degree) => (position, degree / sum))
  else return ()

/-- What a strategy assigns between its two phases. -/
def settle (ε : α) : Activation α → List (Nat × α) → Steps κ α Unit
  | .proportional => shareDegrees ε
  | _ => fun _ => return ()

/-- The loops of a strategy. -/
def cycle (ε : α) (cs : Combinators α) (activation : Activation α) : Steps κ α Unit :=
  match activation with
  | .general => do visit ε cs (fun _ _ => true) 0 (← positions)
  | .first count bound => do visit ε cs (Run.reaches ε count bound) 0 (← positions)
  | .last count bound => do visit ε cs (Run.reaches ε count bound) 0 (← positions).reverse
  | _ => twoPhase ε cs (settle ε activation) (activation.select ε)

/-- The cycle of a block; without a strategy every rule is activated in order. -/
def run (ε : α) (b : Block α) : Steps κ α Unit :=
  if b.enabled then cycle ε b.combinators (b.activation.getD .general) else return ()

/-! ### What they leave -/

section Steps

variable {rules : List (Rule α)} {position : Nat} {r : Rule α}

theorem run_renewAt (h : rules[position]? = some r) (ε : α) (cs : Combinators α) (catalogue : κ)
    (calls : List (Call κ)) :
    (renewAt ε cs position).run ⟨rules, catalogue, calls⟩ =
      match r.renew ε cs catalogue with
      | .ok renewed =>
        .ok (if r.enabled then some renewed.degree else none) ⟨rules.set position renewed,
          catalogue, calls ++ if r.enabled then [.activate position catalogue] else []⟩
      | .error cause => .error cause ⟨rules.set position r.deactivate, catalogue,
          calls ++ [.activate position catalogue]⟩ := by
  simp only [renewAt, EStateM.run_bind, EStateM.run_get, h, Rule.renew, assign, note,
    EStateM.run_modify]
  cases henabled : r.enabled with
  | false => simp
  | true =>
    simp only [EStateM.run_bind, EStateM.run_modify, if_true]
    cases r.deactivate.activate ε cs catalogue with
    | error cause => rfl
    | ok renewed => simp only [EStateM.run_bind, EStateM.run_modify, EStateM.run_pure, List.set_set]

theorem run_triggerAt (h : rules[position]? = some r) (ε : α) (implication : Option (TNorm α))
    (catalogue : κ) (calls : List (Call κ)) :
    (triggerAt ε implication position).run ⟨rules, catalogue, calls⟩ =
      match r.trigger ε implication catalogue with
      | .ok (fired, catalogue') =>
        .ok () ⟨rules.set position fired, catalogue', calls ++ [.trigger position]⟩
      | .error cause => .error cause ⟨rules, catalogue, calls ++ [.trigger position]⟩ := by
  simp only [triggerAt, EStateM.run_bind, EStateM.run_get, h, note, EStateM.run_modify]
  cases r.trigger ε implication catalogue <;> rfl

theorem run_triggerAt_of_none (h : rules[position]? = none) (ε : α)
    (implication : Option (TNorm α)) (catalogue : κ) (calls : List (Call κ)) :
    (triggerAt ε implication position).run ⟨rules, catalogue, calls⟩ =
      .ok () ⟨rules, catalogue, calls⟩ := by
  simp only [triggerAt, EStateM.run_bind, EStateM.run_get, h, EStateM.run_pure]

end Steps

/-! ### Rule by rule -/

/-- The loop over positions leaves there what the run of the rules at these positions leaves, and
the other rules as they were. -/
theorem exists_of_visit (ε : α) (cs : Combinators α) (admits : Nat → α → Bool) (admitted : Nat)
    (catalogue : κ) {ps : List Nat} (hps : ps.Nodup) {todo rules : List (Rule α)}
    (h : ps.map (rules[·]?) = todo.map some) (calls : List (Call κ)) :
    let run := Run.inOrder ε cs admits admitted todo catalogue
    ∃ rules' calls', Outcome.ofSteps (visit ε cs admits admitted ps) ⟨rules, catalogue, calls⟩ =
      ⟨⟨rules', run.catalogue, calls'⟩, run.error⟩ ∧ Replaced ps run.rules rules rules' := by
  -- The positions are distinct, so an assignment leaves the rules that are still to come in place.
  fun_induction Run.inOrder ε cs admits admitted todo catalogue generalizing ps rules calls with
  | case1 admitted catalogue =>
    obtain rfl : ps = [] := by simpa using h
    exact ⟨rules, calls, rfl, .refl rfl⟩
  | case2 admitted rule rest catalogue cause hrenew =>
    obtain ⟨p, ps, rfl, hrule, hrest⟩ := List.map_eq_cons_iff.mp h
    obtain ⟨hp, -⟩ := List.nodup_cons.mp hps
    have hrenewAt := run_renewAt hrule ε cs catalogue calls
    rw [hrenew] at hrenewAt
    simp only [Outcome.ofSteps, visit, EStateM.run_bind, hrenewAt]
    exact ⟨_, _, rfl, .cons hp hrule (.refl (Replaced.map_set hp hrest _))⟩
  | case3 admitted rule rest catalogue renewed hrenew hadmitted cause htrigger =>
    have hloaded := Rule.isLoaded_of_renew hrenew (Bool.and_eq_true_iff.mp hadmitted).1
    exact absurd htrigger (Rule.ne_error_of_isLoaded hloaded)
  | case4 admitted rule rest catalogue renewed hrenew hadmitted fired catalogue' htrigger ih =>
    obtain ⟨p, ps, rfl, hrule, hrest⟩ := List.map_eq_cons_iff.mp h
    obtain ⟨hp, hps⟩ := List.nodup_cons.mp hps
    obtain ⟨henabled, hadmits⟩ := Bool.and_eq_true_iff.mp hadmitted
    have hlt : p < rules.length := (List.getElem?_eq_some_iff.mp hrule).1
    have hrenewAt := run_renewAt hrule ε cs catalogue calls
    have hrenewed : (rules.set p renewed)[p]? = some renewed := List.getElem?_set_self hlt
    have htriggerAt := run_triggerAt hrenewed ε cs.implication catalogue
      (calls ++ [.activate p catalogue])
    rw [hrenew] at hrenewAt
    simp only [htrigger, List.set_set] at htriggerAt
    obtain ⟨rules', calls', hrun, hreplaced⟩ := ih hps (Replaced.map_set hp hrest fired)
      (calls ++ [.activate p catalogue] ++ [.trigger p])
    refine ⟨rules', calls', ?_, .cons hp hrule hreplaced⟩
    rw [Rule.enabled_of_renew hrenew] at henabled
    simp only [Outcome.ofSteps, visit, EStateM.run_bind, hrenewAt, henabled, hadmits, htriggerAt,
      if_true]
    exact hrun
  | case5 admitted rule rest catalogue renewed hrenew hadmitted ih =>
    obtain ⟨p, ps, rfl, hrule, hrest⟩ := List.map_eq_cons_iff.mp h
    obtain ⟨hp, hps⟩ := List.nodup_cons.mp hps
    have hrenewAt := run_renewAt hrule ε cs catalogue calls
    rw [hrenew] at hrenewAt
    rw [Rule.enabled_of_renew hrenew] at hadmitted
    obtain ⟨rules', calls', hrun, hreplaced⟩ := ih hps (Replaced.map_set hp hrest renewed)
      (calls ++ if rule.enabled then [.activate p catalogue] else [])
    refine ⟨rules', calls', ?_, .cons hp hrule hreplaced⟩
    simp only [Outcome.ofSteps, visit, EStateM.run_bind, hrenewAt]
    cases henabled : rule.enabled with
    | false =>
      rw [henabled] at hrun
      exact hrun
    | true =>
      rw [henabled, Bool.true_and] at hadmitted
      rw [henabled] at hrun
      simp only [if_true, if_neg hadmitted]
      exact hrun

theorem exists_of_ascending (ε : α) (cs : Combinators α) (admits : Nat → α → Bool)
    (rules : List (Rule α)) (catalogue : κ) :
    let run := Run.inOrder ε cs admits 0 rules catalogue
    ∃ calls, Outcome.ofSteps (visit ε cs admits 0 (List.range rules.length))
      ⟨rules, catalogue, []⟩ = ⟨⟨run.rules, run.catalogue, calls⟩, run.error⟩ := by
  obtain ⟨rules', calls, hrun, hreplaced⟩ := exists_of_visit ε cs admits 0 catalogue
    List.nodup_range (Replaced.map_range rules) []
  obtain rfl := hreplaced.eq_of_range
  exact ⟨calls, hrun⟩

/-- The loop may walk down the positions instead of up the reversed list. -/
theorem exists_of_descending (ε : α) (cs : Combinators α) (admits : Nat → α → Bool)
    (rules : List (Rule α)) (catalogue : κ) :
    let run := (Run.inOrder ε cs admits 0 rules.reverse catalogue).reverse
    ∃ calls, Outcome.ofSteps (visit ε cs admits 0 (List.range rules.length).reverse)
      ⟨rules, catalogue, []⟩ = ⟨⟨run.rules, run.catalogue, calls⟩, run.error⟩ := by
  have hpositions := congrArg List.reverse (Replaced.map_range rules)
  rw [← List.map_reverse, ← List.map_reverse] at hpositions
  have hnodup := (List.reverse_perm (List.range rules.length)).nodup_iff.mpr List.nodup_range
  obtain ⟨rules', calls, hrun, hreplaced⟩ := exists_of_visit ε cs admits 0 catalogue hnodup
    hpositions []
  obtain rfl := hreplaced.eq_of_reverse_range
  exact ⟨calls, hrun⟩

end Block.InPlace

end FuzzyInference
