import FuzzyInference.Proofs.Cycle.History

/-!
Where a cycle stops. An error ends it at a rule which cannot be renewed, since a rule that has been
renewed can be triggered. The rules before that one are left as the cycle leaves them, whatever they
were marked with, and those after it as they were.
-/
namespace FuzzyInference

variable {α κ : Type} [Scalar α]

/-! ### Runs -/

section Runs

variable [NumberText α] [Catalogue κ α] {ε : α} {cs : Combinators α}
  {implication : Option (TNorm α)} {catalogue : κ}

/-- Under the strategy the rule at the first position comes before the one at the second. -/
def Activation.Precedes (position later : Nat) : Activation α → Prop
  | last _ _ => later < position
  | _ => position < later

/-- A loaded rule can be triggered. -/
theorem Rule.ne_error_of_isLoaded {r : Rule α} (h : r.isLoaded = true) {cause : Error} :
    r.trigger ε implication catalogue ≠ .error cause := by
  rw [trigger_of_isLoaded ε implication catalogue h]
  exact nofun

namespace Run

/-- The run stops at one of the rules, which cannot be renewed. It leaves the rules that come after
this one as they were, and the others as the second run leaves them. -/
def Stops (ε : α) (cs : Combinators α) (precedes : Nat → Nat → Prop) (rules : List (Rule α))
    (cause : Error) (run run' : Run κ α) : Prop :=
  ∃ position rule, rules[position]? = some rule ∧
    rule.renew ε cs run.catalogue = .error cause ∧
    ∀ j : Nat, run.rules[j]? = run'.rules[j]? ∨ (run.rules[j]? = rules[j]? ∧ precedes position j)

theorem Stops.here {rule : Rule α} {cause : Error}
    (hrenew : rule.renew ε cs catalogue = .error cause) (rest rest' : List (Rule α))
    (error error' : Option Error) :
    Stops ε cs (· < ·) (rule :: rest) cause ⟨rule.deactivate :: rest, catalogue, error⟩
      ⟨rule.deactivate :: rest', catalogue, error'⟩ := by
  refine ⟨0, rule, rfl, hrenew, fun j => ?_⟩
  cases j with
  | zero => exact Or.inl rfl
  | succ j => exact Or.inr ⟨rfl, Nat.succ_pos j⟩

theorem Stops.cons {rules : List (Rule α)} {cause : Error} {run run' : Run κ α}
    (h : Stops ε cs (· < ·) rules cause run run') (rule done : Rule α) :
    Stops ε cs (· < ·) (rule :: rules) cause (run.cons done) (run'.cons done) := by
  obtain ⟨position, failed, hfailed, hrenew, hposition⟩ := h
  refine ⟨position + 1, failed, hfailed, hrenew, fun j => ?_⟩
  cases j with
  | zero => exact Or.inl rfl
  | succ j =>
    obtain halike | ⟨hkept, hlater⟩ := hposition j
    · exact Or.inl halike
    · exact Or.inr ⟨hkept, Nat.succ_lt_succ hlater⟩

theorem Stops.reverse {rules : List (Rule α)} {cause : Error} {run run' : Run κ α}
    (h : Stops ε cs (· < ·) rules.reverse cause run run')
    (hlength : run.rules.length = rules.length) (hlength' : run'.rules.length = rules.length) :
    Stops ε cs (fun position later => later < position) rules cause run.reverse run'.reverse := by
  obtain ⟨position, failed, hfailed, hrenew, hposition⟩ := h
  have hlt : position < rules.length := by
    simpa using (List.getElem?_eq_some_iff.mp hfailed).1
  rw [List.getElem?_reverse hlt] at hfailed
  refine ⟨_, failed, hfailed, hrenew, fun j => ?_⟩
  by_cases hj : j < rules.length
  · have hmirror : rules.length - 1 - j < rules.length := by omega
    have hback : rules.length - 1 - (rules.length - 1 - j) = j := by omega
    have hmirrored := hposition (rules.length - 1 - j)
    rw [List.getElem?_reverse hmirror, hback] at hmirrored
    simp only [Run.reverse]
    rw [List.getElem?_reverse (by omega), List.getElem?_reverse (by omega), hlength, hlength']
    obtain halike | ⟨hkept, hlater⟩ := hmirrored
    · exact Or.inl halike
    · exact Or.inr ⟨hkept, by omega⟩
  · left
    simp only [Run.reverse]
    rw [List.getElem?_eq_none (by simp; omega), List.getElem?_eq_none (by simp; omega)]

theorem stops_inOrder {admits : Nat → α → Bool} {admitted : Nat} {rules : List (Rule α)}
    {cause : Error} (h : (inOrder ε cs admits admitted rules catalogue).error = some cause) :
    Stops ε cs (· < ·) rules cause (inOrder ε cs admits admitted rules catalogue)
      (inOrder ε cs admits admitted (rules.map Rule.deactivate) catalogue) := by
  fun_induction inOrder ε cs admits admitted rules catalogue with
  | case1 admitted catalogue => cases h
  | case2 admitted rule rest catalogue failure hrenew =>
    cases h
    simp only [List.map_cons, inOrder, Rule.renew_deactivate, hrenew]
    exact .here hrenew rest _ _ _
  | case3 admitted rule rest catalogue renewed hrenew hadmitted failure htrigger =>
    have hloaded := Rule.isLoaded_of_renew hrenew (Bool.and_eq_true_iff.mp hadmitted).1
    exact absurd htrigger (Rule.ne_error_of_isLoaded hloaded)
  | case4 admitted rule rest catalogue renewed hrenew hadmitted fired catalogue' htrigger ih =>
    simp only [List.map_cons, inOrder, Rule.renew_deactivate, hrenew, hadmitted, htrigger, if_true]
    exact (ih h).cons rule fired
  | case5 admitted rule rest catalogue renewed hrenew hadmitted ih =>
    simp only [List.map_cons, inOrder, Rule.renew_deactivate, hrenew, if_neg hadmitted]
    exact (ih h).cons rule renewed

theorem stops_renewAll {rules : List (Rule α)} {cause : Error}
    (h : (renewAll ε cs catalogue rules).error = some cause) :
    Stops ε cs (· < ·) rules cause
      ⟨(renewAll ε cs catalogue rules).state, catalogue, some cause⟩
      ⟨(renewAll ε cs catalogue (rules.map Rule.deactivate)).state, catalogue, some cause⟩ := by
  fun_induction renewAll ε cs catalogue rules with
  | case1 => cases h
  | case2 rule rest failure hrenew =>
    cases h
    simp only [List.map_cons, renewAll, Rule.renew_deactivate, hrenew]
    exact .here hrenew rest _ _ _
  | case3 rule rest renewed hrenew ih =>
    simp only [List.map_cons, renewAll, Rule.renew_deactivate, hrenew]
    exact (ih h).cons rule renewed

/-- Loaded rules can be triggered at any positions. -/
theorem error_triggerAt {indices : List Nat} {rules : List (Rule α)}
    (h : ∀ index ∈ indices, ∀ r ∈ rules[index]?, r.isLoaded = true) :
    (triggerAt ε implication indices rules catalogue).error = none := by
  fun_induction triggerAt ε implication indices rules catalogue with
  | case1 rules catalogue => rfl
  | case2 index rest rules catalogue hrule ih =>
    exact ih fun i hi => h i (List.mem_cons_of_mem _ hi)
  | case3 index rest rules catalogue rule hrule cause htrigger =>
    exact absurd htrigger (Rule.ne_error_of_isLoaded (h index (List.mem_cons_self ..) rule hrule))
  | case4 index rest rules catalogue rule hrule fired catalogue' htrigger ih =>
    have hloaded := h index (List.mem_cons_self ..) rule hrule
    have hfired : fired.isLoaded = true := by
      rw [← Rule.isLoaded_deactivate, Rule.deactivate_of_trigger htrigger]
      exact hloaded
    refine ih fun i hi r hr => ?_
    rw [Option.mem_def, List.getElem?_set] at hr
    split at hr
    · split at hr <;> cases hr
      exact hfired
    · exact h i (List.mem_cons_of_mem _ hi) r hr

omit [Scalar α] [NumberText α] [Catalogue κ α] in
theorem exists_of_mem_degrees {rules : List (Rule α)} {index : Nat}
    (h : index ∈ (degrees rules).map Prod.fst) :
    ∃ r, rules[index]? = some r ∧ r.enabled = true := by
  obtain ⟨p, hp, rfl⟩ := List.mem_map.mp h
  obtain ⟨⟨r, i⟩, hr, rfl⟩ := List.mem_map.mp hp
  obtain ⟨hr, henabled⟩ := List.mem_filter.mp hr
  exact ⟨r, List.mem_zipIdx_iff_getElem?.mp hr, henabled⟩

omit [NumberText α] [Catalogue κ α] in
theorem ranked_subset (ε : α) (before : α → α → Bool) (count : Nat) (degrees : List (Nat × α)) :
    ranked ε before count degrees ⊆ degrees.map Prod.fst := by
  refine List.map_subset _ fun p hp => ?_
  exact (List.mem_filter.mp (List.mem_mergeSort.mp (List.mem_of_mem_take hp))).1

/-- Only a renewal can end a run in two phases: what is triggered then is loaded. -/
theorem error_renewAll_of_twoPhase {adjust : List (Rule α) → List (Rule α)}
    (hadjust : ∀ rules, (adjust rules).map Rule.deactivate = rules.map Rule.deactivate)
    {select : List (Nat × α) → List Nat}
    (hselect : ∀ degrees, select degrees ⊆ degrees.map Prod.fst) {rules : List (Rule α)}
    {cause : Error} (h : (twoPhase ε cs adjust select rules catalogue).error = some cause) :
    (renewAll ε cs catalogue rules).error = some cause := by
  cases hrenew : renewAll ε cs catalogue rules with
  | mk renewed error =>
    cases error with
    | some failure => simpa only [twoPhase, hrenew] using h
    | none =>
      simp only [twoPhase, hrenew] at h
      rw [error_triggerAt] at h
      · cases h
      · intro index hindex r hr
        obtain ⟨s, hs, henabled⟩ := exists_of_mem_degrees (hselect _ hindex)
        obtain ⟨before, -, hbefore⟩ :=
          exists_renew_of_renewAll hrenew s (List.mem_of_getElem? hs)
        have hposition := congrArg (·[index]?) (hadjust renewed)
        simp only [List.getElem?_map, Option.mem_def.mp hr, hs, Option.map_some,
          Option.some.injEq] at hposition
        rw [← Rule.isLoaded_deactivate, hposition, Rule.isLoaded_deactivate]
        exact Rule.isLoaded_of_renew hbefore henabled

theorem stops_twoPhase {adjust : List (Rule α) → List (Rule α)}
    (hadjust : ∀ rules, (adjust rules).map Rule.deactivate = rules.map Rule.deactivate)
    {select : List (Nat × α) → List Nat}
    (hselect : ∀ degrees, select degrees ⊆ degrees.map Prod.fst) {rules : List (Rule α)}
    {cause : Error} (h : (twoPhase ε cs adjust select rules catalogue).error = some cause) :
    Stops ε cs (· < ·) rules cause (twoPhase ε cs adjust select rules catalogue)
      (twoPhase ε cs adjust select (rules.map Rule.deactivate) catalogue) := by
  have hrenew := error_renewAll_of_twoPhase hadjust hselect h
  have hclean := (renewAll_deactivate ε cs catalogue rules).1.trans hrenew
  have hstops := stops_renewAll hrenew
  unfold twoPhase
  split
  · next heq =>
    rw [heq] at hrenew hstops
    split
    · next heq' =>
      rw [heq'] at hstops
      exact hstops
    · next heq' =>
      rw [heq'] at hclean
      cases hclean
  · next heq =>
    rw [heq] at hrenew
    cases hrenew

end Run

/-- A run that ends with an error has stopped at a rule which cannot be renewed, and has left the
rules that come after it under the strategy. -/
theorem Activation.stops_run {activation : Activation α} {rules : List (Rule α)} {cause : Error}
    (h : (activation.run ε cs rules catalogue).error = some cause) :
    Run.Stops ε cs (activation.Precedes · ·) rules cause (activation.run ε cs rules catalogue)
      (activation.run ε cs (rules.map Rule.deactivate) catalogue) := by
  have hid : ∀ rules : List (Rule α), (id rules).map Rule.deactivate = rules.map Rule.deactivate :=
    fun _ => rfl
  cases activation with
  | general => exact Run.stops_inOrder h
  | first count bound => exact Run.stops_inOrder h
  | last count bound =>
    have hlength := congrArg List.length
      (Run.over_inOrder ε cs (Run.reaches ε count bound) 0 rules.reverse catalogue).rules
    have hlength' := congrArg List.length (Run.over_inOrder ε cs (Run.reaches ε count bound) 0
      (rules.map Rule.deactivate).reverse catalogue).rules
    have herror : (Run.inOrder ε cs (Run.reaches ε count bound) 0 rules.reverse
        catalogue).error = some cause := h
    have hstops := Run.stops_inOrder herror
    rw [List.map_reverse] at hstops
    exact hstops.reverse (by simpa using hlength) (by simpa using hlength')
  | highest count => exact Run.stops_twoPhase hid (Run.ranked_subset ε _ count) h
  | lowest count => exact Run.stops_twoPhase hid (Run.ranked_subset ε _ count) h
  | threshold comparison value =>
    unfold Activation.run at h ⊢
    exact Run.stops_twoPhase hid (fun _ => List.map_subset _ List.filter_sublist.subset) h
  | proportional =>
    exact Run.stops_twoPhase (Run.deactivate_share ε) (fun _ => List.Subset.refl _) h

end Runs

/-! ### Blocks -/

/-- Under the strategy of the block the rule at the first position comes before the one at the
second. -/
def Block.Precedes (position later : Nat) (b : Block α) : Prop :=
  (b.activation.getD .general).Precedes position later

variable [NumberText α]

/-- A block that ends with an error has stopped at one of its rules. -/
theorem Block.stops_run {b : Block α} {ε : α} {vs : Variables α} {cause : Error}
    (h : (b.run ε vs).error = some cause) :
    b.enabled = true ∧ ∃ position rule, b.rules[position]? = some rule ∧
      rule.renew ε b.combinators (b.run ε vs).state.2 = .error cause ∧
      ∀ j : Nat, (b.run ε vs).state.1.rules[j]? = (b.deactivate.run ε vs).state.1.rules[j]? ∨
        ((b.run ε vs).state.1.rules[j]? = b.rules[j]? ∧ b.Precedes position j) := by
  cases henabled : b.enabled with
  | false =>
    rw [Block.run_of_disabled henabled] at h
    cases h
  | true =>
    rw [Block.run_of_enabled henabled] at h ⊢
    have hclean : b.deactivate.enabled = true := henabled
    rw [Block.run_of_enabled hclean]
    exact ⟨rfl, Activation.stops_run h⟩

/-! ### Engines -/

namespace Engine

/-- The rule at a position of a block. -/
def ruleAt? (blocks : List (Block α)) (i j : Nat) : Option (Rule α) :=
  blocks[i]?.bind fun b => b.rules[j]?

/-- A run of blocks that leaves variables and an error does not reach the rule at a position. -/
inductive Unreached (ε : α) (blocks : List (Block α)) (vars : Variables α) (error : Option Error)
    (i j : Nat) : Prop
  | disabled {b : Block α} (hb : blocks[i]? = some b) (hdisabled : b.enabled = false)
  /-- It has stopped at a rule in an earlier block, or earlier in the same one. -/
  | stopped {k position : Nat} {b : Block α} {rule : Rule α} {cause : Error}
    (hb : blocks[k]? = some b) (henabled : b.enabled = true)
    (hrule : b.rules[position]? = some rule) (herror : error = some cause)
    (hrenew : rule.renew ε b.combinators vars = .error cause)
    (hearlier : k < i ∨ (k = i ∧ b.Precedes position j))

theorem Unreached.cons {ε : α} {blocks : List (Block α)} {vars : Variables α}
    {error : Option Error} {i j : Nat} (h : Unreached ε blocks vars error i j) (b : Block α) :
    Unreached ε (b :: blocks) vars error (i + 1) j := by
  cases h with
  | disabled hb hdisabled => exact .disabled (i := i + 1) hb hdisabled
  | @stopped k position failed rule cause hb henabled hrule herror hrenew hearlier =>
    have hb' : (b :: blocks)[k + 1]? = some failed := hb
    exact .stopped hb' henabled hrule herror hrenew
      (hearlier.imp Nat.succ_lt_succ (And.imp_left (congrArg (· + 1))))

/-- At every position a run leaves the rule that it leaves there if no rule was marked before, or it
does not reach the rule and leaves it as it was. -/
theorem ruleAt?_runBlocks (ε : α) (blocks : List (Block α)) (vars : Variables α) (i j : Nat) :
    ruleAt? (runBlocks ε blocks vars).state.1 i j =
        ruleAt? (runBlocks ε (blocks.map Block.deactivate) vars).state.1 i j ∨
      (ruleAt? (runBlocks ε blocks vars).state.1 i j = ruleAt? blocks i j ∧
        Unreached ε blocks (runBlocks ε blocks vars).state.2 (runBlocks ε blocks vars).error
          i j) := by
  induction blocks generalizing vars i with
  | nil => exact Or.inl rfl
  | cons b rest ih =>
    obtain ⟨herror, hvars, hclean⟩ := b.run_deactivate ε vars
    cases hrun : (b.run ε vars).error with
    | some cause =>
      obtain ⟨henabled, position, rule, hrule, hrenew, hposition⟩ := Block.stops_run hrun
      have hb : (b :: rest)[0]? = some b := rfl
      rw [List.map_cons, runBlocks_cons_of_error hrun, runBlocks_cons_of_error (herror.trans hrun)]
      cases i with
      | zero =>
        obtain halike | ⟨hkept, hearlier⟩ := hposition j
        · exact Or.inl halike
        · exact Or.inr ⟨hkept, .stopped hb henabled hrule rfl hrenew (Or.inr ⟨rfl, hearlier⟩)⟩
      | succ i => exact Or.inr ⟨rfl, .stopped hb henabled hrule rfl hrenew (Or.inl i.succ_pos)⟩
    | none =>
      rw [List.map_cons, runBlocks_cons_of_none hrun,
        runBlocks_cons_of_none (herror.trans hrun), hvars]
      cases i with
      | zero =>
        cases henabled : b.enabled with
        | true =>
          have hsame := hclean hrun henabled
          exact Or.inl (congrArg (fun b' : Block α => b'.rules[j]?) hsame).symm
        | false =>
          refine Or.inr ⟨?_, .disabled rfl henabled⟩
          rw [Block.run_of_disabled henabled]
          rfl
      | succ i =>
        obtain halike | ⟨hkept, hunreached⟩ := ih (b.run ε vars).state.2 i
        · exact Or.inl halike
        · exact Or.inr ⟨hkept, hunreached.cons b⟩

end Engine

end FuzzyInference
