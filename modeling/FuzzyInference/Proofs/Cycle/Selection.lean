import FuzzyInference.Proofs.Cycle.Atomic

/-!
Selections that are made by degree. Where the degree of a rule tells whether the rule is triggered,
the rules that a cycle leaves are the renewed ones with the chosen ones marked, one by one and
whatever their positions are.
-/
namespace FuzzyInference

variable {α κ : Type} [Scalar α] {ε : α} {chosen : α → Bool}

/-! ### Rules that are chosen -/

namespace Rule

/-- The rule, triggered if it has something to conclude and its degree is chosen. -/
def marked (ε : α) (chosen : α → Bool) (r : Rule α) : Rule α :=
  if r.fires ε && chosen r.degree then { r with triggered := true } else r

theorem degree_marked (ε : α) (chosen : α → Bool) (r : Rule α) :
    (r.marked ε chosen).degree = r.degree := by
  unfold marked
  split <;> rfl

theorem triggered_marked (ε : α) (chosen : α → Bool) {r : Rule α} (h : r.triggered = false) :
    (r.marked ε chosen).triggered = (r.fires ε && chosen r.degree) := by
  unfold marked
  split
  · next hchosen => exact hchosen.symm
  · next hchosen => simpa [h] using hchosen

theorem marked_congr {chosen' : α → Bool} {r : Rule α}
    (h : r.fires ε = true → chosen r.degree = chosen' r.degree) :
    r.marked ε chosen = r.marked ε chosen' := by
  unfold marked
  by_cases hfires : r.fires ε = true
  · rw [h hfires]
  · simp [hfires]

end Rule

/-! ### Second phases -/

section SecondPhase

variable [NumberText α] [Catalogue κ α] {cs : Combinators α} {implication : Option (TNorm α)}
  {indices : List Nat} {rules renewed : List (Rule α)} {catalogue : κ}

namespace Run

omit [Scalar α] [NumberText α] [Catalogue κ α] in
theorem mem_degrees {index : Nat} {degree : α} :
    (index, degree) ∈ degrees rules ↔
      ∃ r, rules[index]? = some r ∧ r.enabled = true ∧ r.degree = degree := by
  simp only [degrees, List.mem_map, List.mem_filter, Prod.exists, List.mem_zipIdx_iff_getElem?,
    Prod.mk.injEq]
  constructor
  · rintro ⟨r, i, ⟨hr, henabled⟩, rfl, rfl⟩
    exact ⟨r, hr, henabled, rfl⟩
  · rintro ⟨r, hr, henabled, rfl⟩
    exact ⟨r, index, ⟨hr, henabled⟩, rfl, rfl⟩

/-- The second phase marks the rules at the selected positions that have something to conclude. -/
theorem getElem?_rules_triggerAt
    (h : (triggerAt ε implication indices rules catalogue).error = none) (index : Nat) :
    (triggerAt ε implication indices rules catalogue).rules[index]? =
      rules[index]?.map (Rule.marked ε fun _ => decide (index ∈ indices)) := by
  fun_induction triggerAt ε implication indices rules catalogue with
  | case1 rules catalogue =>
    have hunmarked : Rule.marked ε (fun _ => false) = id := by
      funext r
      simp [Rule.marked]
    simp [hunmarked]
  | case2 other rest rules catalogue hrule ih =>
    rw [ih h]
    by_cases hindex : index = other
    · simp [hindex, hrule]
    · simp [hindex]
  | case3 other rest rules catalogue rule hrule cause htrigger => cases h
  | case4 other rest rules catalogue rule hrule fired catalogue' htrigger ih =>
    rw [ih h]
    by_cases hindex : index = other
    · subst hindex
      have hlt := (List.getElem?_eq_some_iff.mp hrule).1
      rw [List.getElem?_set_self hlt, hrule]
      obtain ⟨-, ⟨hnot, rfl, -⟩ | ⟨hfires, rfl, -⟩⟩ := Rule.trigger_cases htrigger
      · simp [Rule.marked, hnot]
      · simp [Rule.marked, hfires]
    · rw [List.getElem?_set_ne (Ne.symm hindex)]
      simp [hindex]

/-- Where the degree tells whether the position of a rule is selected, it tells which rules end up
triggered. -/
theorem rules_triggerAt (h : (triggerAt ε implication indices rules catalogue).error = none)
    (hchosen : ∀ (i : Nat) (r : Rule α), rules[i]? = some r → r.fires ε = true →
      (i ∈ indices ↔ chosen r.degree = true)) :
    (triggerAt ε implication indices rules catalogue).rules = rules.map (Rule.marked ε chosen) := by
  refine List.ext_getElem? fun i => ?_
  rw [getElem?_rules_triggerAt h, List.getElem?_map]
  refine Option.map_congr fun r hr => Rule.marked_congr fun hfires => ?_
  have hiff := hchosen i r hr hfires
  by_cases hi : i ∈ indices
  · rw [hiff.mp hi, decide_eq_true hi]
  · have hnot := mt hiff.mpr hi
    simp [hi, hnot]

end Run

/-- A cycle in two phases ends as its first phase does. -/
theorem Activation.error_run_eq {activation : Activation α} (h : activation.IsTwoPhase) :
    (activation.run ε cs rules catalogue).error = (Run.renewAll ε cs catalogue rules).error := by
  cases herror : (activation.run ε cs rules catalogue).error with
  | none =>
    obtain ⟨renewed, hrenewed, -⟩ := exists_renewed_of_isTwoPhase h herror
    rw [hrenewed]
  | some cause => exact (failsAtomically_run h herror).1.symm

/-- Under a threshold, a rule is triggered if its degree is positive and compares with the value. -/
theorem Activation.run_threshold (comparison : Comparison) (value : α)
    (h : Run.renewAll ε cs catalogue rules = ⟨renewed, none⟩) :
    let marked := renewed.map (Rule.marked ε (comparison.holds ε · value))
    (threshold comparison value).run ε cs rules catalogue =
      ⟨marked, writeAll ε cs.implication (marked.filter Rule.triggered) catalogue, none⟩ := by
  intro marked
  let select (degrees : List (Nat × α)) :=
    (degrees.filter fun p => comparison.holds ε p.2 value).map Prod.fst
  have hselect : ∀ (i : Nat) (r : Rule α), renewed[i]? = some r → r.fires ε = true →
      (i ∈ select (Run.degrees renewed) ↔ comparison.holds ε r.degree value = true) := by
    intro i r hr hfires
    simp only [select, List.mem_map, List.mem_filter, Prod.exists, exists_and_right, exists_eq_right,
      Run.mem_degrees, hr, Option.some.injEq]
    constructor
    · rintro ⟨degree, ⟨r', rfl, -, rfl⟩, hholds⟩
      exact hholds
    · intro hholds
      simp only [Rule.fires, Bool.and_eq_true] at hfires
      exact ⟨r.degree, ⟨r, rfl, hfires.1, rfl⟩, hholds⟩
  have hsublist : (select (Run.degrees renewed)).Sublist (List.range renewed.length) :=
    (List.filter_sublist.map Prod.fst).trans (Run.degrees_sublist renewed)
  have herror := error_run_of_isTwoPhase (.threshold comparison value) (congrArg Outcome.error h)
  simp only [run, Run.twoPhase, h, id] at herror ⊢
  have hrules : _ = marked := Run.rules_triggerAt herror hselect
  have hcatalogue := Run.catalogue_of_sublist hsublist (Run.triggered_of_renewAll h) herror
  rw [hrules] at hcatalogue
  rw [← hcatalogue, ← hrules, ← herror]

end SecondPhase

end FuzzyInference
