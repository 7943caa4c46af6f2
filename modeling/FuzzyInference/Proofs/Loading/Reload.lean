import FuzzyInference.Proofs.Cycle.History
import FuzzyInference.Proofs.Loading.Causes

/-!
Loading all rules of an engine anew. Nothing that was loaded before matters: each rule is loaded
from its texts as if it had just been read, also where others fail. The error names the first block
with a rule that cannot be loaded, and all rules of that block that cannot.
-/
namespace FuzzyInference

variable {α κ : Type} [Scalar α]

namespace Rule

/-- The rule as if its texts had just been read. -/
def fresh (r : Rule α) : Rule α :=
  { ofText ⟨r.antecedent.text, r.consequent.text, r.weight⟩ with enabled := r.enabled }

theorem unload_eq_fresh (r : Rule α) : r.unload = r.fresh := rfl

variable [Catalogue κ α]

omit [Scalar α] in
/-- Why the rule cannot be loaded: the first of its clauses that cannot be parsed. -/
def failure? (catalogue : κ) (r : Rule α) : Option Error :=
  match Expression.parse (α := α) catalogue r.antecedent.text,
    Proposition.parseConclusions (α := α) catalogue r.consequent.text with
  | .error cause, _ => some cause
  | .ok _, .error cause => some cause
  | .ok _, .ok _ => none

omit [Scalar α] in
theorem isOfText_of_failure? {catalogue : κ} {r : Rule α} {cause : Error}
    (h : r.failure? catalogue = some cause) : cause.IsOfText := by
  unfold failure? at h
  split at h
  · next hparse =>
    cases h
    exact Expression.isOfText_of_parse hparse
  · next hparse =>
    cases h
    exact Proposition.isOfText_of_conclusionsFrom hparse
  · cases h

/-- The second rule holds what the texts of the first one stand for, if both can be parsed, and
nothing otherwise. -/
structure ReadsAs (catalogue : κ) (r r' : Rule α) : Prop where
  isLoaded_iff : r'.isLoaded = true ↔
    (∃ e, Expression.parse catalogue r.antecedent.text = .ok e) ∧
      ∃ ps, Proposition.parseConclusions catalogue r.consequent.text = .ok ps
  expression : r'.antecedent.expression =
    if r'.isLoaded then (Expression.parse catalogue r.antecedent.text).toOption else none
  conclusions : r'.consequent.conclusions =
    if r'.isLoaded then (Proposition.parseConclusions catalogue r.consequent.text).toOption
    else none
  degree : r'.degree = Scalar.zero
  triggered : r'.triggered = false
  failure : r'.isLoaded = true ↔ r.failure? catalogue = none

theorem load_fresh (catalogue : κ) (r : Rule α) :
    r.fresh.load catalogue =
      match Expression.parse (α := α) catalogue r.antecedent.text,
        Proposition.parseConclusions (α := α) catalogue r.consequent.text with
      | .ok e, .ok ps =>
        ⟨{ r.fresh with
            antecedent := ⟨r.antecedent.text, some e⟩
            consequent := ⟨r.consequent.text, some ps⟩ }, none⟩
      | _, _ => ⟨r.fresh, r.failure? catalogue⟩ := by
  have hantecedent : r.fresh.antecedent = { text := r.antecedent.text } := rfl
  have hconsequent : r.fresh.consequent = { text := r.consequent.text } := rfl
  simp only [load, resolve, Antecedent.load, Consequent.load, failure?, hantecedent, hconsequent]
  cases Expression.parse (α := α) catalogue r.antecedent.text with
  | error cause => rfl
  | ok e =>
    cases Proposition.parseConclusions (α := α) catalogue r.consequent.text with
    | error cause => rfl
    | ok ps => rfl

theorem error_load_fresh (catalogue : κ) (r : Rule α) :
    (r.fresh.load catalogue).error = r.failure? catalogue := by
  rw [load_fresh]
  split
  · next hexpression hconclusions => simp only [failure?, hexpression, hconclusions]
  · rfl

theorem readsAs_load_fresh (catalogue : κ) (r : Rule α) :
    r.ReadsAs catalogue (r.fresh.load catalogue).state := by
  rw [load_fresh]
  cases hexpression : Expression.parse (α := α) catalogue r.antecedent.text with
  | error cause =>
    constructor <;> simp [failure?, hexpression, fresh, ofText, isLoaded, Antecedent.isLoaded]
  | ok e =>
    cases hconclusions : Proposition.parseConclusions (α := α) catalogue r.consequent.text with
    | error cause =>
      constructor <;> simp [failure?, hexpression, hconclusions, fresh, ofText, isLoaded,
        Antecedent.isLoaded]
    | ok ps =>
      constructor <;> simp [failure?, hexpression, hconclusions, fresh, ofText, isLoaded,
        Antecedent.isLoaded, Consequent.isLoaded, Except.toOption]

end Rule

/-! ### Blocks -/

namespace Block

variable [NumberText α] [Catalogue κ α]

/-- The rules of a block that cannot be loaded, with their positions. -/
def failures (catalogue : κ) (b : Block α) : List RuleFailure :=
  b.rules.zipIdx.filterMap fun p => (p.1.failure? catalogue).map (⟨p.2, p.1.text, ·⟩)

theorem failuresFrom_map_load (catalogue : κ) (rules : List (Rule α)) (index : Nat) :
    failuresFrom index (rules.map fun r => r.fresh.load catalogue) =
      (rules.zipIdx index).filterMap fun p =>
        (p.1.failure? catalogue).map (⟨p.2, p.1.text, ·⟩) := by
  induction rules generalizing index with
  | nil => rfl
  | cons r rest ih =>
    have htext : (r.fresh.load catalogue).state.text = r.text := by
      rw [Rule.load_fresh]
      split <;> rfl
    rw [List.map_cons, failuresFrom, r.error_load_fresh catalogue, htext, ih, List.zipIdx_cons,
      List.filterMap_cons]
    cases r.failure? catalogue <;> simp only [Option.map_none, Option.map_some]

theorem failures_eq_nil_iff {catalogue : κ} {b : Block α} :
    b.failures catalogue = [] ↔ ∀ r ∈ b.rules, r.failure? catalogue = none := by
  simp only [failures, List.filterMap_eq_nil_iff, Option.map_eq_none_iff]
  constructor
  · intro h r hr
    obtain ⟨index, hindex⟩ := List.mem_iff_getElem?.mp hr
    exact h (r, index) (List.mem_zipIdx_iff_getElem?.mpr hindex)
  · intro h p hp
    exact h p.1 (List.mem_of_getElem? (List.mem_zipIdx_iff_getElem?.mp hp))

theorem shown_failures (catalogue : κ) (b : Block α) :
    (b.failures catalogue).Forall₂ RuleFailure.ShownBy
      (BlockError.rules b.name (b.failures catalogue)).messages := by
  refine RuleFailure.shownBy_messages b.name fun f hf => ?_
  obtain ⟨p, -, hfailure⟩ := List.mem_filterMap.mp hf
  obtain ⟨cause, hcause, rfl⟩ := Option.map_eq_some_iff.mp hfailure
  exact Rule.isOfText_of_failure? hcause

theorem reload_eq (catalogue : κ) (b : Block α) :
    b.reload catalogue =
      ⟨{ b with rules := b.rules.map fun r => (r.fresh.load catalogue).state },
        if b.failures catalogue = [] then none
        else some (.rules b.name (b.failures catalogue))⟩ := by
  have hloads : (b.rules.map Rule.unload).map (Rule.load catalogue) =
      b.rules.map fun r => r.fresh.load catalogue := by
    simp only [List.map_map, Function.comp_def, Rule.unload_eq_fresh]
  have hfailures : failuresFrom 0 (b.rules.map fun r => r.fresh.load catalogue) =
      b.failures catalogue := failuresFrom_map_load catalogue b.rules 0
  simp only [reload, unload, load, hloads, hfailures, List.map_map, Function.comp_def]
  cases b.failures catalogue <;> simp

end Block

/-! ### Engines -/

namespace Engine

variable [NumberText α]

theorem blocks_load (e : Engine α) :
    e.load.state = { e with blocks := e.blocks.map fun b =>
      { b with rules := b.rules.map fun r => (r.fresh.load e.vars).state } } := by
  simp only [load, List.map_map, Function.comp_def, Block.reload_eq]

theorem error_load (e : Engine α) : e.load.error = e.blocks.findSome? fun b =>
    if b.failures e.vars = [] then none else some (.rules b.name (b.failures e.vars)) := by
  simp only [load, List.findSome?_map, Function.comp_def, Block.reload_eq]

/-- Loading all rules anew reads every rule from its texts, whatever was loaded before and whatever
fails. It succeeds if all rules can be read; if not, the error names the first block with a rule
that cannot, and lists all such rules of that block with a message for each. -/
theorem load_eq_fresh (e : Engine α) :
    (e.load.state = { e with blocks := e.blocks.map fun b =>
        { b with rules := b.rules.map fun r => (r.fresh.load e.vars).state } }) ∧
      (∀ b ∈ e.blocks, ∀ r ∈ b.rules, r.ReadsAs e.vars (r.fresh.load e.vars).state) ∧
      (e.load.error = none ↔ ∀ b ∈ e.load.state.blocks, ∀ r ∈ b.rules, r.isLoaded = true) ∧
      (∀ error, e.load.error = some error ↔ ∃ before b after, e.blocks = before ++ b :: after ∧
        (∀ b' ∈ before, b'.failures e.vars = []) ∧ b.failures e.vars ≠ [] ∧
        error = .rules b.name (b.failures e.vars)) ∧
      (∀ b ∈ e.blocks, (b.failures e.vars).Forall₂ RuleFailure.ShownBy
        (BlockError.rules b.name (b.failures e.vars)).messages) := by
  refine ⟨e.blocks_load, fun b _ r _ => r.readsAs_load_fresh e.vars, ?_, fun error => ?_,
    fun b _ => b.shown_failures e.vars⟩
  · have hloaded : ∀ r : Rule α,
        (r.fresh.load e.vars).state.isLoaded = true ↔ r.failure? e.vars = none :=
      fun r => (r.readsAs_load_fresh e.vars).failure
    simp only [error_load, blocks_load, List.findSome?_eq_none_iff, List.forall_mem_map, hloaded,
      ite_eq_left_iff, reduceCtorEq, imp_false, Classical.not_not, Block.failures_eq_nil_iff]
  · rw [error_load, List.findSome?_eq_some_iff]
    simp only [ite_eq_left_iff, reduceCtorEq, imp_false, Classical.not_not]
    constructor
    · rintro ⟨before, b, after, hblocks, hb, hbefore⟩
      split at hb
      · cases hb
      · next hfailures =>
        exact ⟨before, b, after, hblocks, hbefore, hfailures, (Option.some.inj hb).symm⟩
    · rintro ⟨before, b, after, hblocks, hbefore, hfailures, rfl⟩
      exact ⟨before, b, after, hblocks, if_neg hfailures, hbefore⟩

/-- A fan after a cycle, whose second rule was loaded when there was a lamp. -/
def lampless : Engine Float where
  name := "fan"
  vars := usedFan.vars
  blocks := [{
    name := "speed"
    rules := [
      { fanRule with degree := 0.5, triggered := true },
      { fanRule with
        consequent := { fanRule.consequent with text := "lamp is bright" }
        degree := 0.5
        triggered := true }] }]

example :
    lampless.load.error =
        some (.rules "speed" [⟨1, "if heat is high then lamp is bright",
          .unresolved .variableName "lamp"⟩]) ∧
      lampless.load.state.blocks.map (·.rules.map fun r => (r.isLoaded, r.triggered)) =
        [[(true, false), (false, false)]] := by
  decide +kernel

end Engine

end FuzzyInference
