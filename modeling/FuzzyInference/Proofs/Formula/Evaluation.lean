import FuzzyInference.Hedge
import FuzzyInference.Norm
import FuzzyInference.Proofs.Formula.Placement

/-!
Evaluating a formula that was read. Every element of its tree has just the operands that it takes,
so the only thing that can be missing is the value of a variable. Which variables lack one is known
before the evaluation, and norms and hedges are made of a formula only if none does: they always
have the value of their formula.
-/
namespace FuzzyInference

open Infix

variable {α : Type}

theorem Ordered.mem_insert_id {x k : String} {xs : List String} :
    k ∈ Ordered.insert id x xs ↔ k = x ∨ k ∈ xs := by
  induction xs with
  | nil => simp [Ordered.insert]
  | cons y rest ih =>
    simp only [Ordered.insert, id]
    split
    · simp
    · split
      · next hxy => simp [hxy]
      · rw [List.mem_cons, ih, List.mem_cons, or_left_comm]

namespace Formula

namespace Node

/-- Every element has as many operands as it takes. -/
def IsSaturated : Node α → Prop
  | constant _ => True
  | .var _ => True
  | unary element operand => element.arity = 1 ∧ operand.IsSaturated
  | binary element left right => element.arity = 2 ∧ left.IsSaturated ∧ right.IsSaturated

/-- The value of a tree whose variables have the given values. -/
inductive HasValue (ε : α) (value? : String → Option α) : Node α → α → Prop
  | constant (x : α) : HasValue ε value? (.constant x) x
  | var {name : String} {x : α} (h : value? name = some x) : HasValue ε value? (.var name) x
  | unary {element : Element α} {apply : α → α → α} {operand : Node α} {x : α}
      (hmethod : element.method = .unary apply) (h : HasValue ε value? operand x) :
      HasValue ε value? (.unary element operand) (apply ε x)
  | binary {element : Element α} {apply : α → α → α → α} {left right : Node α} {x y : α}
      (hmethod : element.method = .binary apply) (h : HasValue ε value? left x)
      (h' : HasValue ε value? right y) :
      HasValue ε value? (.binary element left right) (apply ε x y)

theorem mem_names {x : Node α} {name : String} : name ∈ x.names ↔ name ∈ x.vars := by
  unfold names
  induction x.vars with
  | nil => rfl
  | cons other rest ih => rw [List.foldr_cons, Ordered.mem_insert_id, ih, List.mem_cons]

/-! ### Values -/

variable {ε : α} {value? : String → Option α}

theorem HasValue.evaluate {x : Node α} {value : α} (h : x.HasValue ε value? value) :
    x.evaluate ε value? = .ok value := by
  induction h with
  | constant x => rfl
  | var h => simp [Node.evaluate, h]
  | unary hmethod _ ih =>
    simp only [Node.evaluate, ih, Element.evaluate, hmethod]
    rfl
  | binary hmethod _ _ ih ih' =>
    simp only [Node.evaluate, ih, ih', Element.evaluate, hmethod]
    rfl

/-- A saturated tree has a value if all its variables have one. -/
theorem IsSaturated.exists_hasValue {x : Node α} (h : x.IsSaturated)
    (hbound : ∀ name ∈ x.vars, value? name ≠ none) :
    ∃ value, x.HasValue ε value? value := by
  induction x with
  | constant value => exact ⟨value, .constant value⟩
  | var name =>
    obtain ⟨value, hvalue⟩ := Option.ne_none_iff_exists'.mp (hbound name List.mem_cons_self)
    exact ⟨value, .var hvalue⟩
  | unary element operand ih =>
    obtain ⟨harity, hoperand⟩ := h
    obtain ⟨x, hx⟩ := ih hoperand hbound
    unfold Element.arity at harity
    cases hmethod : element.method with
    | unary apply => exact ⟨_, .unary hmethod hx⟩
    | binary apply => simp [hmethod, Method.arity] at harity
  | binary element left right ihl ihr =>
    obtain ⟨harity, hleft, hright⟩ := h
    simp only [vars, List.forall_mem_append] at hbound
    obtain ⟨x, hx⟩ := ihl hleft hbound.1
    obtain ⟨y, hy⟩ := ihr hright hbound.2
    unfold Element.arity at harity
    cases hmethod : element.method with
    | unary apply => simp [hmethod, Method.arity] at harity
    | binary apply => exact ⟨_, .binary hmethod hx hy⟩

/-- The first variable without a value is the error of the evaluation. -/
theorem IsSaturated.evaluate_of_find? {x : Node α} (h : x.IsSaturated) {name : String}
    (hfind : x.vars.find? (fun name => (value? name).isNone) = some name) :
    x.evaluate ε value? = .error (.unresolved .variableName name) := by
  induction x with
  | constant value => cases hfind
  | var other =>
    have hnone := List.find?_some hfind
    obtain rfl := List.mem_singleton.mp (List.mem_of_find?_eq_some hfind)
    simp [Node.evaluate, Option.isNone_iff_eq_none.mp hnone]
  | unary element operand ih =>
    rw [Node.evaluate, ih h.2 hfind]
    rfl
  | binary element left right ihl ihr =>
    obtain ⟨-, hleft, hright⟩ := h
    rw [vars, List.find?_append, Option.or_eq_some_iff] at hfind
    rcases hfind with hfind | ⟨hnone, hfind⟩
    · rw [Node.evaluate, ihl hleft hfind]
      rfl
    · obtain ⟨x, hx⟩ := hleft.exists_hasValue (ε := ε) (by simpa using hnone)
      rw [Node.evaluate, hx.evaluate, ihr hright hfind]
      rfl

/-- The evaluation of a saturated tree fails exactly for a variable without a value. -/
theorem IsSaturated.evaluate_eq_error_iff {x : Node α} (h : x.IsSaturated) {cause : Error} :
    x.evaluate ε value? = .error cause ↔ ∃ name,
      x.vars.find? (fun name => (value? name).isNone) = some name ∧
        cause = .unresolved .variableName name := by
  constructor
  · intro herror
    cases hfind : x.vars.find? (fun name => (value? name).isNone) with
    | none =>
      obtain ⟨value, hvalue⟩ := h.exists_hasValue (ε := ε) (by simpa using hfind)
      rw [hvalue.evaluate] at herror
      cases herror
    | some name =>
      rw [h.evaluate_of_find? hfind] at herror
      exact ⟨name, rfl, (Except.error.inj herror).symm⟩
  · rintro ⟨name, hfind, rfl⟩
    exact h.evaluate_of_find? hfind

theorem IsSaturated.exists_evaluate_iff {x : Node α} (h : x.IsSaturated) :
    (∃ value, x.evaluate ε value? = .ok value) ↔ ∀ name ∈ x.vars, value? name ≠ none := by
  constructor
  · rintro ⟨value, hvalue⟩
    cases hfind : x.vars.find? (fun name => (value? name).isNone) with
    | none => simpa using hfind
    | some name =>
      rw [h.evaluate_of_find? hfind] at hvalue
      cases hvalue
  · intro hbound
    obtain ⟨value, hvalue⟩ := h.exists_hasValue (ε := ε) hbound
    exact ⟨value, hvalue.evaluate⟩

theorem IsSaturated.evaluate_eq_ok_iff {x : Node α} (h : x.IsSaturated) {value : α} :
    x.evaluate ε value? = .ok value ↔ x.HasValue ε value? value := by
  refine ⟨fun heval => ?_, HasValue.evaluate⟩
  obtain ⟨other, hother⟩ := h.exists_hasValue (h.exists_evaluate_iff.mp ⟨value, heval⟩)
  obtain rfl : other = value := Except.ok.inj (hother.evaluate.symm.trans heval)
  exact hother

end Node

/-! ### Trees of texts -/

section Trees

variable [NumberText α]

theorem isSaturated_of_leaf {word : String} {x : Node α} (h : leaf word = .ok x) :
    x.IsSaturated := by
  unfold leaf at h
  split at h
  · split at h <;> cases h
    trivial
  · cases h
    trivial

theorem isSaturated_of_pushItem {trees trees' : List (Node α)} {item : Item (Element α)}
    (h : pushItem trees item = .ok trees') (htrees : ∀ x ∈ trees, x.IsSaturated) :
    ∀ x ∈ trees', x.IsSaturated := by
  cases item with
  | operand word =>
    obtain ⟨x, hleaf, rfl⟩ := exists_of_pushItem_operand h
    exact List.forall_mem_cons.mpr ⟨isSaturated_of_leaf hleaf, htrees⟩
  | symbol element =>
    obtain ⟨operand, rest, harity, rfl, rfl⟩ | ⟨left, right, rest, harity, rfl, rfl⟩ :=
      exists_of_pushItem_symbol h
    · obtain ⟨hoperand, hrest⟩ := List.forall_mem_cons.mp htrees
      exact List.forall_mem_cons.mpr ⟨⟨harity, hoperand⟩, hrest⟩
    · obtain ⟨hright, hleft, hrest⟩ := by simpa only [List.forall_mem_cons] using htrees
      exact List.forall_mem_cons.mpr ⟨⟨harity, hleft, hright⟩, hrest⟩

theorem isSaturated_of_foldlM_pushItem {trees trees' : List (Node α)}
    {items : List (Item (Element α))} (h : items.foldlM pushItem trees = .ok trees')
    (htrees : ∀ x ∈ trees, x.IsSaturated) : ∀ x ∈ trees', x.IsSaturated := by
  induction items generalizing trees with
  | nil =>
    cases h
    exact htrees
  | cons item items ih =>
    rw [List.foldlM_cons] at h
    obtain ⟨next, hpush, hrest⟩ := exists_of_bind_eq_ok h
    exact ih hrest (isSaturated_of_pushItem hpush htrees)

theorem isSaturated_of_parseWith {v : Vocabulary α} {text : String} {f : Formula α}
    (h : parseWith v text = .ok f) : f.root.IsSaturated := by
  obtain ⟨toks, items, -, -, htrees⟩ := tree_eq_ok_iff.mp (tree_of_parseWith h)
  exact isSaturated_of_foldlM_pushItem htrees (List.forall_mem_nil _) _ List.mem_cons_self

end Trees

/-! ### Values of variables -/

/-- Gives variables values that stay with the formula, one after another. -/
def setVariables (f : Formula α) (residents : List (String × α)) : Formula α :=
  residents.foldl (fun f resident => f.setVariable resident.1 resident.2) f

theorem root_setVariables (f : Formula α) (residents : List (String × α)) :
    (f.setVariables residents).root = f.root := by
  induction residents generalizing f with
  | nil => rfl
  | cons resident residents ih => exact ih (f.setVariable resident.1 resident.2)

/-- Of the values that a variable is given the last one stays. -/
theorem value?_setVariables (f : Formula α) (residents : List (String × α)) (name : String) :
    (f.setVariables residents).value? name =
      (residents.reverse.lookup name).or (f.value? name) := by
  induction residents generalizing f with
  | nil => rfl
  | cons resident residents ih =>
    obtain ⟨key, value⟩ := resident
    have hvalue : (f.setVariable key value).value? name =
        if name = key then some value else f.value? name := by
      simp only [value?, setVariable, Ordered.get?_insert]
      split <;> rfl
    rw [setVariables, List.foldl_cons, ← setVariables, ih, hvalue, List.reverse_cons,
      List.lookup_append, Option.or_assoc]
    by_cases hname : name = key
    · simp [hname]
    · have hne : (name == key) = false := by simpa using hname
      simp [List.lookup_cons, hname, hne]

theorem isNone_lookup {values : List (String × α)} {name : String} :
    (values.lookup name).isNone = true ↔ name ∉ values.map Prod.fst := by
  rw [Option.isNone_iff_eq_none, List.lookup_eq_none_iff]
  simp only [List.mem_map, not_exists, not_and, bne_iff_ne, ne_comm]

/-- The value of a variable in an evaluation: the first one that it is given for this evaluation,
and else the last one that stays with the formula. -/
def valueOf? (residents bindings : List (String × α)) (name : String) : Option α :=
  (bindings.lookup name).or (residents.reverse.lookup name)

theorem isNone_valueOf? {residents bindings : List (String × α)} {name : String} :
    (valueOf? residents bindings name).isNone = true ↔
      name ∉ bindings.map Prod.fst ∧ name ∉ residents.map Prod.fst := by
  rw [valueOf?, Option.isNone_or, Bool.and_eq_true, isNone_lookup, isNone_lookup, List.map_reverse,
    List.mem_reverse]

/-! ### Formulas that were read -/

section Read

variable [NumberText α] {v : Vocabulary α} {text : String} {f : Formula α}

theorem value?_eq_none (h : parseWith v text = .ok f) (name : String) : f.value? name = none := by
  obtain ⟨x, hx, rfl⟩ := exists_of_map_eq_ok h
  rfl

theorem evaluate_setVariables (h : parseWith v text = .ok f) (residents : List (String × α))
    (ε : α) (bindings : List (String × α)) :
    (f.setVariables residents).evaluate ε bindings =
      f.root.evaluate ε (valueOf? residents bindings) := by
  have hvalue : (fun name => (bindings.lookup name).or ((f.setVariables residents).value? name)) =
      valueOf? residents bindings := by
    funext name
    rw [value?_setVariables, value?_eq_none h, Option.or_none, valueOf?]
  rw [evaluate, root_setVariables, hvalue]

/-- No variable is missing exactly if the evaluation has a value. -/
theorem unboundVariables_eq_nil_iff (h : parseWith v text = .ok f)
    (residents : List (String × α)) (ε : α) {names : List String} {bindings : List (String × α)}
    (hnames : ∀ name, name ∈ names ↔ name ∈ bindings.map Prod.fst) :
    (f.setVariables residents).unboundVariables names = [] ↔
      ∃ x, (f.setVariables residents).evaluate ε bindings = .ok x := by
  rw [evaluate_setVariables h, (isSaturated_of_parseWith h).exists_evaluate_iff, unboundVariables,
    List.filter_eq_nil_iff, root_setVariables]
  refine forall_congr' fun name => imp_congr Node.mem_names (not_congr ?_)
  rw [decide_eq_true_eq, hnames name, ← Option.isNone_iff_eq_none, isNone_valueOf?,
    value?_setVariables, value?_eq_none h, Option.or_none, isNone_lookup, List.map_reverse,
    List.mem_reverse]

/-- A norm that was made of the formula has its value. -/
theorem compute_of_ofFormula (h : parseWith v text = .ok f) [Scalar α]
    {residents : List (String × α)} {norm : NormFormula α}
    (hnorm : NormFormula.ofFormula (f.setVariables residents) = .ok norm) (ε a b : α) :
    (f.setVariables residents).evaluate ε [("a", a), ("b", b)] = .ok (norm.compute ε a b) := by
  unfold NormFormula.ofFormula at hnorm
  split at hnorm <;> cases hnorm
  next hunbound =>
  have hnames : ∀ name, name ∈ ["a", "b"] ↔ name ∈ [("a", a), ("b", b)].map Prod.fst :=
    fun _ => Iff.rfl
  obtain ⟨x, hx⟩ := (unboundVariables_eq_nil_iff h residents ε hnames).mp hunbound
  rw [NormFormula.compute, hx]

/-- A hedge that was made of the formula has its value. -/
theorem apply_of_ofFormula (h : parseWith v text = .ok f) [Scalar α]
    {residents : List (String × α)} {name : String} {hedge : Hedge α}
    (hhedge : Hedge.ofFormula name (f.setVariables residents) = .ok hedge) (ε x : α) :
    (f.setVariables residents).evaluate ε [("x", x)] = .ok (hedge.apply ε x) := by
  unfold Hedge.ofFormula at hhedge
  split at hhedge <;> cases hhedge
  next hunbound =>
  have hnames : ∀ name, name ∈ ["x"] ↔ name ∈ [("x", x)].map Prod.fst := fun _ => Iff.rfl
  obtain ⟨value, hvalue⟩ := (unboundVariables_eq_nil_iff h residents ε hnames).mp hunbound
  rw [Hedge.apply, hvalue]

/-- A formula that was read, with any values that stay with it. Its elements have the operands that
they take; its evaluation has the value of the tree, or fails for the first variable, from left to
right, that has no value; the variables that will lack a value are known before; and a norm or a
hedge that could be made of it never falls back on the undefined value. -/
theorem evaluates_of_parseWith [Scalar α] (h : parseWith v text = .ok f)
    (residents : List (String × α)) :
    f.root.IsSaturated ∧
    (∀ (ε : α) (bindings : List (String × α)),
      (∀ x, (f.setVariables residents).evaluate ε bindings = .ok x ↔
        f.root.HasValue ε (valueOf? residents bindings) x) ∧
      (∀ cause, (f.setVariables residents).evaluate ε bindings = .error cause ↔ ∃ name,
        f.root.vars.find? (fun name =>
          name ∉ bindings.map Prod.fst ∧ name ∉ residents.map Prod.fst) = some name ∧
        cause = .unresolved .variableName name) ∧
      ∀ names : List String, (∀ name, name ∈ names ↔ name ∈ bindings.map Prod.fst) →
        ((f.setVariables residents).unboundVariables names = [] ↔
          ∃ x, (f.setVariables residents).evaluate ε bindings = .ok x)) ∧
    (∀ norm, NormFormula.ofFormula (f.setVariables residents) = .ok norm → ∀ ε a b,
      (f.setVariables residents).evaluate ε [("a", a), ("b", b)] = .ok (norm.compute ε a b)) ∧
    ∀ name hedge, Hedge.ofFormula name (f.setVariables residents) = .ok hedge → ∀ ε x,
      (f.setVariables residents).evaluate ε [("x", x)] = .ok (hedge.apply ε x) := by
  have hroot := isSaturated_of_parseWith h
  refine ⟨hroot, fun ε bindings => ⟨fun x => ?_, fun cause => ?_, fun names hnames => ?_⟩, ?_, ?_⟩
  · rw [evaluate_setVariables h, hroot.evaluate_eq_ok_iff]
  · have hmissing : (fun name => (valueOf? residents bindings name).isNone) = fun name =>
        decide (name ∉ bindings.map Prod.fst ∧ name ∉ residents.map Prod.fst) := by
      funext name
      rw [Bool.eq_iff_iff, decide_eq_true_eq, isNone_valueOf?]
    rw [evaluate_setVariables h, hroot.evaluate_eq_error_iff, hmissing]
  · exact unboundVariables_eq_nil_iff h residents ε hnames
  · exact fun norm hnorm ε a b => compute_of_ofFormula h hnorm ε a b
  · exact fun name hedge hhedge ε x => apply_of_ofFormula h hhedge ε x

end Read

/-- With one of its two variables a formula has no value, with both it is a norm and a hedge. -/
theorem evaluates_larger : ∃ f : Formula Float, parse "max ( x , y )" = .ok f ∧
    (∀ ε, (f.setVariables [("y", 0.5)]).evaluate ε [] = .error (.unresolved .variableName "x")) ∧
    (∀ ε, ∃ x, (f.setVariables [("y", 0.5)]).evaluate ε [("x", 0.25)] = .ok x) ∧
    (∃ norm, NormFormula.ofFormula (f.setVariables [("x", 0.25), ("y", 0.5)]) = .ok norm ∧
      ∀ ε a b, (f.setVariables [("x", 0.25), ("y", 0.5)]).evaluate ε [("a", a), ("b", b)] =
        .ok (norm.compute ε a b)) ∧
    ∃ hedge, Hedge.ofFormula "larger" (f.setVariables [("y", 0.5)]) = .ok hedge ∧
      ∀ ε x, (f.setVariables [("y", 0.5)]).evaluate ε [("x", x)] = .ok (hedge.apply ε x) := by
  have hparse := parse_max (by decide) tokens_enclosed
  obtain ⟨-, hevaluate, -, hhedges⟩ := evaluates_of_parseWith hparse [("y", 0.5)]
  obtain ⟨-, -, hnorms, -⟩ := evaluates_of_parseWith hparse [("x", 0.25), ("y", 0.5)]
  refine ⟨_, hparse, fun ε => ?_, fun ε => ?_, ⟨_, rfl, hnorms _ rfl⟩, ⟨_, rfl, hhedges _ _ rfl⟩⟩
  · exact ((hevaluate ε []).2.1 _).mpr ⟨"x", by decide, rfl⟩
  · exact ((hevaluate ε [("x", 0.25)]).2.2 ["x"] fun _ => Iff.rfl).mp rfl

end Formula

end FuzzyInference
