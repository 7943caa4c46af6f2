import FuzzyInference.Antecedent
import FuzzyInference.Variables

/-!
Degrees with the divisors that they were computed with. The definitions of degrees are run as they
are on numbers that carry the divisors of their quotients, and the values stay what they were. A
comparison carries nothing on, so an operator might lose the divisors of an operand that its value
does not depend on; therefore operators keep the divisors of all their operands. What a formula or a
function of the user divides by is not seen, and zero stands for it.
-/
namespace FuzzyInference

variable {α : Type}

/-- A value, and the divisors of the quotients that it was computed from. -/
structure Traced (α : Type) where
  value : α
  divisors : List α := []

namespace Traced

/-- A number that is given. -/
def plain (a : α) : Traced α := { value := a }

variable [Scalar α]

/-- A number that was computed out of sight, so that zero may have been divided by. -/
def unseen (a : α) : Traced α := { value := a, divisors := [Scalar.zero] }

/-- The number with further divisors before its own. -/
def keeping (divisors : List α) (a : Traced α) : Traced α := ⟨a.value, divisors ++ a.divisors⟩

def map (f : α → α) (a : Traced α) : Traced α := ⟨f a.value, a.divisors⟩

def combine (f : α → α → α) (a b : Traced α) : Traced α :=
  ⟨f a.value b.value, a.divisors ++ b.divisors⟩

/-- A quotient adds its divisor to those of its operands. -/
def div (a b : Traced α) : Traced α := ⟨a.value / b.value, b.value :: (a.divisors ++ b.divisors)⟩

instance : Scalar (Traced α) where
  add := combine (· + ·)
  sub := combine (· - ·)
  mul := combine (· * ·)
  div := div
  neg := map (- ·)
  zero := plain Scalar.zero
  half := plain Scalar.half
  one := plain Scalar.one
  two := plain Scalar.two
  infinity := plain Scalar.infinity
  undefined := plain Scalar.undefined
  abs := map Scalar.abs
  sqrt := map Scalar.sqrt
  eq a b := Scalar.eq a.value b.value
  lt a b := Scalar.lt a.value b.value
  le a b := Scalar.le a.value b.value
  totalLe a b := Scalar.totalLe a.value b.value
  isNaN a := Scalar.isNaN a.value
  isFinite a := Scalar.isFinite a.value

theorem min_plain (a b : α) : Scalar.min (plain a) (plain b) = plain (Scalar.min a b) := by
  simp only [Scalar.min, apply_ite plain]
  rfl

theorem max_plain (a b : α) : Scalar.max (plain a) (plain b) = plain (Scalar.max a b) := by
  simp only [Scalar.max, apply_ite plain]
  rfl

end Traced

open Traced

/-! ### Memberships -/

namespace Shape

/-- The shape with its parameters as given numbers. -/
def lifted : Shape α → Shape (Traced α)
  | triangle a b c => .triangle (plain a) (plain b) (plain c)
  | trapezoid a b c d => .trapezoid (plain a) (plain b) (plain c) (plain d)
  | rectangle first last => .rectangle (plain first) (plain last)
  | constant value => .constant (plain value)

variable [Scalar α]

/-- The membership with the divisors of its quotients. -/
def traced (shape : Shape α) (x : α) : Traced α := shape.lifted.membership (plain x)

/-- Carrying the divisors does not change the membership. -/
theorem value_traced (shape : Shape α) (x : α) :
    (shape.traced x).value = shape.membership x := by
  cases shape <;>
    simp only [traced, lifted, membership, degree, apply_ite Traced.value] <;> rfl

theorem traced_triangle (a b c x : α) : (triangle a b c).traced x =
    if Scalar.isNaN x then plain Scalar.undefined
    else if Scalar.lt x a || Scalar.lt c x then plain Scalar.zero
    else if Scalar.eq x b then plain Scalar.one
    else if Scalar.lt x b then
      if Scalar.eq a (-Scalar.infinity) then plain Scalar.one else plain (x - a) / plain (b - a)
    else if Scalar.eq c Scalar.infinity then plain Scalar.one
    else plain (c - x) / plain (c - b) :=
  rfl

theorem traced_trapezoid (a b c d x : α) : (trapezoid a b c d).traced x =
    if Scalar.isNaN x then plain Scalar.undefined
    else if Scalar.lt x a || Scalar.lt d x then plain Scalar.zero
    else if Scalar.lt x b then
      if Scalar.eq a (-Scalar.infinity) then plain Scalar.one else plain (x - a) / plain (b - a)
    else if Scalar.le x c then plain Scalar.one
    else if Scalar.lt x d then plain (d - x) / plain (d - c)
    else if Scalar.eq d Scalar.infinity then plain Scalar.one
    else plain Scalar.zero :=
  rfl

end Shape

/-! ### Operators -/

section Operators

variable [Scalar α]

namespace TNorm

/-- The norm on traced numbers. -/
def lifted : TNorm α → TNorm (Traced α)
  | algebraicProduct => .algebraicProduct
  | boundedDifference => .boundedDifference
  | drasticProduct => .drasticProduct
  | einsteinProduct => .einsteinProduct
  | hamacherProduct => .hamacherProduct
  | minimum => .minimum
  | nilpotentMinimum => .nilpotentMinimum
  | formula norm =>
    .custom NormFormula.name fun ε a b => unseen (norm.compute ε.value a.value b.value)
  | custom name combine => .custom name fun ε a b => unseen (combine ε.value a.value b.value)

/-- The combined degree with the divisors of its quotients. -/
def traced (ε a b : α) (norm : TNorm α) : Traced α :=
  norm.lifted.compute (plain ε) (plain a) (plain b)

/-- The norm on traced numbers that keeps the divisors of its operands. -/
def watched (norm : TNorm α) : TNorm (Traced α) :=
  .custom norm.name fun ε a b =>
    (norm.traced ε.value a.value b.value).keeping (a.divisors ++ b.divisors)

theorem traced_eq (ε a b : α) (norm : TNorm α) : norm.traced ε a b =
    match norm with
    | einsteinProduct => plain (a * b) / plain (Scalar.two - (a + b - a * b))
    | hamacherProduct =>
      if Tolerance.eq ε (a + b) Scalar.zero then plain Scalar.zero
      else plain (a * b) / plain (a + b - a * b)
    | formula _ => unseen (norm.compute ε a b)
    | custom .. => unseen (norm.compute ε a b)
    | _ => plain (norm.compute ε a b) := by
  cases norm with
  | boundedDifference => exact max_plain _ _
  | minimum => exact min_plain _ _
  | drasticProduct =>
    simp only [traced, lifted, compute, min_plain, max_plain, apply_ite plain]
    rfl
  | nilpotentMinimum =>
    simp only [traced, lifted, compute, min_plain, apply_ite plain]
    rfl
  | _ => rfl

/-- Carrying the divisors does not change the degree. -/
theorem value_traced (ε a b : α) (norm : TNorm α) :
    (norm.traced ε a b).value = norm.compute ε a b := by
  rw [traced_eq]
  cases norm with
  | hamacherProduct => exact apply_ite Traced.value ..
  | _ => rfl

end TNorm

namespace SNorm

/-- The norm on traced numbers. -/
def lifted : SNorm α → SNorm (Traced α)
  | algebraicSum => .algebraicSum
  | boundedSum => .boundedSum
  | drasticSum => .drasticSum
  | einsteinSum => .einsteinSum
  | hamacherSum => .hamacherSum
  | maximum => .maximum
  | nilpotentMaximum => .nilpotentMaximum
  | normalizedSum => .normalizedSum
  | unboundedSum => .unboundedSum
  | formula norm =>
    .custom NormFormula.name fun ε a b => unseen (norm.compute ε.value a.value b.value)
  | custom name combine => .custom name fun ε a b => unseen (combine ε.value a.value b.value)

/-- The combined degree with the divisors of its quotients. -/
def traced (ε a b : α) (norm : SNorm α) : Traced α :=
  norm.lifted.compute (plain ε) (plain a) (plain b)

/-- The norm on traced numbers that keeps the divisors of its operands. -/
def watched (norm : SNorm α) : SNorm (Traced α) :=
  .custom norm.name fun ε a b =>
    (norm.traced ε.value a.value b.value).keeping (a.divisors ++ b.divisors)

theorem traced_eq (ε a b : α) (norm : SNorm α) : norm.traced ε a b =
    match norm with
    | einsteinSum => plain (a + b) / plain (Scalar.one + a * b)
    | hamacherSum =>
      if Tolerance.eq ε (a * b) Scalar.one then plain Scalar.one
      else plain (a + b - Scalar.two * a * b) / plain (Scalar.one - a * b)
    | normalizedSum => plain (a + b) / plain (Scalar.max Scalar.one (a + b))
    | formula _ => unseen (norm.compute ε a b)
    | custom .. => unseen (norm.compute ε a b)
    | _ => plain (norm.compute ε a b) := by
  cases norm with
  | boundedSum => exact min_plain _ _
  | maximum => exact max_plain _ _
  | drasticSum =>
    simp only [traced, lifted, compute, min_plain, max_plain, apply_ite plain]
    rfl
  | nilpotentMaximum =>
    simp only [traced, lifted, compute, max_plain, apply_ite plain]
    rfl
  | normalizedSum => exact congrArg (plain (a + b) / ·) (max_plain _ _)
  | _ => rfl

/-- Carrying the divisors does not change the degree. -/
theorem value_traced (ε a b : α) (norm : SNorm α) :
    (norm.traced ε a b).value = norm.compute ε a b := by
  rw [traced_eq]
  cases norm with
  | hamacherSum => exact apply_ite Traced.value ..
  | _ => rfl

end SNorm

namespace Hedge

/-- The hedge on traced numbers. -/
def lifted : Hedge α → Hedge (Traced α)
  | any => .any
  | extremely => .extremely
  | not => .not
  | seldom => .seldom
  | somewhat => .somewhat
  | very => .very
  | formula name f => .custom name fun ε x => unseen ((formula name f).apply ε.value x.value)
  | custom name modify => .custom name fun ε x => unseen (modify ε.value x.value)

/-- The modified degree with the divisors of its quotients. -/
def traced (ε x : α) (hedge : Hedge α) : Traced α := hedge.lifted.apply (plain ε) (plain x)

/-- The hedge on traced numbers that keeps the divisors of its operand. -/
def watched (hedge : Hedge α) : Hedge (Traced α) :=
  .custom hedge.name fun ε x => (hedge.traced ε.value x.value).keeping x.divisors

/-- No built-in hedge divides. -/
theorem traced_eq (ε x : α) (hedge : Hedge α) : hedge.traced ε x =
    match hedge with
    | formula .. => unseen (hedge.apply ε x)
    | custom .. => unseen (hedge.apply ε x)
    | _ => plain (hedge.apply ε x) := by
  cases hedge with
  | extremely => exact (apply_ite plain ..).symm
  | seldom => exact (apply_ite plain ..).symm
  | _ => rfl

/-- Carrying the divisors does not change the degree. -/
theorem value_traced (ε x : α) (hedge : Hedge α) :
    (hedge.traced ε x).value = hedge.apply ε x := by
  rw [traced_eq]
  cases hedge <;> rfl

end Hedge

end Operators

/-! ### Variables -/

section Variables

variable [Scalar α]

/-- The term with the parameters of its shape as given numbers. -/
def Term.lifted (t : Term α) : Term (Traced α) := ⟨t.name, t.shape.lifted⟩

/-- The variable with its numbers as given ones. -/
def InputVariable.lifted (v : InputVariable α) : InputVariable (Traced α) where
  name := v.name
  enabled := v.enabled
  minimum := plain v.minimum
  maximum := plain v.maximum
  lock := v.lock
  value := plain v.value
  terms := v.terms.map Term.lifted

/-- The entry with its degree as a given number. -/
def Entry.lifted (entry : Entry α) : Entry (Traced α) :=
  ⟨entry.termId, plain entry.degree, entry.implication.map TNorm.watched⟩

/-- The variable with its numbers as given ones and with an operator that keeps divisors. -/
def OutputVariable.lifted (v : OutputVariable α) : OutputVariable (Traced α) where
  name := v.name
  enabled := v.enabled
  terms := v.terms.map Term.lifted
  aggregation := v.aggregation.map SNorm.watched
  entries := v.entries.map Entry.lifted

/-- The variables with their numbers as given ones and with operators that keep divisors. -/
def Variables.lifted (vs : Variables α) : Variables (Traced α) where
  inputs := vs.inputs.map InputVariable.lifted
  outputs := vs.outputs.map OutputVariable.lifted
  hedges := vs.hedges.map Hedge.watched

theorem InputVariable.value_membership_lifted (v : InputVariable α) (term : TermId) :
    (v.lifted.membership term).value = v.membership term := by
  simp only [membership, lifted, List.getElem?_map]
  cases v.terms[term.index]? with
  | none => rfl
  | some t => exact t.shape.value_traced v.value

theorem OutputVariable.value_activationDegree_lifted (ε : α) (v : OutputVariable α)
    (term : TermId) :
    (v.lifted.activationDegree (plain ε) term).value = v.activationDegree ε term := by
  have hentries : (v.lifted.entries.filter fun entry => entry.termId = term) =
      (v.entries.filter fun entry => entry.termId = term).map Entry.lifted :=
    List.filter_map
  rw [activationDegree, activationDegree, hentries, List.foldl_map]
  refine (List.foldl_hom Traced.value fun degree entry => ?_).symm
  cases haggregation : v.aggregation with
  | none => simp only [lifted, haggregation]; rfl
  | some norm =>
    simp only [lifted, haggregation, Option.map_some]
    exact (norm.value_traced ε degree.value entry.degree).symm

theorem Variables.isEnabled_lifted (vs : Variables α) (id : VariableId) :
    vs.lifted.isEnabled id = vs.isEnabled id := by
  unfold isEnabled lifted
  cases id.role with
  | input => simp only [List.getElem?_map, Option.any_map]; rfl
  | output => simp only [List.getElem?_map, Option.any_map]; rfl

/-- What the variables give for a term, with the divisors, if they give it at all. -/
theorem Variables.value_membership_lifted (vs : Variables α) (id : VariableId) (term : TermId) :
    (vs.lifted.membership id term).value = vs.membership id term := by
  unfold membership lifted
  cases id.role with
  | output => rfl
  | input =>
    simp only [List.getElem?_map, Option.map_map]
    cases vs.inputs[id.index]? with
    | none => rfl
    | some v => exact v.value_membership_lifted term

theorem Variables.value_activationDegree_lifted (ε : α) (vs : Variables α) (id : VariableId)
    (term : TermId) :
    (vs.lifted.activationDegree (plain ε) id term).value = vs.activationDegree ε id term := by
  unfold activationDegree lifted
  cases id.role with
  | input => rfl
  | output =>
    simp only [List.getElem?_map, Option.map_map]
    cases vs.outputs[id.index]? with
    | none => rfl
    | some v => exact v.value_activationDegree_lifted ε term

end Variables

/-! ### Antecedents -/

section Antecedents

variable [Scalar α]

/-- The proposition with hedges that keep divisors. -/
def Proposition.lifted (p : Proposition α) : Proposition (Traced α) where
  subject := p.subject
  hedges := p.hedges.map Hedge.watched
  term := p.term

def Expression.lifted : Expression α → Expression (Traced α)
  | proposition p => .proposition p.lifted
  | combination connective left right => .combination connective left.lifted right.lifted

/-- The operators as ones that keep divisors. -/
def Combinators.lifted (cs : Combinators α) : Combinators (Traced α) where
  conjunction := cs.conjunction.map TNorm.watched
  disjunction := cs.disjunction.map SNorm.watched
  implication := cs.implication.map TNorm.watched

def Antecedent.lifted (a : Antecedent α) : Antecedent (Traced α) where
  text := a.text
  expression := a.expression.map Expression.lifted

namespace Proposition

variable (p : Proposition α)

theorem endsWithAny_lifted : p.lifted.endsWithAny = p.endsWithAny := by
  simp only [endsWithAny, lifted, List.getLast?_map, Option.any_map]
  rfl

theorem text_lifted : p.lifted.text = p.text := by
  simp only [text, words, lifted, List.map_map]
  rfl

theorem value_applyHedges_lifted (ε : α) (degree : Traced α) :
    (p.lifted.applyHedges (plain ε) degree).value = p.applyHedges ε degree.value := by
  unfold applyHedges
  rw [lifted, List.foldr_map]
  refine (List.foldr_hom Traced.value fun hedge inner => ?_).symm
  exact (hedge.value_traced ε inner.value).symm

theorem value_degree_lifted (ε : α) (vs : Variables α) :
    (p.lifted.degree (plain ε) vs.lifted).map Traced.value = p.degree ε vs := by
  have henabled : Catalogue.isEnabled vs.lifted p.subject.id =
      Catalogue.isEnabled vs p.subject.id := vs.isEnabled_lifted p.subject.id
  have hsubject : p.lifted.subject = p.subject := rfl
  have hterm : p.lifted.term = p.term := rfl
  simp only [degree, hsubject, hterm, henabled, p.endsWithAny_lifted, p.text_lifted]
  split
  · rfl
  split
  · exact congrArg Except.ok (p.value_applyHedges_lifted ε _)
  cases p.term with
  | none => rfl
  | some term =>
    refine congrArg Except.ok ((p.value_applyHedges_lifted ε _).trans ?_)
    cases p.subject.id.role with
    | input => exact congrArg (p.applyHedges ε) (vs.value_membership_lifted p.subject.id term.id)
    | output =>
      exact congrArg (p.applyHedges ε) (vs.value_activationDegree_lifted ε p.subject.id term.id)

end Proposition

omit [Scalar α] in
/-- Two results are combined as their values are. -/
theorem Traced.map_value_combine {f : Traced α → Traced α → Traced α} {g : α → α → α}
    (h : ∀ a b, (f a b).value = g a.value b.value) (r r' : Except Error (Traced α)) :
    Except.map Traced.value (do return f (← r) (← r')) =
      (do return g (← r.map Traced.value) (← r'.map Traced.value)) := by
  cases r with
  | error cause => rfl
  | ok a =>
    cases r' with
    | error cause => rfl
    | ok b => exact congrArg Except.ok (h a b)

/-- Carrying the divisors does not change the degree. -/
theorem Expression.value_degree_lifted (ε : α) (cs : Combinators α) (vs : Variables α)
    (e : Expression α) :
    (e.lifted.degree (plain ε) cs.lifted vs.lifted).map Traced.value = e.degree ε cs vs := by
  induction e with
  | proposition p => exact p.value_degree_lifted ε vs
  | combination connective left right ihleft ihright =>
    cases connective with
    | and =>
      simp only [lifted, degree, ← ihleft, ← ihright]
      cases hnorm : cs.conjunction with
      | none => simp only [Combinators.lifted, hnorm]; rfl
      | some norm =>
        simp only [Combinators.lifted, hnorm]
        exact Traced.map_value_combine (fun a b => norm.value_traced ε a.value b.value) _ _
    | or =>
      simp only [lifted, degree, ← ihleft, ← ihright]
      cases hnorm : cs.disjunction with
      | none => simp only [Combinators.lifted, hnorm]; rfl
      | some norm =>
        simp only [Combinators.lifted, hnorm]
        exact Traced.map_value_combine (fun a b => norm.value_traced ε a.value b.value) _ _

/-- Carrying the divisors does not change the degree of an antecedent. -/
theorem Antecedent.value_degree_lifted (ε : α) (cs : Combinators α) (vs : Variables α)
    (a : Antecedent α) :
    (a.lifted.degree (plain ε) cs.lifted vs.lifted).map Traced.value = a.degree ε cs vs := by
  unfold lifted degree
  cases a.expression with
  | none => rfl
  | some e => exact e.value_degree_lifted ε cs vs

end Antecedents

end FuzzyInference
