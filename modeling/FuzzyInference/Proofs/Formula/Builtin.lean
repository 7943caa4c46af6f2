import FuzzyInference.Proofs.Formula.Lexeme

/-!
Looking up the built-in elements. A name is found exactly if one of the built-in elements has it.
How the elements stand among their operands does not depend on what they compute, so it is read off
one table for all kinds of numbers.
-/
namespace FuzzyInference.Formula

open Infix

variable {α : Type}

/-- Of the elements that are added the last one with the name is found. -/
theorem get?_foldl_add (es : List (Element α)) (v : Vocabulary α) (name : String) :
    (es.foldl Vocabulary.add v).get? name =
      (es.reverse.find? fun e => e.name = name).or (v.get? name) := by
  induction es generalizing v with
  | nil => rfl
  | cons e es ih =>
    rw [List.foldl_cons, ih, Vocabulary.get?_add, List.reverse_cons, List.find?_append,
      Option.or_assoc]
    by_cases he : name = e.name
    · simp [he]
    · have hne : e.name ≠ name := Ne.symm he
      simp [he, hne]

variable [Elementary α]

def builtins : List (Element α) := operators ++ comparisons ++ unaryFunctions ++ binaryFunctions

theorem get?_builtin (name : String) :
    (builtin : Vocabulary α).get? name = builtins.reverse.find? fun e => e.name = name := by
  rw [builtin, get?_foldl_add]
  exact Option.or_none

theorem mem_of_get?_builtin {name : String} {e : Element α}
    (h : (builtin : Vocabulary α).get? name = some e) : e ∈ builtins := by
  rw [get?_builtin] at h
  exact List.mem_reverse.mp (List.mem_of_find?_eq_some h)

theorem get?_builtin_eq_none_iff {name : String} :
    (builtin : Vocabulary α).get? name = none ↔
      name ∉ (builtins : List (Element α)).map Element.name := by
  rw [get?_builtin, List.find?_eq_none]
  simp [List.mem_map, eq_comm]

/-! ### Fixities -/

/-- The names of the built-in elements and how these stand among their operands. -/
def fixities : List (String × Fixity) :=
  (builtins : List (Element Float)).map fun e => (e.name, Symbol.fixity e)

theorem map_builtins :
    (builtins : List (Element α)).map (fun e => (e.name, Symbol.fixity e)) = fixities := rfl

theorem mem_fixities {name : String} {e : Element α}
    (h : (builtin : Vocabulary α).get? name = some e) : (name, Symbol.fixity e) ∈ fixities := by
  have hmem := List.mem_map_of_mem (f := fun e => (e.name, Symbol.fixity e))
    (mem_of_get?_builtin h)
  rwa [map_builtins, Vocabulary.name_of_get? h] at hmem

/-- If all entries of a name are operators, and there is one, the name is that of an operator. -/
theorem isOperator_of_mem_fixities {name : String} (h : name ∈ fixities.map Prod.fst)
    (hkind : ∀ p ∈ fixities, p.1 = name → p.2.kind = .operator) :
    (builtin : Vocabulary α).isOperator name = true := by
  cases hget : (builtin : Vocabulary α).get? name with
  | none =>
    rw [get?_builtin_eq_none_iff] at hget
    rw [← map_builtins (α := α), List.map_map] at h
    exact absurd h hget
  | some e =>
    have he : e.kind = .operator := hkind _ (mem_fixities hget) rfl
    simp [Vocabulary.isOperator, hget, Element.isOperator, he]

end FuzzyInference.Formula
