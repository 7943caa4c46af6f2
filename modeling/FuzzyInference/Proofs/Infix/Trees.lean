import FuzzyInference.Proofs.Antecedent.Evaluation
import FuzzyInference.Proofs.Antecedent.Placement
import FuzzyInference.Proofs.Formula.Placement

/-!
What trees keep of their texts. A word in postfix order becomes a leaf behind the leaves that are
there, and a symbol becomes a node over the newest trees, which leaves the order of their leaves as
it is. So a formula has the operands of its text from left to right, an antecedent the words of its
propositions, and both have a node for every symbol, whether or not the text was well formed.
-/
namespace FuzzyInference

open Infix

variable {α : Type}

/-! ### Formulas -/

namespace Formula

/-- The constants and variables from left to right. -/
def Node.leaves : Node α → List (Node α)
  | .constant value => [.constant value]
  | .var name => [.var name]
  | .unary _ operand => operand.leaves
  | .binary _ left right => left.leaves ++ right.leaves

/-- The elements of the inner nodes. -/
def Node.elements : Node α → List (Element α)
  | .constant _ => []
  | .var _ => []
  | .unary element operand => element :: operand.elements
  | .binary element left right => element :: (left.elements ++ right.elements)

variable [NumberText α]

/-- The leaves of the trees, the newest tree last, are those of the words, and their inner nodes are
those of the elements. -/
structure Carries (trees : List (Node α)) (words : List String) (elements : List (Element α)) :
    Prop where
  leaves : words.Forall₂ (fun word x => leaf word = .ok x) (trees.reverse.flatMap Node.leaves)
  elements : (trees.flatMap Node.elements).Perm elements

theorem leaves_of_leaf {word : String} {x : Node α} (h : leaf word = .ok x) :
    x.leaves = [x] ∧ x.elements = [] := by
  unfold leaf at h
  split at h
  · split at h <;> cases h
    exact ⟨rfl, rfl⟩
  · cases h
    exact ⟨rfl, rfl⟩

theorem Carries.push {trees trees' : List (Node α)} {words : List String}
    {elements : List (Element α)} {item : Item (Element α)} (h : Carries trees words elements)
    (hpush : pushItem trees item = .ok trees') :
    Carries trees' (words ++ item.word?.toList) (elements ++ item.symbol?.toList) := by
  cases item with
  | operand word =>
    obtain ⟨x, hleaf, rfl⟩ := exists_of_pushItem_operand hpush
    obtain ⟨hleaves, helements⟩ := leaves_of_leaf hleaf
    have hx : List.Forall₂ (fun word x => leaf word = .ok x) [word] [x] := .cons hleaf .nil
    refine ⟨?_, ?_⟩
    · simpa [Item.word?, hleaves] using List.rel_append h.leaves hx
    · simpa [Item.symbol?, helements] using h.elements
  | symbol element =>
    have hmove := List.perm_append_singleton element elements
    obtain ⟨operand, rest, -, rfl, rfl⟩ | ⟨left, right, rest, -, rfl, rfl⟩ :=
      exists_of_pushItem_symbol hpush
    · refine ⟨by simpa [Item.word?, Node.leaves] using h.leaves, ?_⟩
      exact (h.elements.cons element).trans hmove.symm
    · refine ⟨by simpa [Item.word?, Node.leaves] using h.leaves, ?_⟩
      have hswap : (left.elements ++ right.elements ++ rest.flatMap Node.elements).Perm
          (right.elements ++ (left.elements ++ rest.flatMap Node.elements)) := by
        rw [List.append_assoc]
        exact List.perm_append_comm_assoc ..
      exact ((hswap.trans h.elements).cons element).trans hmove.symm

theorem Carries.run {trees trees' : List (Node α)} {words : List String}
    {elements : List (Element α)} {items : List (Item (Element α))}
    (h : Carries trees words elements) (hrun : items.foldlM pushItem trees = .ok trees') :
    Carries trees' (words ++ items.filterMap Item.word?)
      (elements ++ items.filterMap Item.symbol?) := by
  induction items generalizing trees words elements with
  | nil =>
    cases hrun
    simpa using h
  | cons item items ih =>
    rw [List.foldlM_cons] at hrun
    obtain ⟨next, hpush, hrest⟩ := exists_of_bind_eq_ok hrun
    have hcarries := ih (h.push hpush) hrest
    rw [List.append_assoc, List.append_assoc] at hcarries
    cases item <;> exact hcarries

/-- The leaves of a formula are the operands of its tokens in their order, and its inner nodes are
the elements of its operators and functions. -/
theorem exists_tokens_of_parseWith {v : Vocabulary α} {text : String} {f : Formula α}
    (h : parseWith v text = .ok f) : ∃ toks, tokens v text = .ok toks ∧
      (toks.filterMap Token.word?).Forall₂ (fun word x => leaf word = .ok x) f.root.leaves ∧
      (f.root.elements.map some).Perm ((toks.filterMap Token.symbolName?).map v.get?) := by
  obtain ⟨toks, items, htokens, hitems, htrees⟩ := tree_eq_ok_iff.mp (tree_of_parseWith h)
  have hempty : Carries ([] : List (Node α)) [] [] := ⟨.nil, .refl _⟩
  obtain ⟨hleaves, helements⟩ := hempty.run htrees
  rw [List.nil_append, (toPostfix_contents hitems).1] at hleaves
  simp only [List.reverse_singleton, List.flatMap_singleton, List.nil_append] at hleaves helements
  exact ⟨toks, htokens, hleaves, (helements.map some).trans (perm_of_toPostfix hitems)⟩

end Formula

/-! ### Antecedents -/

namespace Expression

section Catalogue

variable {κ : Type} [Catalogue κ α] {catalogue : κ} {text : String} {e : Expression α}

end Catalogue

end Expression

/-! ### Reading -/

end FuzzyInference
