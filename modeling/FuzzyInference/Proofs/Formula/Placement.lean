import FuzzyInference.Proofs.Formula.Grammar
import FuzzyInference.Proofs.Infix.WellFormed

/-!
Where the operands of a formula stand. Every element takes its operands from one stack of trees, so
the trees that are left over tell how many operands a text has in all, but not where these stand. A
text with a tree is well formed exactly if it has an operand wherever one is due.
-/
namespace FuzzyInference.Formula

open Infix Text

variable {α : Type}

/-- An operand is one word, a number or a name. -/
def IsAtom (words : List String) : Prop := words.length = 1

theorem ne_nil_of_isAtom {words : List String} (h : IsAtom words) : words ≠ [] := by
  rintro rfl
  cases h

/-- For operands of one word the placement can be checked token by token. -/
theorem supplied_iff_placed (find? : String → Option (Element α)) (due : Bool)
    (tokens : List Token) :
    Supplied find? IsAtom due tokens ↔ placed find? due tokens = true := by
  refine ⟨fun h => h.placed fun _ => ne_nil_of_isAtom, fun h => ?_⟩
  fun_induction placed find? due tokens with
  | case1 due =>
    obtain rfl : due = false := by simpa using h
    exact .nil
  | case2 due word rest ih => exact .words (show IsAtom [word] from rfl) (ih h)
  | case3 due rest ih => exact .leftParen (ih h)
  | case4 due name rest ih => exact .call (ih h)
  | case5 due symbol rest ih =>
    cases ho : find? symbol with
    | none => simp [ho] at h
    | some o =>
      simp only [ho, Option.any_some, Bool.and_eq_true, Bool.or_eq_true, Bool.not_eq_true',
        decide_eq_true_eq] at h
      obtain ⟨harity | ⟨rfl, harity⟩, hrest⟩ := h
      · exact .unary ho harity (ih hrest)
      · exact .binary ho harity (ih hrest)
  | case6 due rest ih =>
    simp only [Bool.and_eq_true, Bool.not_eq_true'] at h
    obtain ⟨rfl, hrest⟩ := h
    exact .comma (ih hrest)
  | case7 due rest ih =>
    simp only [Bool.and_eq_true, Bool.not_eq_true'] at h
    obtain ⟨rfl, hrest⟩ := h
    exact .rightParen (ih hrest)
  | case8 => cases h

theorem length_flatten_of_isAtom {operands : List (List String)}
    (h : ∀ words ∈ operands, IsAtom words) : operands.flatten.length = operands.length := by
  induction operands with
  | nil => rfl
  | cons words operands ih =>
    obtain ⟨hwords, hrest⟩ := List.forall_mem_cons.mp h
    rw [List.flatten_cons, List.length_append, hwords, ih hrest, List.length_cons, Nat.add_comm]

section Trees

variable [NumberText α]

theorem exists_of_pushItem_operand {trees trees' : List (Node α)} {word : String}
    (h : pushItem trees (.operand word) = .ok trees') :
    ∃ x, leaf word = .ok x ∧ trees' = x :: trees := by
  obtain ⟨x, hleaf, hpush⟩ := exists_of_bind_eq_ok h
  cases hpush
  exact ⟨x, hleaf, rfl⟩

/-- An element takes as many of the newest trees as it has places. -/
theorem exists_of_pushItem_symbol {trees trees' : List (Node α)} {element : Element α}
    (h : pushItem trees (.symbol element) = .ok trees') :
    (∃ operand rest, element.arity = 1 ∧ trees = operand :: rest ∧
      trees' = .unary element operand :: rest) ∨
    ∃ left right rest, element.arity = 2 ∧ trees = right :: left :: rest ∧
      trees' = .binary element left right :: rest := by
  simp only [pushItem] at h
  split at h <;> cases h
  · next apply operand rest hmethod =>
    exact .inl ⟨operand, rest, by simp [Element.arity, hmethod, Method.arity], rfl, rfl⟩
  · next apply right left rest hmethod =>
    exact .inr ⟨left, right, rest, by simp [Element.arity, hmethod, Method.arity], rfl, rfl⟩

/-- A word adds a tree, and an element replaces its operands by one tree. -/
theorem length_of_pushItem {trees trees' : List (Node α)} {item : Item (Element α)}
    (h : pushItem trees item = .ok trees') :
    (trees'.length : Int) + used item.symbol?.toList = trees.length + item.word?.toList.length := by
  cases item with
  | operand word =>
    obtain ⟨x, -, rfl⟩ := exists_of_pushItem_operand h
    simp [Item.symbol?, Item.word?]
  | symbol element =>
    have hfixity : (Symbol.fixity element).arity = element.arity := rfl
    obtain ⟨operand, rest, harity, rfl, rfl⟩ | ⟨left, right, rest, harity, rfl, rfl⟩ :=
      exists_of_pushItem_symbol h <;>
      simp [Item.symbol?, Item.word?, hfixity, harity]

theorem length_of_foldlM_pushItem {trees trees' : List (Node α)} {items : List (Item (Element α))}
    (h : items.foldlM pushItem trees = .ok trees') :
    (trees'.length : Int) + used (items.filterMap Item.symbol?) =
      trees.length + (items.filterMap Item.word?).length := by
  induction items generalizing trees with
  | nil =>
    cases h
    simp
  | cons item items ih =>
    rw [List.foldlM_cons] at h
    obtain ⟨next, hpush, hrest⟩ := exists_of_bind_eq_ok h
    have hitem := length_of_pushItem hpush
    have hitems := ih hrest
    cases item with
    | operand word =>
      simp only [Item.symbol?, Item.word?, List.filterMap_cons, Option.toList, used_nil,
        List.length_cons, List.length_nil] at hitem hitems ⊢
      omega
    | symbol element =>
      simp only [Item.symbol?, Item.word?, List.filterMap_cons, Option.toList, used_nil, used_cons,
        List.length_nil] at hitem hitems ⊢
      omega

theorem tree_of_parseWith {v : Vocabulary α} {text : String} {f : Formula α}
    (h : parseWith v text = .ok f) : tree v text = .ok f.root := by
  obtain ⟨x, hx, rfl⟩ := exists_of_map_eq_ok h
  exact hx

/-- The operands in a text with a tree are one more than its elements use up. -/
theorem length_of_tree {items : List (Item (Element α))} {x : Node α}
    (h : items.foldlM pushItem [] = .ok [x]) {operands : List (List String)}
    (hatoms : ∀ words ∈ operands, IsAtom words)
    (hwords : operands.flatten = items.filterMap Item.word?) :
    (operands.length : Int) = 1 + used (items.filterMap Item.symbol?) := by
  have hcount := length_of_foldlM_pushItem h
  rw [← hwords, length_flatten_of_isAtom hatoms] at hcount
  simp only [List.length_cons, List.length_nil] at hcount
  omega

end Trees

variable [Elementary α] [NumberText α]

/-- The tokens of a formula are well formed exactly if they pass the check of their placement. The
reader does not make this check: an element takes its operands from the trees that have been read,
wherever these stand in the text. -/
theorem wellFormed_iff_placed {text : String} {f : Formula α} (h : parse text = .ok f) :
    ∃ toks, tokens (builtin : Vocabulary α) text = .ok toks ∧
      (WellFormed (builtin : Vocabulary α).get? IsAtom .operand toks ↔
        placed (builtin : Vocabulary α).get? true toks = true) := by
  obtain ⟨toks, items, htokens, hitems, htree⟩ := tree_eq_ok_iff.mp (tree_of_parseWith h)
  refine ⟨toks, htokens, fun hformed => ?_, fun hplaced => ?_⟩
  · exact (supplied_iff_placed _ _ _).mp hformed.supplied
  · have hsupplied := (supplied_iff_placed _ _ _).mpr hplaced
    refine wellFormed_of_toPostfix (fun _ => ne_nil_of_isAtom) hsupplied hitems ?_
    intro operands hatoms hwords
    exact Int.le_of_eq (length_of_tree htree hatoms hwords)

/-! ### A call with its operands inside and outside -/

/-- The tokens of `max ( x , y )`. -/
def enclosed : List Token :=
  [.function "max", .leftParen, .operand "x", .comma, .operand "y", .rightParen]

/-- The tokens of `x max ( , y )`. -/
def straddling : List Token :=
  [.operand "x", .function "max", .leftParen, .comma, .operand "y", .rightParen]

theorem get?_max : (builtin : Vocabulary Float).get? "max" = some maximum := by
  rw [get?_builtin]
  rfl

theorem toPostfix_max {find? : String → Option (Element Float)} (hfind : find? "max" = some maximum)
    (text : String) {toks : List Token} (h : toks ∈ [enclosed, straddling]) :
    toPostfix find? text toks = .ok [.operand "x", .operand "y", .symbol maximum] := by
  have harity : (Symbol.fixity maximum).arity = 2 := rfl
  simp only [List.mem_cons, List.not_mem_nil, or_false] at h
  rcases h with rfl | rfl <;>
    simp [enclosed, straddling, toPostfix, State.run, State.step, hfind, harity, bind, Except.bind,
      State.openParen, State.comma, State.closeOperand, popWhile, State.closeParen, State.finish]

theorem wordToken_max (previous : Option Token) (next : Option String) :
    WordToken (builtin : Vocabulary Float) previous "max" next (.function "max") := by
  refine .function (isIdentifier_of_isFunction get?_max rfl) ?_
  simp only [Vocabulary.isFunction, get?_max]
  rfl

theorem get?_xy {name : String} (h : name ∈ ["x", "y"]) :
    (builtin : Vocabulary Float).get? name = none := by
  rw [get?_builtin_eq_none_iff]
  simp only [List.mem_cons, List.not_mem_nil, or_false] at h
  rcases h with rfl | rfl <;>
    simp [builtins, operators, comparisons, unaryFunctions, binaryFunctions, Element.function]

theorem wordToken_xy {name : String} (h : name ∈ ["x", "y"]) (previous : Option Token)
    {next : Option String} (hnext : next.bind (·.toList.head?) ≠ some '(') :
    WordToken (builtin : Vocabulary Float) previous name next (.operand name) := by
  have hword : ∀ name ∈ ["x", "y"], isIdentifier name = true := by decide
  exact .name (hword name h) (get?_xy h) hnext

theorem tokens_enclosed : tokens (builtin : Vocabulary Float) "max ( x , y )" = .ok enclosed := by
  have hlexed : Lexed (builtin : Vocabulary Float) none ["max", "(", "x", ",", "y", ")"] none
      enclosed :=
    .cons (wordToken_max _ _) <| .cons .leftParen <| .cons (wordToken_xy (by decide) _ (by decide)) <|
      .cons .comma <| .cons (wordToken_xy (by decide) _ (by decide)) <| .cons .rightParen .nil
  exact tokensAfter_of_lexed hlexed (by cbv)

theorem tokens_straddling :
    tokens (builtin : Vocabulary Float) "x max ( , y )" = .ok straddling := by
  have hlexed : Lexed (builtin : Vocabulary Float) none ["x", "max", "(", ",", "y", ")"] none
      straddling :=
    .cons (wordToken_xy (by decide) _ (by decide)) <| .cons (wordToken_max _ _) <|
      .cons .leftParen <| .cons .comma <| .cons (wordToken_xy (by decide) _ (by decide)) <|
        .cons .rightParen .nil
  exact tokensAfter_of_lexed hlexed (by cbv)

theorem parse_max {text : String} {toks : List Token} (h : toks ∈ [enclosed, straddling])
    (htokens : tokens (builtin : Vocabulary Float) text = .ok toks) :
    parse text = .ok { text := trim text, root := .binary maximum (.var "x") (.var "y") } := by
  have htree : tree (builtin : Vocabulary Float) text =
      .ok (.binary maximum (.var "x") (.var "y")) :=
    tree_eq_ok_iff.mpr ⟨toks, _, htokens, toPostfix_max get?_max text h, rfl⟩
  exact parseWith_of_tree htree

theorem wellFormed_enclosed : ∃ f : Formula Float, parse "max ( x , y )" = .ok f ∧
    WellFormed (builtin : Vocabulary Float).get? IsAtom .operand enclosed := by
  have hparse := parse_max (by decide) tokens_enclosed
  obtain ⟨toks, htokens, hiff⟩ := wellFormed_iff_placed hparse
  obtain rfl : enclosed = toks := Except.ok.inj (tokens_enclosed.symm.trans htokens)
  exact ⟨_, hparse, hiff.mpr rfl⟩

/-- The call takes the operand before it for its first argument, which is empty. -/
theorem not_wellFormed_straddling :
    (∃ f : Formula Float, parse "x max ( , y )" = .ok f ∧
      f.root = .binary maximum (.var "x") (.var "y")) ∧
    tokens (builtin : Vocabulary Float) "x max ( , y )" = .ok straddling ∧
    ¬ WellFormed (builtin : Vocabulary Float).get? IsAtom .operand straddling := by
  refine ⟨⟨_, parse_max (by decide) tokens_straddling, rfl⟩, tokens_straddling, fun hformed => ?_⟩
  have hplaced := (supplied_iff_placed _ _ _).mp hformed.supplied
  exact absurd hplaced (by decide)

end FuzzyInference.Formula
