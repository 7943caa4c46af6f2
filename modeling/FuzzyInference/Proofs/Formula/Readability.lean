import FuzzyInference.Proofs.Binary64.Text
import FuzzyInference.Proofs.Formula.Evaluation
import FuzzyInference.Proofs.Formula.Spacing
import FuzzyInference.Proofs.Infix.Trees

/-!
Texts without parentheses. A text in prefix order has a word for each node, and the word alone tells
what follows it: nothing belongs to a number or a variable, and an element has as many operands as
the vocabulary says. So the words of a tree tell where the tree ends and which tree it is. From its
last word on, a text in postfix order is the text in prefix order of the mirrored tree.
-/
namespace FuzzyInference.Formula

open Infix Text

variable {α : Type}

/-! ### Words of numbers and of names -/

/-- The word has a digit and does not start like a name. -/
structure IsNumeric (word : String) : Prop where
  head : ∀ c ∈ word.toList.head?, isNameStart c = false
  digit : ∃ c ∈ word.toList, c.isDigit = true

/-- A word that can stand for a variable or an element, and for no number. -/
structure IsSymbolic (word : String) : Prop where
  isWord : IsWord word
  not_isNumeric : ¬ IsNumeric word

theorem isNameChar_of_isNameStart {c : Char} (h : isNameStart c = true) : isNameChar c = true := by
  simp only [isNameStart, Bool.or_eq_true, decide_eq_true_eq] at h
  rcases h with h | h <;> simp [isNameChar, h]

theorem isSymbolic_of_isIdentifier {word : String} (h : isIdentifier word = true) :
    IsSymbolic word := by
  unfold isIdentifier at h
  split at h
  · cases h
  · next c tail hlist =>
    simp only [Bool.and_eq_true, List.all_eq_true] at h
    obtain ⟨hc, htail⟩ := h
    have hall : ∀ d ∈ word.toList, isNameChar d = true := by
      rw [hlist]
      exact List.forall_mem_cons.mpr ⟨isNameChar_of_isNameStart hc, htail⟩
    refine ⟨⟨by simp [hlist], fun d hd => isBlank_of_class isNameChar_of_isBlank (hall d hd)⟩, ?_⟩
    intro hnumeric
    have hstart := hnumeric.head c (by simp [hlist])
    exact Bool.false_ne_true (hstart.symm.trans hc)

theorem isSymbolic_of_char {c : Char} (hblank : isBlank c = false) (hdigit : c.isDigit = false) :
    IsSymbolic c.toString := by
  refine ⟨⟨by simp, by simpa using hblank⟩, fun hnumeric => ?_⟩
  obtain ⟨d, hd, hdigit'⟩ := hnumeric.digit
  obtain rfl : d = c := by simpa using hd
  exact Bool.false_ne_true (hdigit.symm.trans hdigit')

theorem isNameStart_of_isNumeralChar {c : Char} (h : isNumeralChar c = true) :
    isNameStart c = false := by
  rw [Bool.eq_false_iff]
  intro hname
  exact Bool.false_ne_true ((isNumeralChar_of_isNameStart hname).symm.trans h)

/-- A positional text has digits and at most a point among them. -/
theorem isNumeral_positional (n places : Nat) :
    (∀ c ∈ Decimal.positional n places, isNameStart c = false) ∧
      ∃ c ∈ Decimal.positional n places, c.isDigit = true := by
  constructor
  · intro c hc
    refine isNameStart_of_isNumeralChar ?_
    rcases Decimal.mem_positional hc with hdigit | rfl
    · simp [isNumeralChar, hdigit]
    · rfl
  · obtain ⟨l, hchars, -⟩ := Decimal.exists_literal_positional n places
    obtain ⟨c, rest, hsplit, hc⟩ := l.exists_head
    rw [← hchars, hsplit]
    rcases hc with hdigit | ⟨-, hdigit⟩
    · exact ⟨c, List.mem_cons_self, hdigit⟩
    · obtain ⟨d, hd, hdigit⟩ := (Option.any_eq_true ..).mp hdigit
      exact ⟨d, List.mem_cons_of_mem c (List.mem_of_mem_head? hd), hdigit⟩

/-- The text of a finite number has digits, and besides them only a sign and a point. -/
theorem isNumeric_text {x : Float} (h : x.isFinite = true) : IsNumeric (NumberText.text x) := by
  have hlt := Binary64.isFinite_iff.mp h
  have hnan : ¬ x.isNaN = true := by
    rw [Bool.not_eq_true, Binary64.isNaN_eq_false_iff]
    exact Nat.le_of_lt hlt
  have hinf : ¬ x.isInf = true := by
    rw [Binary64.isInf_iff]
    exact Nat.ne_of_lt hlt
  have hdigits : (∀ c ∈ if Binary64.magnitude x = 0 then ['0']
        else (Decimal.shortest (Binary64.magnitude x)).text, isNameStart c = false) ∧
      ∃ c ∈ if Binary64.magnitude x = 0 then ['0']
        else (Decimal.shortest (Binary64.magnitude x)).text, c.isDigit = true := by
    split
    · exact ⟨List.forall_mem_singleton.mpr (isNameStart_of_isNumeralChar rfl), '0',
        List.mem_cons_self, rfl⟩
    · exact isNumeral_positional _ _
  change IsNumeric (Binary64.text x)
  rw [Binary64.text, Binary64.textWith, if_neg hnan, if_neg hinf]
  dsimp only
  generalize (if Binary64.magnitude x = 0 then ['0']
    else (Decimal.shortest (Binary64.magnitude x)).text) = digits at hdigits
  obtain ⟨hall, d, hd, hdigit⟩ := hdigits
  cases Binary64.isNegative x with
  | true =>
    refine ⟨fun c hc => ?_, d, by simp [hd], hdigit⟩
    obtain rfl : '-' = c := by simpa using hc
    decide
  | false =>
    refine ⟨fun c hc => hall c ?_, d, by simpa using hd, hdigit⟩
    exact List.mem_of_mem_head? (by simpa using hc)

/-! ### Words of tokens -/

/-- The word of an operand starts like a numeral, or it is a name that the vocabulary does not hold;
the name of a symbol is no number. -/
def IsLegibleToken (v : Vocabulary α) : Token → Prop
  | .operand word =>
    word.toList.head?.any isNumeralChar = true ∨ (IsSymbolic word ∧ v.get? word = none)
  | .operator name => IsSymbolic name
  | .function name => IsSymbolic name
  | _ => True

variable {v : Vocabulary α}

theorem get?_eq_none_of_kinds {name : String} (hfunction : v.isFunction name = false)
    (hoperator : v.isOperator name = false) : v.get? name = none := by
  cases hget : v.get? name with
  | none => rfl
  | some e =>
    cases hkind : e.kind <;>
      simp [Vocabulary.isFunction, Vocabulary.isOperator, hget, Element.isFunction,
        Element.isOperator, hkind] at hfunction hoperator

theorem legible_nameToken {name : String} {after : List Char} {token : Token}
    (hname : isIdentifier name = true) (h : nameToken v name after = .ok token) :
    IsLegibleToken v token := by
  have hsymbolic := isSymbolic_of_isIdentifier hname
  unfold nameToken at h
  split at h
  · cases h
    exact hsymbolic
  · next hfunction =>
    split at h
    · cases h
      exact hsymbolic
    · next hoperator =>
      split at h <;> cases h
      exact .inr ⟨hsymbolic, get?_eq_none_of_kinds (by simpa using hfunction)
        (by simpa using hoperator)⟩

theorem legible_symbolToken {previous : Option Token} {c : Char} {token : Token}
    (hblank : isBlank c = false) (hdigit : c.isDigit = false)
    (h : symbolToken v previous c = .ok token) : IsLegibleToken v token := by
  unfold symbolToken at h
  split at h
  · cases h; trivial
  · split at h
    · cases h; trivial
    · split at h
      · cases h; trivial
      · split at h <;> cases h
        change IsSymbolic (if c = '-' ∧ operandDue previous then "~" else c.toString)
        split
        · exact isSymbolic_of_char (c := '~') (by decide) (by decide)
        · exact isSymbolic_of_char hblank hdigit

theorem legible_nextToken {previous : Option Token} {c : Char} {rest : List Char} {token : Token}
    {length : Nat} (hblank : isBlank c = false)
    (h : nextToken v previous c rest = .ok (token, length)) : IsLegibleToken v token := by
  unfold nextToken at h
  split at h
  · next hnumeral =>
    cases h
    refine .inl ?_
    simp only [startsNumeral, Bool.or_eq_true, Bool.and_eq_true] at hnumeral
    rcases hnumeral with hdigit | hpoint
    · simp [isNumeralChar, hdigit]
    · simp [isNumeralChar, hpoint.1]
  · next hnumeral =>
    split at h
    · next hname =>
      obtain ⟨named, hnamed, h⟩ := exists_of_bind_eq_ok h
      cases h
      refine legible_nameToken ?_ hnamed
      simp [isIdentifier, hname]
    · obtain ⟨symbol, hsymbol, h⟩ := exists_of_bind_eq_ok h
      cases h
      refine legible_symbolToken hblank ?_ hsymbol
      simp only [startsNumeral, Bool.or_eq_true, not_or, Bool.not_eq_true] at hnumeral
      exact hnumeral.1

theorem legible_of_tokensAfter {previous : Option Token} {text : List Char} {tokens : List Token}
    (h : tokensAfter v previous text = .ok tokens) : ∀ token ∈ tokens, IsLegibleToken v token := by
  induction tokens generalizing previous text with
  | nil => exact List.forall_mem_nil _
  | cons token tokens ih =>
    obtain ⟨blanks, c, tail, after, -, -, hword, htoken, -, hafter⟩ := exists_of_tokensAfter h
    have hblank : isBlank c = false := hword.isBlank c (by simp)
    exact List.forall_mem_cons.mpr ⟨legible_nextToken hblank htoken, ih hafter⟩

/-! ### Words of trees -/

namespace Node

/-- The numbers from left to right. -/
def constants : Node α → List α
  | .constant value => [value]
  | .var _ => []
  | .unary _ operand => operand.constants
  | .binary _ left right => left.constants ++ right.constants

theorem constant_mem_leaves {x : Node α} {value : α} :
    .constant value ∈ x.leaves ↔ value ∈ x.constants := by
  induction x with
  | constant other => simp [leaves, constants]
  | var name => simp [leaves, constants]
  | unary element operand ih => exact ih
  | binary element left right ihl ihr => simp [leaves, constants, ihl, ihr]

/-- The tree with the operands of each element in the opposite order. -/
def mirror : Node α → Node α
  | .constant value => .constant value
  | .var name => .var name
  | .unary element operand => .unary element operand.mirror
  | .binary element left right => .binary element right.mirror left.mirror

theorem mirror_mirror (x : Node α) : x.mirror.mirror = x := by
  induction x with
  | constant value => rfl
  | var name => rfl
  | unary element operand ih => rw [mirror, mirror, ih]
  | binary element left right ihl ihr => rw [mirror, mirror, ihl, ihr]

variable [NumberText α]

/-- The word of the root. -/
def label : Node α → String
  | .constant value => NumberText.text value
  | .var name => name
  | .unary element _ => element.name
  | .binary element _ _ => element.name

def prefixWords : Node α → List String
  | .constant value => [NumberText.text value]
  | .var name => [name]
  | .unary element operand => element.name :: operand.prefixWords
  | .binary element left right => element.name :: (left.prefixWords ++ right.prefixWords)

theorem prefixWords_ne_nil (x : Node α) : x.prefixWords ≠ [] := by
  cases x <;> exact List.cons_ne_nil _ _

theorem prefixText_eq (x : Node α) : x.prefixText = unwords x.prefixWords := by
  induction x with
  | constant value => simp [prefixText, prefixWords, unwords]
  | var name => simp [prefixText, prefixWords, unwords]
  | unary element operand ih =>
    rw [prefixText, prefixWords, unwords_cons _ operand.prefixWords_ne_nil, ih]
    rfl
  | binary element left right ihl ihr =>
    rw [prefixText, prefixWords, unwords_cons _ (by simp [prefixWords_ne_nil]),
      unwords_append left.prefixWords_ne_nil right.prefixWords_ne_nil, ihl, ihr]
    simp only [String.append_assoc]
    rfl

theorem postfixText_eq (x : Node α) : x.postfixText = unwords x.mirror.prefixWords.reverse := by
  have hne : ∀ x : Node α, x.mirror.prefixWords.reverse ≠ [] := by simp [prefixWords_ne_nil]
  induction x with
  | constant value => simp [postfixText, mirror, prefixWords, unwords]
  | var name => simp [postfixText, mirror, prefixWords, unwords]
  | unary element operand ih =>
    rw [postfixText, mirror, prefixWords, List.reverse_cons,
      unwords_append (hne operand) (List.cons_ne_nil _ _), ih]
    rfl
  | binary element left right ihl ihr =>
    have hoperands : left.mirror.prefixWords.reverse ++ right.mirror.prefixWords.reverse ≠ [] :=
      List.append_ne_nil_of_left_ne_nil (hne left) _
    rw [postfixText, mirror, prefixWords, List.reverse_cons, List.reverse_append,
      unwords_append hoperands (List.cons_ne_nil _ _), unwords_append (hne left) (hne right),
      ihl, ihr]
    rfl

/-- The tree has finite numbers that are read back from their texts, variables that the vocabulary
does not hold, and elements of the vocabulary with just the operands that they take. -/
def IsLegible (v : Vocabulary α) : Node α → Prop
  | .constant value => IsNumeric (NumberText.text value) ∧ ReadsBack value
  | .var name => IsSymbolic name ∧ v.get? name = none
  | .unary element operand =>
    IsSymbolic element.name ∧ v.get? element.name = some element ∧ element.arity = 1 ∧
      operand.IsLegible v
  | .binary element left right =>
    IsSymbolic element.name ∧ v.get? element.name = some element ∧ element.arity = 2 ∧
      left.IsLegible v ∧ right.IsLegible v

/-- The two trees have the same root with as many operands. -/
inductive SameRoot : Node α → Node α → Prop
  | constant (value : α) : SameRoot (.constant value) (.constant value)
  | var (name : String) : SameRoot (.var name) (.var name)
  | unary (element : Element α) (operand operand' : Node α) :
      SameRoot (.unary element operand) (.unary element operand')
  | binary (element : Element α) (left right left' right' : Node α) :
      SameRoot (.binary element left right) (.binary element left' right')

/-- The element of the root and the number of its operands, if it has any. -/
def root? : Node α → Option (Element α × Nat)
  | .constant _ => none
  | .var _ => none
  | .unary element _ => some (element, 1)
  | .binary element _ _ => some (element, 2)

namespace IsLegible

variable {x y : Node α}

theorem mirror (h : x.IsLegible v) : x.mirror.IsLegible v := by
  induction x with
  | constant value => exact h
  | var name => exact h
  | unary element operand ih =>
    obtain ⟨hname, hget, harity, hoperand⟩ := h
    exact ⟨hname, hget, harity, ih hoperand⟩
  | binary element left right ihl ihr =>
    obtain ⟨hname, hget, harity, hleft, hright⟩ := h
    exact ⟨hname, hget, harity, ihr hright, ihl hleft⟩

theorem isWord_of_mem (h : x.IsLegible v) : ∀ word ∈ x.prefixWords, IsWord word := by
  induction x with
  | constant value => exact List.forall_mem_singleton.mpr h.2.isWord
  | var name => exact List.forall_mem_singleton.mpr h.1.isWord
  | unary element operand ih =>
    obtain ⟨hname, -, -, hoperand⟩ := h
    exact List.forall_mem_cons.mpr ⟨hname.isWord, ih hoperand⟩
  | binary element left right ihl ihr =>
    obtain ⟨hname, -, -, hleft, hright⟩ := h
    exact List.forall_mem_cons.mpr
      ⟨hname.isWord, List.forall_mem_append.mpr ⟨ihl hleft, ihr hright⟩⟩

/-- Only numbers have the words of numbers. -/
theorem exists_constant (h : x.IsLegible v) (hnumeric : IsNumeric x.label) :
    ∃ value, x = .constant value ∧ ReadsBack value := by
  cases x with
  | constant value => exact ⟨value, rfl, h.2⟩
  | var name => exact absurd hnumeric h.1.not_isNumeric
  | unary element operand => exact absurd hnumeric h.1.not_isNumeric
  | binary element left right => exact absurd hnumeric h.1.not_isNumeric

/-- The vocabulary tells elements from variables, and how many operands they have. -/
theorem root?_eq (h : x.IsLegible v) (hnumeric : ¬ IsNumeric x.label) :
    x.root? = (v.get? x.label).map fun element => (element, element.arity) := by
  cases x with
  | constant value => exact absurd h.1 hnumeric
  | var name => simp only [root?, label, h.2, Option.map_none]
  | unary element operand =>
    obtain ⟨-, hget, harity, -⟩ := h
    simp only [root?, label, hget, Option.map_some, harity]
  | binary element left right =>
    obtain ⟨-, hget, harity, -⟩ := h
    simp only [root?, label, hget, Option.map_some, harity]

/-- The word of the root tells what the root is. -/
theorem sameRoot (hx : x.IsLegible v) (hy : y.IsLegible v) (h : x.label = y.label) :
    SameRoot x y := by
  by_cases hnumeric : IsNumeric x.label
  · obtain ⟨value, rfl, hback⟩ := hx.exists_constant hnumeric
    rw [h] at hnumeric
    obtain ⟨value', rfl, hback'⟩ := hy.exists_constant hnumeric
    have hread := hback.read?
    rw [show NumberText.text value = NumberText.text value' from h, hback'.read?] at hread
    obtain rfl := Option.some.inj hread
    exact .constant _
  · have hnumeric' : ¬ IsNumeric y.label := h ▸ hnumeric
    have hroot : x.root? = y.root? := by rw [hx.root?_eq hnumeric, hy.root?_eq hnumeric', h]
    cases x with
    | constant value => exact absurd hx.1 hnumeric
    | var name =>
      cases y with
      | constant value => exact absurd hy.1 hnumeric'
      | var name' =>
        obtain rfl : name = name' := h
        exact .var name
      | unary element operand => cases hroot
      | binary element left right => cases hroot
    | unary element operand =>
      cases y with
      | unary element' operand' =>
        cases hroot
        exact .unary ..
      | constant value => cases hroot
      | var name => cases hroot
      | binary element' left right => cases hroot
    | binary element left right =>
      cases y with
      | binary element' left' right' =>
        cases hroot
        exact .binary ..
      | constant value => cases hroot
      | var name => cases hroot
      | unary element' operand => cases hroot

end IsLegible

theorem label_eq_of_prefixWords {x y : Node α} {after after' : List String}
    (h : x.prefixWords ++ after = y.prefixWords ++ after') : x.label = y.label := by
  have hhead : ∀ (x : Node α) (after : List String),
      (x.prefixWords ++ after).head? = some x.label := by
    intro x after
    cases x <;> rfl
  have hheads := congrArg List.head? h
  rw [hhead, hhead] at hheads
  exact Option.some.inj hheads

/-- Unique reading: the words of a tree tell the tree and where it ends. -/
theorem IsLegible.prefixWords_append_inj {x y : Node α} (hx : x.IsLegible v) (hy : y.IsLegible v)
    {after after' : List String} (h : x.prefixWords ++ after = y.prefixWords ++ after') :
    x = y ∧ after = after' := by
  induction x generalizing y after after' with
  | constant value =>
    cases hx.sameRoot hy (label_eq_of_prefixWords h)
    exact ⟨rfl, List.append_cancel_left h⟩
  | var name =>
    cases hx.sameRoot hy (label_eq_of_prefixWords h)
    exact ⟨rfl, List.append_cancel_left h⟩
  | unary element operand ih =>
    cases hx.sameRoot hy (label_eq_of_prefixWords h) with
    | unary _ _ operand' =>
      obtain ⟨-, -, -, hoperand⟩ := hx
      obtain ⟨-, -, -, hoperand'⟩ := hy
      simp only [prefixWords, List.cons_append, List.cons.injEq, true_and] at h
      obtain ⟨rfl, hafter⟩ := ih hoperand hoperand' h
      exact ⟨rfl, hafter⟩
  | binary element left right ihl ihr =>
    cases hx.sameRoot hy (label_eq_of_prefixWords h) with
    | binary _ _ _ left' right' =>
      obtain ⟨-, -, -, hleft, hright⟩ := hx
      obtain ⟨-, -, -, hleft', hright'⟩ := hy
      simp only [prefixWords, List.cons_append, List.append_assoc, List.cons.injEq,
        true_and] at h
      obtain ⟨rfl, hrest⟩ := ihl hleft hleft' h
      obtain ⟨rfl, hafter⟩ := ihr hright hright' hrest
      exact ⟨rfl, hafter⟩

theorem IsLegible.eq_of_prefixText {x y : Node α} (hx : x.IsLegible v) (hy : y.IsLegible v)
    (h : x.prefixText = y.prefixText) : x = y := by
  have hwords := congrArg words h
  rw [prefixText_eq, prefixText_eq, words_unwords hx.isWord_of_mem,
    words_unwords hy.isWord_of_mem] at hwords
  exact (hx.prefixWords_append_inj hy (congrArg (· ++ []) hwords)).1

theorem IsLegible.eq_of_postfixText {x y : Node α} (hx : x.IsLegible v) (hy : y.IsLegible v)
    (h : x.postfixText = y.postfixText) : x = y := by
  have hwords := congrArg words h
  rw [postfixText_eq, postfixText_eq,
    words_unwords fun word hword => hx.mirror.isWord_of_mem word (List.mem_reverse.mp hword),
    words_unwords fun word hword => hy.mirror.isWord_of_mem word (List.mem_reverse.mp hword),
    List.reverse_inj] at hwords
  have hmirror : x.mirror = y.mirror :=
    (hx.mirror.prefixWords_append_inj hy.mirror (congrArg (· ++ []) hwords)).1
  rw [← x.mirror_mirror, hmirror, y.mirror_mirror]

end Node

/-! ### Formulas that were read -/

/-- A tree is legible if its leaves and its elements are, and each element has just the operands
that it takes. -/
theorem isLegible_of_parts [NumberText α] {x : Node α} (hsaturated : x.IsSaturated)
    (hleaves : ∀ y ∈ x.leaves, y.IsLegible v)
    (helements : ∀ e ∈ x.elements, IsSymbolic e.name ∧ v.get? e.name = some e) :
    x.IsLegible v := by
  induction x with
  | constant value => exact hleaves _ List.mem_cons_self
  | var name => exact hleaves _ List.mem_cons_self
  | unary element operand ih =>
    obtain ⟨harity, hoperand⟩ := hsaturated
    obtain ⟨⟨hname, hget⟩, helements⟩ := List.forall_mem_cons.mp helements
    exact ⟨hname, hget, harity, ih hoperand hleaves helements⟩
  | binary element left right ihl ihr =>
    obtain ⟨harity, hleft, hright⟩ := hsaturated
    obtain ⟨⟨hname, hget⟩, helements⟩ := List.forall_mem_cons.mp helements
    obtain ⟨hleaves, hleaves'⟩ := List.forall_mem_append.mp hleaves
    obtain ⟨helements, helements'⟩ := List.forall_mem_append.mp helements
    exact ⟨hname, hget, harity, ihl hleft hleaves helements, ihr hright hleaves' helements'⟩

theorem isLegible_of_leaf {v : Vocabulary Float} {word : String} {x : Node Float}
    (hword : IsLegibleToken v (.operand word)) (h : leaf word = .ok x)
    (hfinite : ∀ value, x = .constant value → value.isFinite = true) : x.IsLegible v := by
  unfold leaf at h
  split at h
  · split at h <;> cases h
    next value _ => exact ⟨isNumeric_text (hfinite value rfl), Binary64.readsBack value⟩
  · next hstart =>
    cases h
    exact hword.resolve_left hstart

/-- A formula that was read has a legible tree, if its numbers are finite. -/
theorem isLegible_of_parseWith {v : Vocabulary Float} {text : String} {f : Formula Float}
    (h : parseWith v text = .ok f) (hfinite : ∀ value ∈ f.root.constants, value.isFinite = true) :
    f.root.IsLegible v := by
  obtain ⟨toks, htokens, hleaves, helements⟩ := exists_tokens_of_parseWith h
  have hlegible := legible_of_tokensAfter htokens
  refine isLegible_of_parts (isSaturated_of_parseWith h) (fun y hy => ?_) (fun e he => ?_)
  · obtain ⟨word, hword, hleaf⟩ := exists_of_forall₂ hleaves.flip y hy
    obtain ⟨token, htoken, hword⟩ := List.mem_filterMap.mp hword
    refine isLegible_of_leaf ?_ hleaf fun value hvalue => ?_
    · cases token <;> cases hword
      exact hlegible _ htoken
    · exact hfinite value (Node.constant_mem_leaves.mp (hvalue ▸ hy))
  · have hmem := helements.subset (List.mem_map_of_mem he)
    obtain ⟨name, hname, hget⟩ := List.mem_map.mp hmem
    obtain ⟨token, htoken, hname⟩ := List.mem_filterMap.mp hname
    obtain rfl := Vocabulary.name_of_get? hget
    refine ⟨?_, hget⟩
    cases token <;> cases hname
    · exact hlegible _ htoken
    · exact hlegible _ htoken

/-- Two formulas that were read with one vocabulary, and have finite numbers only, have the same
text in postfix order or in prefix order only if their trees are the same; so they have the same
values. -/
theorem root_eq_of_texts {v : Vocabulary Float} {text text' : String} {f f' : Formula Float}
    (h : parseWith v text = .ok f) (h' : parseWith v text' = .ok f')
    (hfinite : ∀ value ∈ f.root.constants, value.isFinite = true)
    (hfinite' : ∀ value ∈ f'.root.constants, value.isFinite = true)
    (htexts : f.root.postfixText = f'.root.postfixText ∨ f.root.prefixText = f'.root.prefixText) :
    f.root = f'.root ∧ ∀ (residents : List (String × Float)) (ε : Float)
      (bindings : List (String × Float)),
      (f.setVariables residents).evaluate ε bindings =
        (f'.setVariables residents).evaluate ε bindings := by
  have hlegible := isLegible_of_parseWith h hfinite
  have hlegible' := isLegible_of_parseWith h' hfinite'
  have hroot : f.root = f'.root := by
    rcases htexts with hpost | hpre
    · exact hlegible.eq_of_postfixText hlegible' hpost
    · exact hlegible.eq_of_prefixText hlegible' hpre
  refine ⟨hroot, fun residents ε bindings => ?_⟩
  rw [evaluate_setVariables h, evaluate_setVariables h', hroot]

/-- Two texts of one formula: spaces, parentheses and the way a number is written are not in the
tree. -/
theorem root_eq_of_texts_scaled : ∃ f f' : Formula Float,
    parse "-x + 2.50 * y" = .ok f ∧ parse "(~ x)+(25e-1*y)" = .ok f' ∧
      f.root.postfixText = "x ~ 2.5 y * +" ∧ f.root.prefixText = "+ ~ x * 2.5 y" ∧
      f.root = f'.root ∧ ∀ (residents : List (String × Float)) (ε : Float)
        (bindings : List (String × Float)), (f.setVariables residents).evaluate ε bindings =
          (f'.setVariables residents).evaluate ε bindings := by
  have hread : ∀ text ∈ ["-x + 2.50 * y", "(~ x)+(25e-1*y)"],
      (parse text).map (fun f : Formula Float =>
        (f.root.postfixText, f.root.prefixText, f.root.constants.all Float.isFinite)) =
          .ok ("x ~ 2.5 y * +", "+ ~ x * 2.5 y", true) := by
    decide +kernel
  obtain ⟨f, hf, htexts⟩ := exists_of_map_eq_ok (hread "-x + 2.50 * y" (by decide))
  obtain ⟨f', hf', htexts'⟩ := exists_of_map_eq_ok (hread "(~ x)+(25e-1*y)" (by decide))
  simp only [Prod.mk.injEq, List.all_eq_true] at htexts htexts'
  obtain ⟨hpost, hpre, hfinite⟩ := htexts
  obtain ⟨hpost', -, hfinite'⟩ := htexts'
  obtain ⟨hroot, hevaluate⟩ := root_eq_of_texts hf hf' hfinite hfinite'
    (.inl (hpost.trans hpost'.symm))
  exact ⟨f, f', hf, hf', hpost, hpre, hroot, hevaluate⟩

end FuzzyInference.Formula
