import FuzzyInference.Proofs.Formula.Builtin
import FuzzyInference.Proofs.Infix.Phrase

/-!
The grammar of formulas over the built-in vocabulary, and reading what it derives. A derivation
names the level of its phrase, its words and its tree. Three readers share the work: the words
become tokens, the tokens are brought into postfix order, and the postfix items build the tree.
-/
namespace FuzzyInference.Formula

open Infix Text

/-- How loosely the phrases of the grammar bind, the loosest first. -/
inductive Level where
  | disjunction
  | conjunction
  | sum
  | product
  | power
  | unary
  | atom
  deriving DecidableEq

namespace Level

/-- The next tighter level. -/
def tighter : Level → Level
  | disjunction => conjunction
  | conjunction => sum
  | sum => product
  | product => power
  | power => unary
  | unary => atom
  | atom => atom

/-- The symbols that stand between the two operands of a phrase. -/
def symbols : Level → List String
  | disjunction => ["or"]
  | conjunction => ["and"]
  | sum => ["+", "-"]
  | product => ["*", "/", "%"]
  | power => ["^"]
  | unary => []
  | atom => []

def associativity : Level → Associativity
  | sum => .left
  | product => .left
  | _ => .right

/-- The level of a left operand. -/
def left (level : Level) : Level :=
  match level.associativity with
  | .left => level
  | .right => level.tighter

/-- The level of a right operand. -/
def right (level : Level) : Level :=
  match level.associativity with
  | .left => level.tighter
  | .right => level

end Level

/-- The symbols that stand before an operand. -/
def prefixes : List String := ["!", "~", "-"]

/-- The element that a symbol before an operand stands for. -/
def prefixName (symbol : String) : String := if symbol = "-" then "~" else symbol

variable {α : Type}

/-- The phrases of each level; literals have the given values. Parentheses leave no trace in the
tree, and a call has as many arguments as its function has places. -/
inductive Derives [Elementary α] (value : Numeral.Literal → α) : Level → List String → Node α → Prop
  | literal (l : Numeral.Literal) : Derives value .atom [l.text] (.constant (value l))
  | name {name : String} (hname : isIdentifier name = true)
      (hnew : (builtin : Vocabulary α).get? name = none) : Derives value .atom [name] (.var name)
  | group {words : List String} {x : Node α} :
      Derives value .disjunction words x → Derives value .atom ("(" :: words ++ [")"]) x
  | call {name : String} {f : Element α} {words : List String} {x : Node α}
      (hf : (builtin : Vocabulary α).get? name = some f) (hkind : f.isFunction = true)
      (harity : f.arity = 1) :
      Derives value .disjunction words x →
      Derives value .atom (name :: "(" :: words ++ [")"]) (.unary f x)
  | callTwo {name : String} {f : Element α} {words words' : List String} {x y : Node α}
      (hf : (builtin : Vocabulary α).get? name = some f) (hkind : f.isFunction = true)
      (harity : f.arity = 2) :
      Derives value .disjunction words x → Derives value .disjunction words' y →
      Derives value .atom (name :: "(" :: (words ++ "," :: words') ++ [")"]) (.binary f x y)
  | unary {symbol : String} {o : Element α} {words : List String} {x : Node α}
      (hsymbol : symbol ∈ prefixes)
      (ho : (builtin : Vocabulary α).get? (prefixName symbol) = some o) :
      Derives value .unary words x → Derives value .unary (symbol :: words) (.unary o x)
  | binary {level : Level} {symbol : String} {o : Element α} {words words' : List String}
      {x y : Node α} (hsymbol : symbol ∈ level.symbols)
      (ho : (builtin : Vocabulary α).get? symbol = some o) :
      Derives value level.left words x → Derives value level.right words' y →
      Derives value level (words ++ symbol :: words') (.binary o x y)
  | tighter {level : Level} {words : List String} {x : Node α} :
      Derives value level.tighter words x → Derives value level words x

/-! ### Places between operators -/

namespace Level

def precedence : Level → Int
  | disjunction => 50
  | conjunction => 60
  | sum => 70
  | product => 80
  | power => 90
  | unary => 100
  | atom => 110

/-- The element is an operator that binds as the level does. -/
structure Has (level : Level) (o : Element α) : Prop where
  kind : o.kind = .operator
  precedence : o.precedence = level.precedence
  associativity : o.associativity = level.associativity

theorem Has.isOperator {level : Level} {o : Element α} (h : level.Has o) :
    (Symbol.fixity o).isOperator = true := by
  simp [Symbol.fixity, Fixity.isOperator, h.kind]

theorem tighter_eq_or_lt (level : Level) :
    level.tighter = level ∨ level.precedence < level.tighter.precedence := by
  cases level <;> decide

theorem lt_tighter {level : Level} (h : level.symbols ≠ []) :
    level.precedence < level.tighter.precedence := by
  cases level <;> first | decide | exact absurd rfl h

/-- A phrase of the level can stand between the two operators. -/
structure Fits (level : Level) (left right : Option (Element α)) : Prop where
  left : ∀ l ∈ left, l.precedence < level.precedence ∨
    (l.precedence = level.precedence ∧ level.associativity = .right)
  right : ∀ r ∈ right, r.precedence < level.precedence ∨
    (r.precedence = level.precedence ∧ r.associativity = .left)

theorem fits_none (level : Level) : level.Fits (none : Option (Element α)) none :=
  ⟨by simp, by simp⟩

namespace Fits

variable {level : Level} {left right : Option (Element α)} {o : Element α}

theorem tighter (h : level.Fits left right) : level.tighter.Fits left right := by
  rcases level.tighter_eq_or_lt with heq | hlt
  · rwa [heq]
  · refine ⟨fun l hl => Or.inl ?_, fun r hr => Or.inl ?_⟩
    · rcases h.left l hl with h | ⟨h, -⟩ <;> omega
    · rcases h.right r hr with h | ⟨h, -⟩ <;> omega

theorem waits (h : level.Fits left right) (ho : level.Has o) : Waits left o := by
  intro l hl
  have hl := h.left l hl
  simp only [Fixity.yieldsTo, Symbol.fixity, ho.precedence, ho.associativity,
    Bool.and_eq_false_iff]
  refine Or.inr ?_
  cases hassociativity : level.associativity with
  | left =>
    simp only [hassociativity, reduceCtorEq, and_false, or_false] at hl
    simpa using hl
  | right =>
    have hle : l.precedence ≤ level.precedence := by omega
    simpa using hle

theorem yields (h : level.Fits left right) (ho : level.Has o) : Yields o right := by
  intro r hr
  have hr := h.right r hr
  rw [Fixity.yieldsTo, ho.isOperator, Bool.true_and]
  simp only [Symbol.fixity, ho.precedence]
  cases hassociativity : r.associativity with
  | left =>
    have hle : r.precedence ≤ level.precedence := by omega
    simpa using hle
  | right =>
    simp only [hassociativity, reduceCtorEq, and_false, or_false] at hr
    simpa using hr

/-- The place of the left operand of an operator. -/
theorem before (h : level.Fits left right) (ho : level.Has o) (hsymbols : level.symbols ≠ []) :
    level.left.Fits left (some o) := by
  unfold Level.left
  split
  · next hassociativity =>
    refine ⟨h.left, ?_⟩
    rintro r ⟨rfl⟩
    exact Or.inr ⟨ho.precedence, ho.associativity.trans hassociativity⟩
  · refine ⟨h.tighter.left, ?_⟩
    rintro r ⟨rfl⟩
    exact Or.inl (ho.precedence ▸ lt_tighter hsymbols)

/-- The place of the right operand of an operator. -/
theorem after (h : level.Fits left right) (ho : level.Has o) :
    level.right.Fits (some o) right := by
  unfold Level.right
  split
  · next hassociativity =>
    refine ⟨?_, h.tighter.right⟩
    rintro l ⟨rfl⟩
    have hsymbols : level.symbols ≠ [] := by
      cases level <;> simp_all [Level.associativity, Level.symbols]
    exact Or.inl (ho.precedence ▸ lt_tighter hsymbols)
  · next hassociativity =>
    refine ⟨?_, h.right⟩
    rintro l ⟨rfl⟩
    exact Or.inr ⟨ho.precedence, hassociativity⟩

end Fits

end Level

/-! ### Building the tree -/

section Tree

variable [NumberText α]

/-- The items build the tree on top of the trees that are there. -/
def Builds (items : List (Item (Element α))) (x : Node α) : Prop :=
  ∀ trees, items.foldlM pushItem trees = .ok (x :: trees)

theorem builds_literal {l : Numeral.Literal} {value : α}
    (h : NumberText.read? l.text = some value) : Builds [.operand l.text] (.constant value) := by
  intro trees
  obtain ⟨c, rest, hchars, hc⟩ := l.exists_head
  have hstart : isNumeralChar c = true := by
    rcases hc with hc | ⟨rfl, -⟩ <;> simp [isNumeralChar, *]
  have hleaf : (leaf l.text : Except ParseError (Node α)) = .ok (.constant value) := by
    simp [leaf, hchars, hstart, h]
  simp only [List.foldlM_cons, pushItem, hleaf]
  rfl

theorem builds_name {name : String} (h : isIdentifier name = true) :
    Builds ([.operand name] : List (Item (Element α))) (.var name) := by
  intro trees
  have hleaf : (leaf name : Except ParseError (Node α)) = .ok (.var name) := by
    unfold isIdentifier at h
    split at h
    · exact absurd h Bool.false_ne_true
    · next c tail hlist =>
      have hc := isNumeralChar_of_isNameStart (Bool.and_eq_true_iff.mp h).1
      simp [leaf, hlist, hc]
  simp only [List.foldlM_cons, pushItem, hleaf]
  rfl

theorem Builds.unary {items : List (Item (Element α))} {o : Element α} {x : Node α}
    (h : Builds items x) (harity : o.arity = 1) : Builds (items ++ [.symbol o]) (.unary o x) := by
  intro trees
  have hpush : pushItem (x :: trees) (.symbol o) = .ok (.unary o x :: trees) := by
    unfold Element.arity at harity
    cases hmethod : o.method with
    | unary apply => simp [pushItem, hmethod]
    | binary apply => simp [hmethod, Method.arity] at harity
  rw [List.foldlM_append, h trees]
  change [Item.symbol o].foldlM pushItem (x :: trees) = _
  rw [List.foldlM_cons, hpush]
  rfl

theorem Builds.binary {items items' : List (Item (Element α))} {o : Element α} {x y : Node α}
    (h : Builds items x) (h' : Builds items' y) (harity : o.arity = 2) :
    Builds (items ++ items' ++ [.symbol o]) (.binary o x y) := by
  intro trees
  have hpush : pushItem (y :: x :: trees) (.symbol o) = .ok (.binary o x y :: trees) := by
    unfold Element.arity at harity
    cases hmethod : o.method with
    | unary apply => simp [hmethod, Method.arity] at harity
    | binary apply => simp [pushItem, hmethod]
  rw [List.append_assoc, List.foldlM_append, h trees]
  change (items' ++ [Item.symbol o]).foldlM pushItem (x :: trees) = _
  rw [List.foldlM_append, h' (x :: trees)]
  change [Item.symbol o].foldlM pushItem (y :: x :: trees) = _
  rw [List.foldlM_cons, hpush]
  rfl

/-- A text has a tree if its tokens have a postfix order that leaves just one. -/
theorem tree_eq_ok_iff {v : Vocabulary α} {text : String} {x : Node α} :
    tree v text = .ok x ↔ ∃ toks items, tokens v text = .ok toks ∧
      toPostfix v.get? text toks = .ok items ∧ items.foldlM pushItem [] = .ok [x] := by
  constructor
  · intro h
    obtain ⟨toks, htokens, h⟩ := exists_of_bind_eq_ok h
    split at h
    · cases h
    · obtain ⟨items, hitems, h⟩ := exists_of_bind_eq_ok h
      obtain ⟨trees, htrees, h⟩ := exists_of_bind_eq_ok h
      split at h <;> cases h
      exact ⟨toks, items, eq_ok_of_mapError htokens, hitems, eq_ok_of_mapError htrees⟩
  · rintro ⟨toks, items, htokens, hitems, htrees⟩
    have hnonempty : toks ≠ [] := by
      rintro rfl
      cases hitems
      cases htrees
    have htokens : (tokens v text).mapError Error.parse = .ok toks :=
      congrArg (Except.mapError Error.parse) htokens
    have htrees : (items.foldlM pushItem []).mapError Error.parse = .ok [x] :=
      congrArg (Except.mapError Error.parse) htrees
    simp only [tree, htokens, hitems, htrees, hnonempty, if_false, bind, Except.bind]
    rfl

theorem parseWith_of_tree {v : Vocabulary α} {text : String} {x : Node α}
    (h : tree v text = .ok x) : parseWith v text = .ok { text := trim text, root := x } := by
  rw [parseWith, h]
  rfl

end Tree

/-! ### The built-in operators -/

variable [Elementary α]

namespace Level

theorem fixity_of_mem_symbols (level : Level) : ∀ p ∈ fixities, p.1 ∈ level.symbols →
    p.2 = ⟨.operator, 2, level.precedence, level.associativity⟩ := by
  cases level <;> decide +kernel

theorem has_of_mem_symbols {level : Level} {symbol : String} {o : Element α}
    (hsymbol : symbol ∈ level.symbols) (ho : (builtin : Vocabulary α).get? symbol = some o) :
    level.Has o ∧ o.arity = 2 := by
  have hfixity := level.fixity_of_mem_symbols _ (mem_fixities ho) hsymbol
  simp only [Symbol.fixity, Fixity.mk.injEq] at hfixity
  obtain ⟨hkind, harity, hprecedence, hassociativity⟩ := hfixity
  exact ⟨⟨hkind, hprecedence, hassociativity⟩, harity⟩

theorem fixity_of_mem_prefixes : ∀ p ∈ fixities, ∀ symbol ∈ prefixes, p.1 = prefixName symbol →
    p.2 = ⟨.operator, 1, unary.precedence, unary.associativity⟩ := by
  decide +kernel

theorem has_of_mem_prefixes {symbol : String} {o : Element α} (hsymbol : symbol ∈ prefixes)
    (ho : (builtin : Vocabulary α).get? (prefixName symbol) = some o) :
    unary.Has o ∧ o.arity = 1 := by
  have hfixity := fixity_of_mem_prefixes _ (mem_fixities ho) symbol hsymbol rfl
  simp only [Symbol.fixity, Fixity.mk.injEq] at hfixity
  obtain ⟨hkind, harity, hprecedence, hassociativity⟩ := hfixity
  exact ⟨⟨hkind, hprecedence, hassociativity⟩, harity⟩

end Level

/-- The operators that are written as one character. -/
def signs : List Char := ['!', '~', '^', '*', '/', '%', '+', '-']

theorem signs_apart : ∀ c ∈ signs, isNumeralChar c = false ∧ isNameStart c = false ∧
    c ∉ ['(', ')', ','] ∧ c.toString ∈ fixities.map Prod.fst ∧
    ∀ p ∈ fixities, p.1 = c.toString → p.2.kind = .operator := by
  intro c hc
  simp only [signs, List.mem_cons, List.not_mem_nil, or_false] at hc
  rcases hc with rfl | rfl | rfl | rfl | rfl | rfl | rfl | rfl <;> decide +kernel

theorem wordToken_sign {c : Char} (hc : c ∈ signs) (previous : Option Token)
    (next : Option String) : WordToken (builtin : Vocabulary α) previous c.toString next
      (.operator (if c = '-' ∧ operandDue previous then "~" else c.toString)) := by
  obtain ⟨hnumeral, hname, hmark, hmem, hkind⟩ := signs_apart c hc
  exact .sign hnumeral hname hmark (isOperator_of_mem_fixities hmem hkind)

theorem wordToken_of_prefixes {symbol : String} (hsymbol : symbol ∈ prefixes)
    (previous : Option Token) (next : Option String) (hdue : operandDue previous = true) :
    WordToken (builtin : Vocabulary α) previous symbol next (.operator (prefixName symbol)) := by
  have hsign : ∃ c ∈ signs, symbol = c.toString ∧
      prefixName symbol = if c = '-' then "~" else c.toString := by
    simp only [prefixes, List.mem_cons, List.not_mem_nil, or_false] at hsymbol
    rcases hsymbol with rfl | rfl | rfl
    · exact ⟨'!', by decide, by decide, by decide⟩
    · exact ⟨'~', by decide, by decide, by decide⟩
    · exact ⟨'-', by decide, by decide, by decide⟩
  obtain ⟨c, hc, rfl, hname⟩ := hsign
  have hword := wordToken_sign (α := α) hc previous next
  rw [hname]
  simpa [hdue] using hword

theorem wordToken_symbol {level : Level} {symbol : String} {o : Element α}
    (hsymbol : symbol ∈ level.symbols) (ho : (builtin : Vocabulary α).get? symbol = some o)
    (previous : Option Token) (next : Option String) (hdue : operandDue previous = false) :
    WordToken (builtin : Vocabulary α) previous symbol next (.operator symbol) := by
  have hsymbols : ∀ symbol ∈ level.symbols,
      isIdentifier symbol = true ∨ symbol ∈ signs.map Char.toString := by
    cases level <;> decide
  rcases hsymbols symbol hsymbol with hword | hsign
  · have hkind := (Level.has_of_mem_symbols hsymbol ho).1.kind
    refine .operator hword ?_
    simp [Vocabulary.isOperator, ho, Element.isOperator, hkind]
  · obtain ⟨c, hc, rfl⟩ := List.mem_map.mp hsign
    have hword := wordToken_sign (α := α) hc previous next
    simpa [hdue] using hword

theorem head?_of_mem_symbols {level : Level} {symbol : String} (h : symbol ∈ level.symbols) :
    symbol.toList.head? ≠ some '(' := by
  have hsymbols : ∀ symbol ∈ level.symbols, symbol.toList.head? ≠ some '(' := by
    cases level <;> decide
  exact hsymbols symbol h

theorem isIdentifier_of_isFunction {name : String} {f : Element α}
    (hf : (builtin : Vocabulary α).get? name = some f) (hkind : f.isFunction = true) :
    isIdentifier name = true := by
  have hnames : ∀ p ∈ fixities, p.2.kind = .function → isIdentifier p.1 = true := by
    decide +kernel
  exact hnames _ (mem_fixities hf) (by simpa [Element.isFunction, Symbol.fixity] using hkind)

theorem Derives.loosest {value : Numeral.Literal → α} {words : List String} {x : Node α}
    (h : Derives value .atom words x) : Derives value .disjunction words x :=
  .tighter (.tighter (.tighter (.tighter (.tighter (.tighter h)))))

/-! ### Reading what is derived -/

variable [NumberText α]

/-- The tokens and items of a derived phrase: its words are read as the tokens, these have the items
as their postfix order wherever the phrase fits, and the items build its tree. -/
theorem Derives.exists_items {value : Numeral.Literal → α}
    (hvalue : ∀ l, NumberText.read? l.text = some (value l)) {level : Level}
    {words : List String} {x : Node α} (h : Derives value level words x) :
    ∃ tokens items, ReadsAs (builtin : Vocabulary α) words tokens ∧
      (∀ left right, level.Fits left right →
        Phrase (builtin : Vocabulary α).get? (.between left right) tokens items) ∧
      Builds items x := by
  induction h with
  | literal l =>
    refine ⟨[.operand l.text], [.operand l.text], .word fun _ _ _ _ => .literal l, ?_,
      builds_literal (hvalue l)⟩
    exact fun left right _ => .operands (List.cons_ne_nil l.text [])
  | @name name hname hnew =>
    refine ⟨[.operand name], [.operand name], .word fun _ _ _ hnext => .name hname hnew hnext, ?_,
      builds_name hname⟩
    exact fun left right _ => .operands (List.cons_ne_nil name [])
  | group _ ih =>
    obtain ⟨tokens, items, hreads, hphrase, hbuilds⟩ := ih
    exact ⟨_, items, hreads.group, fun left right _ => .group (hphrase _ _ (Level.fits_none _)),
      hbuilds⟩
  | @call name f _ _ hf hkind harity _ ih =>
    obtain ⟨tokens, items, hreads, hphrase, hbuilds⟩ := ih
    have hfunction : (builtin : Vocabulary α).isFunction name = true := by
      simp [Vocabulary.isFunction, hf, hkind]
    refine ⟨_, _, hreads.call (isIdentifier_of_isFunction hf hkind) hfunction,
      fun left right _ => .call hf ?_, hbuilds.unary harity⟩
    change Phrase _ (.arguments f.arity) _ _
    rw [harity]
    exact .argument (hphrase _ _ (Level.fits_none _))
  | @callTwo name f _ _ _ _ hf hkind harity _ _ ih ih' =>
    obtain ⟨tokens, items, hreads, hphrase, hbuilds⟩ := ih
    obtain ⟨tokens', items', hreads', hphrase', hbuilds'⟩ := ih'
    have hfunction : (builtin : Vocabulary α).isFunction name = true := by
      simp [Vocabulary.isFunction, hf, hkind]
    have harguments := hreads.between (fun _ _ _ => .comma) rfl (by decide) hreads'
    refine ⟨_, _, harguments.call (isIdentifier_of_isFunction hf hkind) hfunction,
      fun left right _ => .call hf ?_, hbuilds.binary hbuilds' harity⟩
    change Phrase _ (.arguments f.arity) _ _
    rw [harity]
    exact .comma (.argument (hphrase _ _ (Level.fits_none _))) (hphrase' _ _ (Level.fits_none _))
  | @unary symbol o _ _ hsymbol ho _ ih =>
    obtain ⟨tokens, items, hreads, hphrase, hbuilds⟩ := ih
    obtain ⟨hhas, harity⟩ := Level.has_of_mem_prefixes hsymbol ho
    refine ⟨_, _, hreads.cons (wordToken_of_prefixes hsymbol) rfl, fun left right hfits => ?_,
      hbuilds.unary harity⟩
    exact .unary ho hhas.isOperator harity (hfits.yields hhas) (hphrase _ _ (hfits.after hhas))
  | @binary level symbol o _ _ _ _ hsymbol ho _ _ ih ih' =>
    obtain ⟨tokens, items, hreads, hphrase, hbuilds⟩ := ih
    obtain ⟨tokens', items', hreads', hphrase', hbuilds'⟩ := ih'
    obtain ⟨hhas, harity⟩ := Level.has_of_mem_symbols hsymbol ho
    have hwords := hreads.between (wordToken_symbol hsymbol ho) rfl (head?_of_mem_symbols hsymbol)
      hreads'
    refine ⟨_, _, hwords, fun left right hfits => ?_, hbuilds.binary hbuilds' harity⟩
    exact .binary ho hhas.isOperator harity (hfits.waits hhas) (hfits.yields hhas)
      (hphrase _ _ (hfits.before hhas (List.ne_nil_of_mem hsymbol)))
      (hphrase' _ _ (hfits.after hhas))
  | tighter _ ih =>
    obtain ⟨tokens, items, hreads, hphrase, hbuilds⟩ := ih
    exact ⟨tokens, items, hreads, fun left right hfits => hphrase _ _ hfits.tighter, hbuilds⟩

/-- The tree of a text whose words are derived. -/
theorem tree_of_derives {value : Numeral.Literal → α}
    (hvalue : ∀ l, NumberText.read? l.text = some (value l)) {text : String} {x : Node α}
    (h : Derives value .disjunction (words text) x) : tree builtin text = .ok x := by
  obtain ⟨toks, items, hreads, hphrase, hbuilds⟩ := h.exists_items hvalue
  have hphrase := hphrase none none (Level.fits_none _)
  have htokens : tokens (builtin : Vocabulary α) text = .ok toks :=
    tokensAfter_of_lexed (hreads.lexed none none rfl (by simp)) rfl
  exact tree_eq_ok_iff.mpr ⟨toks, items, htokens, hphrase.toPostfix text, hbuilds []⟩

/-- A text whose words the grammar derives is read as the formula with the tree of the derivation. -/
theorem parseWith_of_derives {text : String} {x : Node Float}
    (h : Derives Numeral.Literal.toFloat .disjunction (words text) x) :
    parseWith builtin text = .ok { text := trim text, root := x } :=
  parseWith_of_tree (tree_of_derives Numeral.Literal.read?_text h)

def negation : Element Float := ⟨"~", "Negation", .operator, .unary fun _ x => -x, 100, .right⟩

def power : Element Float := ⟨"^", "Power", .operator, .binary fun _ => Elementary.pow, 90, .right⟩

def subtraction : Element Float :=
  ⟨"-", "Subtraction", .operator, .binary fun _ x y => x - y, 70, .left⟩

def maximum : Element Float := .function "max" "Maximum" (.binary fun _ => Scalar.max)

def two : Numeral.Literal :=
  ⟨['2'], none, none, List.forall_mem_singleton.mpr rfl, List.forall_mem_nil _, by decide⟩

def half : Numeral.Literal :=
  ⟨[], some ['5'], none, List.forall_mem_nil _, List.forall_mem_singleton.mpr rfl, by decide⟩

def ten : Numeral.Literal where
  whole := ['1']
  fraction := none
  exponent := some
    ⟨'e', [], ['1'], .inl rfl, .inl rfl, by decide, List.forall_mem_singleton.mpr rfl⟩
  whole_isDigit := List.forall_mem_singleton.mpr rfl
  fraction_isDigit := List.forall_mem_nil _
  digits_ne := by decide

def differences : Node Float :=
  .binary subtraction
    (.binary subtraction
      (.binary power (.unary negation (.var "x")) (.constant 2))
      (.binary maximum (.constant 0.5) (.constant 10)))
    (.var "y")

/-- The first minus is a negation, which the power takes as its base; the other two subtract from
left to right. -/
theorem parseWith_differences :
    words "- x ^ 2 - max ( .5 , 1e1 ) - y" =
      ["-", "x", "^", "2", "-", "max", "(", ".5", ",", "1e1", ")", "-", "y"] ∧
    parseWith builtin "- x ^ 2 - max ( .5 , 1e1 ) - y" =
      .ok { text := "- x ^ 2 - max ( .5 , 1e1 ) - y", root := differences } := by
  have hwords : words "- x ^ 2 - max ( .5 , 1e1 ) - y" =
      ["-", "x", "^", "2", "-", "max", "(", ".5", ",", "1e1", ")", "-", "y"] := by cbv
  have htrim : trim "- x ^ 2 - max ( .5 , 1e1 ) - y" = "- x ^ 2 - max ( .5 , 1e1 ) - y" := by cbv
  have htwo : (2 : Float) = two.toFloat := by decide +kernel
  have hhalf : (0.5 : Float) = half.toFloat := by decide +kernel
  have hten : (10 : Float) = ten.toFloat := by decide +kernel
  have hvars : ∀ name ∈ ["x", "y"], isIdentifier name = true ∧
      name ∉ (builtins : List (Element Float)).map Element.name := by decide +kernel
  have hvar : ∀ name ∈ ["x", "y"], Derives Numeral.Literal.toFloat .atom [name] (.var name) :=
    fun name hname => .name (hvars name hname).1 (get?_builtin_eq_none_iff.mpr (hvars name hname).2)
  have hnegation : (builtin : Vocabulary Float).get? "~" = some negation := by
    rw [get?_builtin]; rfl
  have hpower : (builtin : Vocabulary Float).get? "^" = some power := by
    rw [get?_builtin]; rfl
  have hsubtraction : (builtin : Vocabulary Float).get? "-" = some subtraction := by
    rw [get?_builtin]; rfl
  have hmaximum : (builtin : Vocabulary Float).get? "max" = some maximum := by
    rw [get?_builtin]; rfl
  have hbase : Derives Numeral.Literal.toFloat .unary ["-", "x"] (.unary negation (.var "x")) :=
    .unary (by decide) hnegation (.tighter (hvar "x" (by decide)))
  have hsquare : Derives Numeral.Literal.toFloat .power (["-", "x"] ++ "^" :: ["2"])
      (.binary power (.unary negation (.var "x")) (.constant 2)) := by
    rw [htwo]
    exact .binary (by decide) hpower hbase (.tighter (.tighter (.literal two)))
  have hcall : Derives Numeral.Literal.toFloat .atom
      ("max" :: "(" :: ([".5"] ++ "," :: ["1e1"]) ++ [")"])
      (.binary maximum (.constant 0.5) (.constant 10)) := by
    rw [hhalf, hten]
    exact .callTwo hmaximum rfl rfl (Derives.literal half).loosest (Derives.literal ten).loosest
  have hfirst : Derives Numeral.Literal.toFloat .sum
      (["-", "x", "^", "2"] ++ "-" :: ["max", "(", ".5", ",", "1e1", ")"])
      (.binary subtraction
        (.binary power (.unary negation (.var "x")) (.constant 2))
        (.binary maximum (.constant 0.5) (.constant 10))) :=
    .binary (by decide) hsubtraction (.tighter (.tighter hsquare))
      (.tighter (.tighter (.tighter hcall)))
  have hsum : Derives Numeral.Literal.toFloat .sum
      (["-", "x", "^", "2", "-", "max", "(", ".5", ",", "1e1", ")"] ++ "-" :: ["y"])
      differences :=
    .binary (by decide) hsubtraction hfirst (.tighter (.tighter (.tighter (hvar "y" (by decide)))))
  have hderives : Derives Numeral.Literal.toFloat .disjunction
      (words "- x ^ 2 - max ( .5 , 1e1 ) - y") differences := by
    rw [hwords]
    exact .tighter (.tighter hsum)
  refine ⟨hwords, ?_⟩
  rw [parseWith_of_derives hderives, htrim]

end FuzzyInference.Formula
