import FuzzyInference.Infix.Postfix

/-!
What postfix order keeps of a token sequence. Every token adds its word at the end of the output or
its symbol to one of the two stacks, and symbols only move from one stack to the other. So the items
have the words of the tokens in their order and every symbol as often as the tokens have it, whether
the tokens are well formed or not.
-/
namespace FuzzyInference.Infix

variable {ι : Type}

def Token.word? : Token → Option String
  | .operand word => some word
  | _ => none

/-- The symbol of an operator or a function. -/
def Token.symbol? (find? : String → Option ι) : Token → Option ι
  | .operator symbol => find? symbol
  | .function name => find? name
  | _ => none

/-- The name under which the symbol of a token is looked up. -/
def Token.symbolName? : Token → Option String
  | .operator symbol => some symbol
  | .function name => some name
  | _ => none

namespace Item

def word? : Item ι → Option String
  | .operand word => some word
  | .symbol _ => none

def symbol? : Item ι → Option ι
  | .operand _ => none
  | .symbol s => some s

end Item

def Pending.symbol? : Pending ι → Option ι
  | .symbol s => some s
  | .paren _ => none

/-- The words in the output of the state, and the symbols in its output or still pending. -/
structure State.Contains (s : State ι) (words : List String) (symbols : List ι) : Prop where
  words : (s.output.filterMap Item.word?).reverse = words
  symbols : (s.output.filterMap Item.symbol? ++ s.pending.filterMap Pending.symbol?).Perm symbols

/-! ### What a step does -/

section Steps

variable [Symbol ι] {find? : String → Option ι} {text : String} {s t : State ι}

omit [Symbol ι] in
theorem State.exists_of_comma (h : s.comma = .ok t) :
    ∃ pending count counts, s.closeOperand.pending = .paren true :: pending ∧
      s.closeOperand.arguments = count :: counts ∧
      t = { s.closeOperand with arguments := (count + 1) :: counts } := by
  simp only [State.comma] at h
  split at h <;> cases h
  next pending count counts hpending hcounts =>
  exact ⟨pending, count, counts, hpending, hcounts, rfl⟩

theorem State.exists_of_closeParen (h : s.closeParen text = .ok t) :
    (∃ pending, s.closeOperand.pending = .paren false :: pending ∧
      t = { s.closeOperand with pending }) ∨
    ∃ f pending, s.closeOperand.pending = .paren true :: .symbol f :: pending ∧
      s.closeOperand.arguments.headD 0 = (Symbol.fixity f).arity ∧
      t = ⟨.symbol f :: s.closeOperand.output, pending, s.closeOperand.arguments.tail⟩ := by
  simp only [State.closeParen] at h
  split at h
  · next pending hpending =>
    cases h
    exact .inl ⟨pending, hpending, rfl⟩
  · next f pending hpending =>
    split at h <;> cases h
    next hcount =>
    exact .inr ⟨f, pending, hpending, hcount, rfl⟩
  · cases h

theorem State.exists_of_step_operator {previous next : Option Token} {symbol : String}
    (h : s.step find? text previous next (.operator symbol) = .ok t) :
    ∃ o, find? symbol = some o ∧ (Symbol.fixity o).isOperator = true ∧ t = s.pushOperator o := by
  simp only [State.step] at h
  split at h <;> cases h
  next o ho =>
  obtain ⟨hfind, hoperator⟩ := Option.filter_eq_some_iff.mp ho
  exact ⟨o, hfind, hoperator, rfl⟩

theorem State.exists_of_step_function {previous next : Option Token} {name : String}
    (h : s.step find? text previous next (.function name) = .ok t) :
    ∃ f, find? name = some f ∧ t = { s with pending := .symbol f :: s.pending } := by
  simp only [State.step] at h
  split at h
  · split at h <;> cases h
    next f hf =>
    exact ⟨f, hf, rfl⟩
  · cases h

theorem State.exists_of_run_cons {previous : Option Token} {token : Token} {rest : List Token}
    (h : State.run find? text previous (token :: rest) s = .ok t) :
    ∃ next, s.step find? text previous rest.head? token = .ok next ∧
      State.run find? text (some token) rest next = .ok t := by
  rw [State.run] at h
  exact exists_of_bind_eq_ok h

/-- Every name of an operator or a function among tokens that are read has a symbol. -/
theorem State.map_find?_of_run {previous : Option Token} {tokens : List Token}
    (h : State.run find? text previous tokens s = .ok t) :
    (tokens.filterMap Token.symbolName?).map find? =
      (tokens.filterMap (Token.symbol? find?)).map some := by
  induction tokens generalizing previous s with
  | nil => rfl
  | cons token rest ih =>
    obtain ⟨next, hstep, hrest⟩ := State.exists_of_run_cons h
    cases token with
    | operator symbol =>
      obtain ⟨o, ho, -, -⟩ := State.exists_of_step_operator hstep
      simp [Token.symbolName?, Token.symbol?, ho, ih hrest]
    | function name =>
      obtain ⟨f, hf, -⟩ := State.exists_of_step_function hstep
      simp [Token.symbolName?, Token.symbol?, hf, ih hrest]
    | _ => exact ih hrest

/-- Every operator token among tokens that are read is an operator. -/
theorem State.isOperator_of_run {previous : Option Token} {tokens : List Token}
    (h : State.run find? text previous tokens s = .ok t) {symbol : String}
    (hsymbol : .operator symbol ∈ tokens) :
    ∃ o, find? symbol = some o ∧ (Symbol.fixity o).isOperator = true := by
  induction tokens generalizing previous s with
  | nil => cases hsymbol
  | cons token rest ih =>
    obtain ⟨next, hstep, hrest⟩ := State.exists_of_run_cons h
    rcases List.mem_cons.mp hsymbol with rfl | hsymbol
    · obtain ⟨o, ho, hoperator, -⟩ := State.exists_of_step_operator hstep
      exact ⟨o, ho, hoperator⟩
    · exact ih hrest hsymbol

/-- Tokens that have a postfix order are all read, and nothing but symbols is left pending. -/
theorem exists_of_toPostfix {tokens : List Token} {items : List (Item ι)}
    (h : toPostfix find? text tokens = .ok items) :
    ∃ t arguments, State.run find? text none tokens {} = .ok t ∧
      t.closeOperand = ⟨items.reverse, [], arguments⟩ := by
  obtain ⟨t, hrun, hfinish⟩ := exists_of_bind_eq_ok h
  simp only [State.finish] at hfinish
  split at hfinish <;> cases hfinish
  next output arguments hclosed =>
  exact ⟨t, arguments, hrun, by rw [hclosed, List.reverse_reverse]⟩

/-! ### The text -/

/-- A step that is taken does not depend on the text, which stands only in errors. -/
theorem State.step_text {previous next : Option Token} {token : Token}
    (h : s.step find? text previous next token = .ok t) (text' : String) :
    s.step find? text' previous next token = .ok t := by
  cases token with
  | rightParen =>
    change s.closeParen text' = .ok t
    obtain ⟨pending, hpending, rfl⟩ | ⟨f, pending, hpending, hcount, rfl⟩ :=
      State.exists_of_closeParen h
    · simp [State.closeParen, hpending]
    · simp only [State.closeParen, hpending, hcount, if_true]
  | _ => exact h

theorem State.run_text {previous : Option Token} {tokens : List Token}
    (h : State.run find? text previous tokens s = .ok t) (text' : String) :
    State.run find? text' previous tokens s = .ok t := by
  induction tokens generalizing previous s with
  | nil => exact h
  | cons token rest ih =>
    obtain ⟨next, hstep, hrest⟩ := State.exists_of_run_cons h
    rw [State.run, State.step_text hstep text']
    exact ih hrest

theorem toPostfix_text {tokens : List Token} {items : List (Item ι)}
    (h : toPostfix find? text tokens = .ok items) (text' : String) :
    toPostfix find? text' tokens = .ok items := by
  obtain ⟨t, arguments, hrun, hclosed⟩ := exists_of_toPostfix h
  simp only [toPostfix, State.run_text hrun text', bind, Except.bind, State.finish, hclosed,
    List.reverse_reverse]

end Steps

/-! ### The pending stack -/

theorem filterMap_word?_popWhile (p : ι → Bool) (output : List (Item ι))
    (pending : List (Pending ι)) :
    (popWhile p output pending).1.filterMap Item.word? = output.filterMap Item.word? := by
  fun_induction popWhile p output pending with
  | case1 output s rest hs ih => rw [ih]; rfl
  | case2 output s rest hs => rfl
  | case3 output pending => rfl

theorem filterMap_symbol?_popWhile (p : ι → Bool) (output : List (Item ι))
    (pending : List (Pending ι)) :
    ((popWhile p output pending).1.filterMap Item.symbol? ++
        (popWhile p output pending).2.filterMap Pending.symbol?).Perm
      (output.filterMap Item.symbol? ++ pending.filterMap Pending.symbol?) := by
  fun_induction popWhile p output pending with
  | case1 output s rest hs ih => exact ih.trans List.perm_middle.symm
  | case2 output s rest hs => exact .refl _
  | case3 output pending => exact .refl _

namespace State.Contains

variable {s t : State ι} {words : List String} {symbols : List ι}

theorem popWhile (h : s.Contains words symbols) (p : ι → Bool) :
    (⟨(Infix.popWhile p s.output s.pending).1, (Infix.popWhile p s.output s.pending).2,
      s.arguments⟩ : State ι).Contains words symbols where
  words := by rw [filterMap_word?_popWhile, h.words]
  symbols := (filterMap_symbol?_popWhile p s.output s.pending).trans h.symbols

theorem closeOperand (h : s.Contains words symbols) : s.closeOperand.Contains words symbols :=
  h.popWhile _

theorem pushPending (h : s.Contains words symbols) (o : ι) :
    ({ s with pending := .symbol o :: s.pending } : State ι).Contains words (symbols ++ [o]) where
  words := h.words
  symbols := by
    refine List.perm_middle.trans ?_
    exact (h.symbols.cons o).trans (List.perm_append_singleton o symbols).symm

variable [Symbol ι]

theorem pushOperator (h : s.Contains words symbols) (o : ι) :
    (s.pushOperator o).Contains words (symbols ++ [o]) := by
  unfold State.pushOperator
  dsimp only
  split
  · exact (h.popWhile _).pushPending o
  · exact h.pushPending o

omit [Symbol ι] in
theorem openParen (h : s.Contains words symbols) (previous next : Option Token) :
    (s.openParen previous next).Contains words symbols := by
  unfold State.openParen
  split <;> exact ⟨h.words, h.symbols⟩

omit [Symbol ι] in
theorem comma (h : s.Contains words symbols) (hstep : s.comma = .ok t) :
    t.Contains words symbols := by
  obtain ⟨pending, count, counts, -, -, rfl⟩ := State.exists_of_comma hstep
  exact ⟨h.closeOperand.words, h.closeOperand.symbols⟩

theorem closeParen {text : String} (h : s.Contains words symbols)
    (hstep : s.closeParen text = .ok t) : t.Contains words symbols := by
  have hclosed := h.closeOperand
  obtain ⟨pending, hpending, rfl⟩ | ⟨f, pending, hpending, -, rfl⟩ :=
    State.exists_of_closeParen hstep
  · refine ⟨hclosed.words, ?_⟩
    simpa [hpending, Pending.symbol?, List.filterMap_cons] using hclosed.symbols
  · refine ⟨hclosed.words, ?_⟩
    have hsymbols := hclosed.symbols
    simp only [hpending, Pending.symbol?, List.filterMap_cons] at hsymbols
    exact List.perm_middle.symm.trans hsymbols

end State.Contains

/-! ### Reading -/

variable [Symbol ι] {find? : String → Option ι} {text : String}

namespace State.Contains

variable {s t : State ι} {words : List String} {symbols : List ι}

/-- A token adds its word and its symbol. -/
theorem step {previous next : Option Token} {token : Token} (h : s.Contains words symbols)
    (hstep : s.step find? text previous next token = .ok t) :
    t.Contains (words ++ token.word?.toList) (symbols ++ (token.symbol? find?).toList) := by
  cases token with
  | operand word =>
    cases hstep
    refine ⟨?_, by simpa [Item.symbol?, Token.symbol?, List.filterMap_cons] using h.symbols⟩
    simp [Item.word?, Token.word?, h.words]
  | operator symbol =>
    obtain ⟨o, ho, -, rfl⟩ := State.exists_of_step_operator hstep
    simpa [Token.word?, Token.symbol?, ho] using h.pushOperator o
  | function name =>
    obtain ⟨f, hf, rfl⟩ := State.exists_of_step_function hstep
    simpa [Token.word?, Token.symbol?, hf] using h.pushPending f
  | leftParen =>
    cases hstep
    simpa [Token.word?, Token.symbol?] using h.openParen previous next
  | rightParen => simpa [Token.word?, Token.symbol?] using h.closeParen hstep
  | comma => simpa [Token.word?, Token.symbol?] using h.comma hstep

theorem run {previous : Option Token} {tokens : List Token} (h : s.Contains words symbols)
    (hrun : State.run find? text previous tokens s = .ok t) :
    t.Contains (words ++ tokens.filterMap Token.word?)
      (symbols ++ tokens.filterMap (Token.symbol? find?)) := by
  induction tokens generalizing previous s words symbols with
  | nil =>
    cases hrun
    simpa using h
  | cons token rest ih =>
    obtain ⟨next, hstep, hnext⟩ := State.exists_of_run_cons hrun
    have hrest := ih (h.step hstep) hnext
    rw [List.append_assoc, List.append_assoc] at hrest
    cases hword : token.word? <;> cases hsymbol : token.symbol? find? <;>
      simpa [hword, hsymbol] using hrest

end State.Contains

/-- The postfix order of tokens has their words in the same order and each of their symbols as often
as they have it. -/
theorem toPostfix_contents {tokens : List Token} {items : List (Item ι)}
    (h : toPostfix find? text tokens = .ok items) :
    items.filterMap Item.word? = tokens.filterMap Token.word? ∧
      (items.filterMap Item.symbol?).Perm (tokens.filterMap (Token.symbol? find?)) := by
  obtain ⟨t, arguments, hrun, hclosed⟩ := exists_of_toPostfix h
  have hempty : ({} : State ι).Contains [] [] := ⟨rfl, .refl _⟩
  have hcontents := (hempty.run hrun).closeOperand
  rw [hclosed] at hcontents
  constructor
  · rw [← List.reverse_reverse (items.filterMap Item.word?), ← List.filterMap_reverse]
    exact hcontents.words
  · have hsymbols := hcontents.symbols
    rw [List.filterMap_reverse, List.filterMap_nil, List.append_nil, List.nil_append] at hsymbols
    exact (List.reverse_perm _).symm.trans hsymbols

/-- The symbols of a postfix order are those that the operators and functions among the tokens stand
for, one for each. -/
theorem perm_of_toPostfix {tokens : List Token} {items : List (Item ι)}
    (h : toPostfix find? text tokens = .ok items) :
    ((items.filterMap Item.symbol?).map some).Perm
      ((tokens.filterMap Token.symbolName?).map find?) := by
  obtain ⟨t, arguments, hrun, -⟩ := exists_of_toPostfix h
  rw [State.map_find?_of_run hrun]
  exact (toPostfix_contents h).2.map some

end FuzzyInference.Infix
