import FuzzyInference.Proofs.Infix.Contents
import FuzzyInference.Proofs.Infix.Phrase

/-!
Well-formed infix notation, and what the pending stack can tell of it. The stack never looks at what
stands beside a token: an operator, a comma or a closing parenthesis is taken the same with an
operand before it and without one. What it does see are the parentheses and the number of arguments.
So a sequence that has an operand wherever one is due is well formed up to operands that stand side
by side, and these show in the number of operands that are left over at the end.
-/
namespace FuzzyInference.Infix

variable {ι : Type} [Symbol ι]

/-- What a part of a token sequence stands for. -/
inductive Part where
  | operand
  | arguments (count : Nat)

/-- The operands that a part stands for. -/
def Part.size : Part → Nat
  | operand => 1
  | arguments count => count

section Grammar

variable (find? : String → Option ι) (IsOperand : List String → Prop)

/-- Infix notation without regard to precedence: an operator has its operands beside it, parentheses
enclose one operand, and the arguments of a call stand between its own parentheses. -/
inductive WellFormed : Part → List Token → Prop
  | words {words : List String} (h : IsOperand words) :
      WellFormed .operand (words.map .operand)
  | group {tokens : List Token} :
      WellFormed .operand tokens → WellFormed .operand (.leftParen :: tokens ++ [.rightParen])
  | call {name : String} {f : ι} {tokens : List Token} (hf : find? name = some f) :
      WellFormed (.arguments (Symbol.fixity f).arity) tokens →
      WellFormed .operand (.function name :: .leftParen :: tokens ++ [.rightParen])
  | unary {symbol : String} {o : ι} {tokens : List Token} (ho : find? symbol = some o)
      (harity : (Symbol.fixity o).arity = 1) :
      WellFormed .operand tokens → WellFormed .operand (.operator symbol :: tokens)
  | binary {symbol : String} {o : ι} {tokens tokens' : List Token} (ho : find? symbol = some o)
      (harity : (Symbol.fixity o).arity = 2) :
      WellFormed .operand tokens → WellFormed .operand tokens' →
      WellFormed .operand (tokens ++ .operator symbol :: tokens')
  | argument {tokens : List Token} :
      WellFormed .operand tokens → WellFormed (.arguments 1) tokens
  | comma {count : Nat} {tokens tokens' : List Token} :
      WellFormed (.arguments count) tokens → WellFormed .operand tokens' →
      WellFormed (.arguments (count + 1)) (tokens ++ .comma :: tokens')

/-- Tokens after a point at which an operand is due, or else complete: wherever one is due one
starts. Operands may stand side by side. -/
inductive Supplied : Bool → List Token → Prop
  | nil : Supplied false []
  | words {due : Bool} {words : List String} {rest : List Token} (h : IsOperand words) :
      Supplied false rest → Supplied due (words.map .operand ++ rest)
  | leftParen {due : Bool} {rest : List Token} :
      Supplied true rest → Supplied due (.leftParen :: rest)
  | call {due : Bool} {name : String} {rest : List Token} :
      Supplied true rest → Supplied due (.function name :: .leftParen :: rest)
  | unary {due : Bool} {symbol : String} {o : ι} {rest : List Token}
      (ho : find? symbol = some o) (harity : (Symbol.fixity o).arity = 1) :
      Supplied true rest → Supplied due (.operator symbol :: rest)
  | binary {symbol : String} {o : ι} {rest : List Token} (ho : find? symbol = some o)
      (harity : (Symbol.fixity o).arity = 2) :
      Supplied true rest → Supplied false (.operator symbol :: rest)
  | comma {rest : List Token} : Supplied true rest → Supplied false (.comma :: rest)
  | rightParen {rest : List Token} : Supplied false rest → Supplied false (.rightParen :: rest)

/-- Infix notation in which a surplus of operands stands beside others. -/
inductive Crowded : Nat → Part → List Token → Prop
  | words {words : List String} (h : IsOperand words) : Crowded 0 .operand (words.map .operand)
  | group {surplus : Nat} {tokens : List Token} : Crowded surplus .operand tokens →
      Crowded surplus .operand (.leftParen :: tokens ++ [.rightParen])
  | call {surplus : Nat} {name : String} {f : ι} {tokens : List Token} (hf : find? name = some f) :
      Crowded surplus (.arguments (Symbol.fixity f).arity) tokens →
      Crowded surplus .operand (.function name :: .leftParen :: tokens ++ [.rightParen])
  | unary {surplus : Nat} {symbol : String} {o : ι} {tokens : List Token}
      (ho : find? symbol = some o) (harity : (Symbol.fixity o).arity = 1) :
      Crowded surplus .operand tokens → Crowded surplus .operand (.operator symbol :: tokens)
  | binary {surplus surplus' : Nat} {symbol : String} {o : ι} {tokens tokens' : List Token}
      (ho : find? symbol = some o) (harity : (Symbol.fixity o).arity = 2) :
      Crowded surplus .operand tokens → Crowded surplus' .operand tokens' →
      Crowded (surplus + surplus') .operand (tokens ++ .operator symbol :: tokens')
  | beside {surplus surplus' : Nat} {tokens tokens' : List Token} :
      Crowded surplus .operand tokens → Crowded surplus' .operand tokens' →
      Crowded (surplus + surplus' + 1) .operand (tokens ++ tokens')
  | argument {surplus : Nat} {tokens : List Token} :
      Crowded surplus .operand tokens → Crowded surplus (.arguments 1) tokens
  | comma {surplus surplus' count : Nat} {tokens tokens' : List Token} :
      Crowded surplus (.arguments count) tokens → Crowded surplus' .operand tokens' →
      Crowded (surplus + surplus') (.arguments (count + 1)) (tokens ++ .comma :: tokens')

/-- Whether tokens look as if they were supplied when every operand word counts as an operand. -/
def placed : Bool → List Token → Bool
  | due, [] => !due
  | _, .operand _ :: rest => placed false rest
  | _, .leftParen :: rest => placed true rest
  | _, .function _ :: .leftParen :: rest => placed true rest
  | due, .operator symbol :: rest =>
    ((find? symbol).any fun o =>
      let arity := (Symbol.fixity o).arity
      arity = 1 || (!due && arity = 2)) && placed true rest
  | due, .comma :: rest => !due && placed true rest
  | due, .rightParen :: rest => !due && placed false rest
  | _, _ => false

end Grammar

variable {find? : String → Option ι} {IsOperand : List String → Prop}

/-- In well-formed notation an operand starts wherever one is due. -/
theorem WellFormed.supplied_append {part : Part} {tokens : List Token}
    (h : WellFormed find? IsOperand part tokens) {rest : List Token}
    (hrest : Supplied find? IsOperand false rest) (due : Bool) :
    Supplied find? IsOperand due (tokens ++ rest) := by
  induction h generalizing rest due with
  | words h => exact .words h hrest
  | group _ ih =>
    rw [List.cons_append, List.cons_append, List.append_assoc]
    exact .leftParen (ih (.rightParen hrest) true)
  | call _ _ ih =>
    rw [List.cons_append, List.cons_append, List.cons_append, List.cons_append, List.append_assoc]
    exact .call (ih (.rightParen hrest) true)
  | unary ho harity _ ih => exact .unary ho harity (ih hrest true)
  | binary ho harity _ _ ih ih' =>
    rw [List.append_assoc, List.cons_append]
    exact ih (.binary ho harity (ih' hrest true)) due
  | argument _ ih => exact ih hrest due
  | comma _ _ ih ih' =>
    rw [List.append_assoc, List.cons_append]
    exact ih (.comma (ih' hrest true)) due

theorem WellFormed.supplied {tokens : List Token}
    (h : WellFormed find? IsOperand .operand tokens) : Supplied find? IsOperand true tokens := by
  rw [← List.append_nil tokens]
  exact h.supplied_append .nil true

namespace Crowded

/-- Without a surplus every operand has a place of its own. -/
theorem wellFormed {surplus : Nat} {part : Part} {tokens : List Token}
    (h : Crowded find? IsOperand surplus part tokens) (hsurplus : surplus = 0) :
    WellFormed find? IsOperand part tokens := by
  induction h with
  | words h => exact .words h
  | group _ ih => exact .group (ih hsurplus)
  | call hf _ ih => exact .call hf (ih hsurplus)
  | unary ho harity _ ih => exact .unary ho harity (ih hsurplus)
  | binary ho harity _ _ ih ih' =>
    exact .binary ho harity (ih (Nat.eq_zero_of_add_eq_zero_right hsurplus))
      (ih' (Nat.eq_zero_of_add_eq_zero_left hsurplus))
  | beside _ _ _ _ => exact absurd hsurplus (Nat.succ_ne_zero _)
  | argument _ ih => exact .argument (ih hsurplus)
  | comma _ _ ih ih' =>
    exact .comma (ih (Nat.eq_zero_of_add_eq_zero_right hsurplus))
      (ih' (Nat.eq_zero_of_add_eq_zero_left hsurplus))

end Crowded

/-! ### Counting operands -/

/-- The operands that the symbols use up: each takes as many as it has places and gives one back. -/
def used : List ι → Int
  | [] => 0
  | o :: symbols => (Symbol.fixity o).arity - 1 + used symbols

@[simp] theorem used_nil : used ([] : List ι) = 0 := rfl

@[simp] theorem used_cons (o : ι) (symbols : List ι) :
    used (o :: symbols) = (Symbol.fixity o).arity - 1 + used symbols := rfl

@[simp] theorem used_append (symbols symbols' : List ι) :
    used (symbols ++ symbols') = used symbols + used symbols' := by
  induction symbols with
  | nil => simp
  | cons o symbols ih =>
    rw [List.cons_append, used_cons, used_cons, ih]
    omega

theorem used_perm {symbols symbols' : List ι} (h : symbols.Perm symbols') :
    used symbols = used symbols' := by
  induction h with
  | nil => rfl
  | cons o _ ih => rw [used_cons, used_cons, ih]
  | swap o p symbols =>
    simp only [used_cons]
    omega
  | trans _ _ ih ih' => exact ih.trans ih'

/-- The words of the tokens are those of operands, of which the symbols leave as many as the part
stands for, and the surplus. -/
theorem Crowded.exists_operands {surplus : Nat} {part : Part} {tokens : List Token}
    (h : Crowded find? IsOperand surplus part tokens) :
    ∃ operands : List (List String), (∀ words ∈ operands, IsOperand words) ∧
      operands.flatten = tokens.filterMap Token.word? ∧
      operands.length = surplus + part.size + used (tokens.filterMap (Token.symbol? find?)) := by
  induction h with
  | @words words h =>
    have hsymbols : (words.map Token.operand).filterMap (Token.symbol? find?) = [] := by
      simp [List.filterMap_eq_nil_iff, Token.symbol?]
    refine ⟨[words], by simpa using h, ?_, by simp [hsymbols, Part.size]⟩
    simp [List.filterMap_map, Function.comp_def, Token.word?]
  | group _ ih =>
    obtain ⟨operands, hoperands, hwords, hlength⟩ := ih
    refine ⟨operands, hoperands, ?_, ?_⟩
    · simpa [Token.word?, List.filterMap_cons] using hwords
    · simpa [Token.symbol?, List.filterMap_cons] using hlength
  | call hf _ ih =>
    obtain ⟨operands, hoperands, hwords, hlength⟩ := ih
    refine ⟨operands, hoperands, ?_, ?_⟩
    · simpa [Token.word?, List.filterMap_cons] using hwords
    · simp only [List.cons_append, List.filterMap_cons, List.filterMap_append, List.filterMap_nil,
        Token.symbol?, hf, List.append_nil, used_cons, Part.size] at hlength ⊢
      omega
  | unary ho harity _ ih =>
    obtain ⟨operands, hoperands, hwords, hlength⟩ := ih
    refine ⟨operands, hoperands, ?_, ?_⟩
    · simpa [Token.word?, List.filterMap_cons] using hwords
    · simp only [List.filterMap_cons, Token.symbol?, ho, used_cons, harity] at hlength ⊢
      omega
  | binary ho harity _ _ ih ih' =>
    obtain ⟨operands, hoperands, hwords, hlength⟩ := ih
    obtain ⟨operands', hoperands', hwords', hlength'⟩ := ih'
    refine ⟨operands ++ operands', List.forall_mem_append.mpr ⟨hoperands, hoperands'⟩, ?_, ?_⟩
    · simp [Token.word?, List.filterMap_cons, hwords, hwords']
    · simp only [List.length_append, List.filterMap_append, List.filterMap_cons, Token.symbol?, ho,
        used_append, used_cons, harity, Part.size] at hlength hlength' ⊢
      omega
  | beside _ _ ih ih' =>
    obtain ⟨operands, hoperands, hwords, hlength⟩ := ih
    obtain ⟨operands', hoperands', hwords', hlength'⟩ := ih'
    refine ⟨operands ++ operands', List.forall_mem_append.mpr ⟨hoperands, hoperands'⟩, ?_, ?_⟩
    · simp [hwords, hwords']
    · simp only [List.length_append, List.filterMap_append, used_append, Part.size]
        at hlength hlength' ⊢
      omega
  | argument _ ih => exact ih
  | comma _ _ ih ih' =>
    obtain ⟨operands, hoperands, hwords, hlength⟩ := ih
    obtain ⟨operands', hoperands', hwords', hlength'⟩ := ih'
    refine ⟨operands ++ operands', List.forall_mem_append.mpr ⟨hoperands, hoperands'⟩, ?_, ?_⟩
    · simp [Token.word?, List.filterMap_cons, hwords, hwords']
    · simp only [List.length_append, List.filterMap_append, List.filterMap_cons, Token.symbol?,
        used_append, Part.size] at hlength hlength' ⊢
      omega

/-! ### The pending stack -/

section Reading

variable (find? IsOperand)

/-- The tokens make up the part, up to a surplus of operands. -/
def Makes (part : Part) (tokens : List Token) : Prop :=
  ∃ surplus, Crowded find? IsOperand surplus part tokens

/-- The tokens since the last open parenthesis or comma: at an operand that is due they lack only
that operand. -/
def Segment : Bool → List Token → Prop
  | false, segment => Makes find? IsOperand .operand segment
  | true, segment => ∀ operand, Makes find? IsOperand .operand operand →
      Makes find? IsOperand .operand (segment ++ operand)

/-- The tokens up to the innermost open parenthesis, or the last comma behind it. For each open
parenthesis an operand was due at it, and behind that of a call the arguments lack only the one
that the segment makes up. -/
inductive Opened : List (Pending ι) → List Nat → List Token → Prop
  | nil : Opened [] [] []
  | symbol {o : ι} {pending : List (Pending ι)} {counts : List Nat} {before : List Token}
      (h : Opened pending counts before) : Opened (.symbol o :: pending) counts before
  | group {pending : List (Pending ι)} {counts : List Nat} {before segment : List Token}
      (h : Opened pending counts before) (hsegment : Segment find? IsOperand true segment) :
      Opened (.paren false :: pending) counts (before ++ segment ++ [.leftParen])
  | call {name : String} {f : ι} {pending : List (Pending ι)} {count : Nat} {counts : List Nat}
      {before segment arguments : List Token} (h : Opened pending counts before)
      (hsegment : Segment find? IsOperand true segment) (hf : find? name = some f)
      (harguments : ∀ operand, Makes find? IsOperand .operand operand →
        Makes find? IsOperand (.arguments count) (arguments ++ operand)) :
      Opened (.paren true :: .symbol f :: pending) (count :: counts)
        (before ++ segment ++ .function name :: .leftParen :: arguments)

end Reading

theorem segment_nil : Segment find? IsOperand true [] := fun _ h => h

/-- Where an operand is complete another one may follow beside it. -/
theorem Segment.due {due : Bool} {segment : List Token} (h : Segment find? IsOperand due segment) :
    Segment find? IsOperand true segment := by
  cases due with
  | true => exact h
  | false =>
    intro operand hoperand
    obtain ⟨surplus, hsegment⟩ := h
    obtain ⟨surplus', hoperand⟩ := hoperand
    exact ⟨_, .beside hsegment hoperand⟩

theorem Segment.unary {due : Bool} {segment : List Token} {symbol : String} {o : ι}
    (h : Segment find? IsOperand due segment) (ho : find? symbol = some o)
    (harity : (Symbol.fixity o).arity = 1) :
    Segment find? IsOperand true (segment ++ [.operator symbol]) := by
  rintro operand ⟨surplus, hoperand⟩
  rw [List.append_assoc]
  exact h.due _ ⟨surplus, .unary ho harity hoperand⟩

theorem Segment.binary {segment : List Token} {symbol : String} {o : ι}
    (h : Segment find? IsOperand false segment) (ho : find? symbol = some o)
    (harity : (Symbol.fixity o).arity = 2) :
    Segment find? IsOperand true (segment ++ [.operator symbol]) := by
  rintro operand ⟨surplus', hoperand⟩
  obtain ⟨surplus, hsegment⟩ := h
  rw [List.append_assoc]
  exact ⟨_, .binary ho harity hsegment hoperand⟩

/-- Taking symbols off the stack opens and closes no parenthesis. -/
theorem Opened.popWhile {pending : List (Pending ι)} {counts : List Nat} {before : List Token}
    (h : Opened find? IsOperand pending counts before) (p : ι → Bool) (output : List (Item ι)) :
    Opened find? IsOperand (Infix.popWhile p output pending).2 counts before := by
  induction h generalizing output with
  | nil => exact .nil
  | @symbol o pending counts before h ih =>
    simp only [Infix.popWhile]
    split
    · exact ih _
    · exact .symbol h
  | group h hsegment => exact .group h hsegment
  | call h hsegment hf harguments => exact .call h hsegment hf harguments

theorem Opened.closeOperand {s : State ι} {before : List Token}
    (h : Opened find? IsOperand s.pending s.arguments before) :
    Opened find? IsOperand s.closeOperand.pending s.closeOperand.arguments before :=
  h.popWhile _ _

theorem Opened.pushOperator {s : State ι} {before : List Token}
    (h : Opened find? IsOperand s.pending s.arguments before) (o : ι) :
    Opened find? IsOperand (s.pushOperator o).pending (s.pushOperator o).arguments before := by
  unfold State.pushOperator
  dsimp only
  split
  · exact .symbol (h.popWhile _ _)
  · exact .symbol h

/-- A comma is read in a call, and then the next argument is due. -/
theorem Opened.comma {s t : State ι} {before segment : List Token}
    (h : Opened find? IsOperand s.pending s.arguments before)
    (hsegment : Segment find? IsOperand false segment) (hstep : s.comma = .ok t) :
    Opened find? IsOperand t.pending t.arguments (before ++ segment ++ [.comma]) := by
  obtain ⟨pending, count, counts, hpending, hcounts, rfl⟩ := State.exists_of_comma hstep
  have hclosed := h.closeOperand
  rw [hpending, hcounts] at hclosed
  simp only [hpending]
  cases hclosed with
  | @call name f pending _ _ before₀ segment₀ arguments h₀ hsegment₀ hf harguments =>
    have hnew : Opened find? IsOperand (.paren true :: .symbol f :: pending)
        ((count + 1) :: counts) (before₀ ++ segment₀ ++
          .function name :: .leftParen :: (arguments ++ segment ++ [.comma])) := by
      refine .call h₀ hsegment₀ hf ?_
      rintro operand ⟨surplus', hoperand⟩
      obtain ⟨surplus, hbefore⟩ := harguments segment hsegment
      rw [List.append_assoc]
      exact ⟨_, .comma hbefore hoperand⟩
    simpa using hnew

/-- A closing parenthesis turns what was read since its open one into an operand. -/
theorem Opened.closeParen {text : String} {s t : State ι} {before segment : List Token}
    (h : Opened find? IsOperand s.pending s.arguments before)
    (hsegment : Segment find? IsOperand false segment) (hstep : s.closeParen text = .ok t) :
    ∃ before' segment', before ++ segment ++ [.rightParen] = before' ++ segment' ∧
      Opened find? IsOperand t.pending t.arguments before' ∧
      Segment find? IsOperand false segment' := by
  have hclosed := h.closeOperand
  obtain ⟨pending, hpending, rfl⟩ | ⟨f, pending, hpending, hcount, rfl⟩ :=
    State.exists_of_closeParen hstep
  · rw [hpending] at hclosed
    generalize s.closeOperand.arguments = counts at hclosed ⊢
    cases hclosed with
    | @group _ _ before₀ segment₀ h₀ hsegment₀ =>
      obtain ⟨surplus, hoperand⟩ := hsegment
      refine ⟨before₀, segment₀ ++ (.leftParen :: segment ++ [.rightParen]), by simp, h₀, ?_⟩
      exact hsegment₀ _ ⟨surplus, .group hoperand⟩
  · rw [hpending] at hclosed
    generalize s.closeOperand.arguments = counts at hclosed hcount ⊢
    cases hclosed with
    | @call name _ _ count counts before₀ segment₀ arguments h₀ hsegment₀ hf harguments =>
      obtain ⟨surplus, harguments⟩ := harguments segment hsegment
      rw [show count = (Symbol.fixity f).arity from hcount] at harguments
      refine ⟨before₀, segment₀ ++ (.function name :: .leftParen :: (arguments ++ segment) ++
        [.rightParen]), by simp, h₀, ?_⟩
      exact hsegment₀ _ ⟨surplus, .call hf harguments⟩

theorem placed_operands {words : List String} (h : words ≠ []) (due : Bool) (rest : List Token) :
    placed find? due (words.map .operand ++ rest) = placed find? false rest := by
  induction words generalizing due with
  | nil => exact absurd rfl h
  | cons word words ih =>
    cases words with
    | nil => rfl
    | cons next words => exact ih (by simp) false

theorem Supplied.placed {due : Bool} {tokens : List Token}
    (hoperand : ∀ words, IsOperand words → words ≠ [])
    (h : Supplied find? IsOperand due tokens) : placed find? due tokens = true := by
  induction h with
  | nil => rfl
  | words h _ ih => rw [placed_operands (hoperand _ h), ih]
  | leftParen _ ih => exact ih
  | call _ ih => exact ih
  | unary ho harity _ ih => simp [Infix.placed, ho, harity, ih]
  | binary ho harity _ ih => simp [Infix.placed, ho, harity, ih]
  | comma _ ih => simp [Infix.placed, ih]
  | rightParen _ ih => simp [Infix.placed, ih]

theorem Supplied.head?_ne {rest : List Token} (hoperand : ∀ words, IsOperand words → words ≠ [])
    (h : Supplied find? IsOperand true rest) : rest.head? ≠ some .rightParen := by
  cases h with
  | @words _ words _ hwords _ =>
    cases words with
    | nil => exact absurd rfl (hoperand [] hwords)
    | cons => simp
  | _ => simp

/-- Tokens that are read and have an operand wherever one is due make up an operand, up to a
surplus. The induction is on where operands start; it carries what stands between the open
parentheses. -/
theorem makes_of_run {text : String} (hwords : ∀ words, IsOperand words → words ≠ [])
    {due : Bool} {rest : List Token} (hsupplied : Supplied find? IsOperand due rest)
    {previous : Option Token} {s t : State ι} {before segment : List Token}
    (hprevious : StartsOperand previous)
    (hrun : State.run find? text previous rest s = .ok t)
    (hclosed : t.closeOperand.pending = [])
    (hopened : Opened find? IsOperand s.pending s.arguments before)
    (hsegment : Segment find? IsOperand due segment) :
    Makes find? IsOperand .operand (before ++ segment ++ rest) := by
  induction hsupplied generalizing previous s before segment with
  | nil =>
    obtain rfl : s = t := Except.ok.inj hrun
    have hbefore := hopened.closeOperand
    rw [hclosed] at hbefore
    generalize s.closeOperand.arguments = counts at hbefore
    cases hbefore
    simpa [Segment] using hsegment
  | @words due words rest hoperand _ ih =>
    obtain ⟨previous', hstart, hread⟩ := State.run_operands words previous rest s
    rw [hread] at hrun
    have hmakes := hsegment.due _ ⟨0, .words hoperand⟩
    simpa using ih (hstart hprevious) hrun hopened hmakes
  | @leftParen due rest _ ih =>
    obtain ⟨next, hstep, hnext⟩ := State.exists_of_run_cons hrun
    rw [State.step_leftParen hprevious] at hstep
    cases hstep
    have hrest := ih (by simp [StartsOperand]) hnext (.group hopened hsegment.due) segment_nil
    simpa using hrest
  | @call due name rest hrest ih =>
    obtain ⟨named, hname, hrun⟩ := State.exists_of_run_cons hrun
    obtain ⟨f, hf, rfl⟩ := State.exists_of_step_function hname
    obtain ⟨next, hstep, hnext⟩ := State.exists_of_run_cons hrun
    simp only [State.step, State.openParen, hrest.head?_ne hwords, if_false] at hstep
    cases hstep
    have hcall : Opened find? IsOperand (.paren true :: .symbol f :: s.pending) (1 :: s.arguments)
        (before ++ segment ++ .function name :: .leftParen :: []) := by
      refine .call hopened hsegment.due hf ?_
      rintro operand ⟨surplus, hoperand⟩
      exact ⟨surplus, .argument hoperand⟩
    simpa using ih (by simp [StartsOperand]) hnext hcall segment_nil
  | @unary due symbol o rest ho harity _ ih =>
    obtain ⟨next, hstep, hnext⟩ := State.exists_of_run_cons hrun
    obtain ⟨o', ho', -, rfl⟩ := State.exists_of_step_operator hstep
    have hrest := ih (by simp [StartsOperand]) hnext (hopened.pushOperator o')
      (hsegment.unary ho harity)
    simpa using hrest
  | @binary symbol o rest ho harity _ ih =>
    obtain ⟨next, hstep, hnext⟩ := State.exists_of_run_cons hrun
    obtain ⟨o', ho', -, rfl⟩ := State.exists_of_step_operator hstep
    have hrest := ih (by simp [StartsOperand]) hnext (hopened.pushOperator o')
      (hsegment.binary ho harity)
    simpa using hrest
  | @comma rest _ ih =>
    obtain ⟨next, hstep, hnext⟩ := State.exists_of_run_cons hrun
    have hrest := ih (by simp [StartsOperand]) hnext (hopened.comma hsegment hstep) segment_nil
    simpa using hrest
  | @rightParen rest _ ih =>
    obtain ⟨next, hstep, hnext⟩ := State.exists_of_run_cons hrun
    obtain ⟨before', segment', heq, hopened', hsegment'⟩ := hopened.closeParen hsegment hstep
    have hrest := ih (by simp [StartsOperand]) hnext hopened' hsegment'
    rw [← heq] at hrest
    simpa using hrest

/-- Tokens that have a postfix order and an operand wherever one is due are well formed, unless
their operands are more than their symbols use up. -/
theorem wellFormed_of_toPostfix {text : String} (hwords : ∀ words, IsOperand words → words ≠ [])
    {tokens : List Token} {items : List (Item ι)}
    (hsupplied : Supplied find? IsOperand true tokens)
    (hitems : toPostfix find? text tokens = .ok items)
    (hcount : ∀ operands : List (List String), (∀ words ∈ operands, IsOperand words) →
      operands.flatten = items.filterMap Item.word? →
      (operands.length : Int) ≤ 1 + used (items.filterMap Item.symbol?)) :
    WellFormed find? IsOperand .operand tokens := by
  obtain ⟨t, arguments, hrun, hclosed⟩ := exists_of_toPostfix hitems
  obtain ⟨hword, hsymbol⟩ := toPostfix_contents hitems
  have hmakes : Makes find? IsOperand .operand ([] ++ [] ++ tokens) :=
    makes_of_run hwords hsupplied (by simp [StartsOperand]) hrun (by rw [hclosed]) .nil segment_nil
  obtain ⟨surplus, hcrowded⟩ := hmakes
  obtain ⟨operands, hoperands, hflatten, hlength⟩ := hcrowded.exists_operands
  -- The items have the words and the symbols of the tokens, so the count leaves no surplus.
  have hle := hcount operands hoperands (hflatten.trans hword.symm)
  rw [used_perm hsymbol] at hle
  simp only [Part.size, List.nil_append] at hlength
  exact hcrowded.wellFormed (by omega)

end FuzzyInference.Infix
