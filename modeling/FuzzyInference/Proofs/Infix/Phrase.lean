import FuzzyInference.Infix.Postfix

/-!
Phrases of infix notation and their postfix order. A phrase is judged by the operators on its two
sides: the left one has to wait for every operator of the phrase that it meets, and every operator
of the phrase that can be pending at its end has to yield to the right one. No table of levels is
assumed. Reading a phrase with the pending stack gives exactly its items.
-/
namespace FuzzyInference.Infix

variable {ι : Type} [Symbol ι]

/-- The operator on the left, if there is one, stays pending when `o` arrives. -/
def Waits (left : Option ι) (o : ι) : Prop :=
  ∀ l ∈ left, (Symbol.fixity l).yieldsTo (Symbol.fixity o) = false

/-- The pending `o` is complete when the operator on the right, if there is one, arrives. -/
def Yields (o : ι) (right : Option ι) : Prop :=
  ∀ r ∈ right, (Symbol.fixity o).yieldsTo (Symbol.fixity r) = true

/-- Where a phrase stands: between two operators, either of which may be absent, or as the
arguments of a call. -/
inductive Place (ι : Type) where
  | between (left right : Option ι)
  | arguments (count : Nat)

/-- The tokens of a phrase at a place, and its items in postfix order. -/
inductive Phrase (find? : String → Option ι) : Place ι → List Token → List (Item ι) → Prop
  | operands {left right : Option ι} {words : List String} (h : words ≠ []) :
      Phrase find? (.between left right) (words.map .operand) (words.map .operand)
  | group {left right : Option ι} {tokens : List Token} {items : List (Item ι)} :
      Phrase find? (.between none none) tokens items →
      Phrase find? (.between left right) (.leftParen :: tokens ++ [.rightParen]) items
  | call {left right : Option ι} {name : String} {f : ι} {tokens : List Token}
      {items : List (Item ι)} (hf : find? name = some f) :
      Phrase find? (.arguments (Symbol.fixity f).arity) tokens items →
      Phrase find? (.between left right) (.function name :: .leftParen :: tokens ++ [.rightParen])
        (items ++ [.symbol f])
  | unary {left right : Option ι} {symbol : String} {o : ι} {tokens : List Token}
      {items : List (Item ι)} (ho : find? symbol = some o)
      (hkind : (Symbol.fixity o).isOperator = true) (harity : (Symbol.fixity o).arity = 1)
      (hright : Yields o right) :
      Phrase find? (.between (some o) right) tokens items →
      Phrase find? (.between left right) (.operator symbol :: tokens) (items ++ [.symbol o])
  | binary {left right : Option ι} {symbol : String} {o : ι} {tokens tokens' : List Token}
      {items items' : List (Item ι)} (ho : find? symbol = some o)
      (hkind : (Symbol.fixity o).isOperator = true) (harity : (Symbol.fixity o).arity = 2)
      (hleft : Waits left o) (hright : Yields o right) :
      Phrase find? (.between left (some o)) tokens items →
      Phrase find? (.between (some o) right) tokens' items' →
      Phrase find? (.between left right) (tokens ++ .operator symbol :: tokens')
        (items ++ items' ++ [.symbol o])
  | argument {tokens : List Token} {items : List (Item ι)} :
      Phrase find? (.between none none) tokens items → Phrase find? (.arguments 1) tokens items
  | comma {count : Nat} {tokens tokens' : List Token} {items items' : List (Item ι)} :
      Phrase find? (.arguments count) tokens items →
      Phrase find? (.between none none) tokens' items' →
      Phrase find? (.arguments (count + 1)) (tokens ++ .comma :: tokens') (items ++ items')

variable {find? : String → Option ι}

/-- A phrase has a first token, and it is no closing parenthesis. -/
theorem Phrase.exists_head {place : Place ι} {tokens : List Token} {items : List (Item ι)}
    (h : Phrase find? place tokens items) :
    ∃ token rest, tokens = token :: rest ∧ token ≠ .rightParen := by
  induction h with
  | @operands _ _ words hwords =>
    cases words with
    | nil => exact absurd rfl hwords
    | cons word words => exact ⟨_, _, rfl, by simp⟩
  | group _ _ => exact ⟨_, _, rfl, by simp⟩
  | call _ _ _ => exact ⟨_, _, rfl, by simp⟩
  | unary _ _ _ _ _ _ => exact ⟨_, _, rfl, by simp⟩
  | binary _ _ _ _ _ _ _ ih _ =>
    obtain ⟨token, rest, rfl, htoken⟩ := ih
    exact ⟨token, _, rfl, htoken⟩
  | argument _ ih => exact ih
  | comma _ _ ih _ =>
    obtain ⟨token, rest, rfl, htoken⟩ := ih
    exact ⟨token, _, rfl, htoken⟩

/-! ### The pending stack -/

/-- The symbol on top of a pending stack. -/
def top : List (Pending ι) → Option ι
  | .symbol o :: _ => some o
  | _ => none

omit [Symbol ι] in
theorem popWhile_symbols {p : ι → Bool} {ops : List ι} (h : ∀ o ∈ ops, p o = true)
    (output : List (Item ι)) (pending : List (Pending ι)) :
    popWhile p output (ops.map .symbol ++ pending) =
      popWhile p ((ops.map .symbol).reverse ++ output) pending := by
  induction ops generalizing output with
  | nil => rfl
  | cons o ops ih =>
    have ho : p o = true := h o (List.mem_cons_self ..)
    have hops : ∀ o ∈ ops, p o = true := fun o' ho' => h o' (List.mem_cons_of_mem _ ho')
    simp [popWhile, ho, ih hops]

omit [Symbol ι] in
theorem popWhile_of_top {p : ι → Bool} {pending : List (Pending ι)}
    (h : ∀ o ∈ top pending, p o = false) (output : List (Item ι)) :
    popWhile p output pending = (output, pending) := by
  match pending with
  | [] => rfl
  | .paren _ :: _ => rfl
  | .symbol o :: rest =>
    have ho : p o = false := h o rfl
    simp [popWhile, ho]

/-- On top of `s` the state `t` holds the given items: those that are not in its output yet are
pending symbols, and all of these yield to the operator on the right. -/
def Holds (right : Option ι) (items : List (Item ι)) (s t : State ι) : Prop :=
  ∃ (ops : List ι) (done : List (Item ι)),
    t = ⟨done ++ s.output, ops.map .symbol ++ s.pending, s.arguments⟩ ∧
    items.reverse = (ops.map .symbol).reverse ++ done ∧ ∀ o ∈ ops, Yields o right

theorem Holds.of_output (right : Option ι) (items : List (Item ι)) (s : State ι) :
    Holds right items s ⟨items.reverse ++ s.output, s.pending, s.arguments⟩ :=
  ⟨[], items.reverse, rfl, rfl, by simp⟩

/-- The end of an operand brings all its items to the output. -/
theorem Holds.closeOperand {items : List (Item ι)} {s t : State ι} (h : Holds none items s t)
    (hs : top s.pending = none) :
    t.closeOperand = ⟨items.reverse ++ s.output, s.pending, s.arguments⟩ := by
  obtain ⟨ops, done, rfl, hitems, -⟩ := h
  simp only [State.closeOperand]
  rw [popWhile_symbols (fun _ _ => rfl), popWhile_of_top (by simp [hs]), ← List.append_assoc,
    ← hitems]

/-- An operator that the pending items yield to brings them to the output and goes on the stack. -/
theorem Holds.pushOperator {o : ι} {items : List (Item ι)} {s t : State ι}
    (h : Holds (some o) items s t) (harity : (Symbol.fixity o).arity = 2)
    (hs : Waits (top s.pending) o) :
    t.pushOperator o =
      ⟨items.reverse ++ s.output, .symbol o :: s.pending, s.arguments⟩ := by
  obtain ⟨ops, done, rfl, hitems, hops⟩ := h
  simp only [State.pushOperator, harity, if_true]
  rw [popWhile_symbols (fun p hp => hops p hp o rfl), popWhile_of_top hs, ← List.append_assoc,
    ← hitems]

theorem Holds.append {right : Option ι} {items items' : List (Item ι)} {s t : State ι}
    (h : Holds right items' ⟨items.reverse ++ s.output, s.pending, s.arguments⟩ t) :
    Holds right (items ++ items') s t := by
  obtain ⟨ops, done, rfl, hitems, hops⟩ := h
  exact ⟨ops, done ++ items.reverse, by simp, by simp [hitems], hops⟩

/-- The items above a pending operator are followed by that operator. -/
theorem Holds.symbol {o : ι} {right : Option ι} {items items' : List (Item ι)} {s t : State ι}
    (h : Holds right items' ⟨items.reverse ++ s.output, .symbol o :: s.pending, s.arguments⟩ t)
    (ho : Yields o right) : Holds right (items ++ items' ++ [.symbol o]) s t := by
  obtain ⟨ops, done, rfl, hitems, hops⟩ := h
  refine ⟨ops ++ [o], done ++ items.reverse, by simp, by simp [hitems], ?_⟩
  intro p hp
  rcases List.mem_append.mp hp with hp | hp
  · exact hops p hp
  · rw [List.mem_singleton.mp hp]
    exact ho

/-! ### Reading -/

/-- A function name before a parenthesis would make a call of it. -/
def StartsOperand (previous : Option Token) : Prop := ∀ name, previous ≠ some (.function name)

theorem State.run_cons {text : String} {previous : Option Token} {token : Token}
    {rest : List Token} {s t : State ι}
    (h : s.step find? text previous rest.head? token = .ok t) :
    State.run find? text previous (token :: rest) s =
      State.run find? text (some token) rest t := by
  simp only [State.run, h]
  rfl

theorem State.step_operator {text symbol : String} {previous next : Option Token} {o : ι}
    {s : State ι} (ho : find? symbol = some o) (hkind : (Symbol.fixity o).isOperator = true) :
    s.step find? text previous next (.operator symbol) = .ok (s.pushOperator o) := by
  simp [State.step, ho, Option.filter, hkind]

theorem State.step_leftParen {text : String} {previous next : Option Token} {s : State ι}
    (h : StartsOperand previous) : s.step find? text previous next .leftParen =
      .ok { s with pending := .paren false :: s.pending } := by
  cases previous with
  | none => rfl
  | some token =>
    cases token with
    | function name => exact absurd rfl (h name)
    | _ => rfl

theorem State.run_operands {text : String} (words : List String) (previous : Option Token)
    (rest : List Token) (s : State ι) :
    ∃ previous', (StartsOperand previous → StartsOperand previous') ∧
      State.run find? text previous (words.map .operand ++ rest) s =
        State.run find? text previous' rest
          ⟨(words.map .operand).reverse ++ s.output, s.pending, s.arguments⟩ := by
  induction words generalizing previous s with
  | nil => exact ⟨previous, id, rfl⟩
  | cons word words ih =>
    obtain ⟨previous', hstart, h⟩ := ih (some (.operand word))
      { s with output := .operand word :: s.output }
    refine ⟨previous', fun _ => hstart (by simp [StartsOperand]), ?_⟩
    rw [List.map_cons, List.cons_append, State.run_cons rfl, h]
    simp

/-- From a state whose pending stack fits the place, the tokens are read and leave their items on
top of the state. Of a call the arguments are counted up to the given number. -/
def Reads (find? : String → Option ι) : Place ι → List Token → List (Item ι) → Prop
  | .between left right, tokens, items =>
    ∀ (text : String) (previous : Option Token) (rest : List Token) (s : State ι),
      StartsOperand previous → top s.pending = left →
      ∃ previous' t, State.run find? text previous (tokens ++ rest) s =
        State.run find? text previous' rest t ∧ Holds right items s t
  | .arguments count, tokens, items =>
    ∀ (text : String) (previous : Option Token) (rest : List Token) (s : State ι)
      (pending : List (Pending ι)) (counts : List Nat),
      StartsOperand previous → s.pending = .paren true :: pending → s.arguments = 1 :: counts →
      ∃ previous' t, State.run find? text previous (tokens ++ rest) s =
        State.run find? text previous' rest t ∧
          Holds none items { s with arguments := count :: counts } t

namespace Reads

variable {left right : Option ι} {tokens tokens' : List Token} {items items' : List (Item ι)}

theorem operands (words : List String) :
    Reads find? (.between left right) (words.map .operand) (words.map .operand) := by
  intro text previous rest s _ _
  obtain ⟨previous', -, h⟩ := State.run_operands words previous rest s
  exact ⟨previous', _, h, Holds.of_output right (words.map .operand) s⟩

theorem group (h : Reads find? (.between none none) tokens items) :
    Reads find? (.between left right) (.leftParen :: tokens ++ [.rightParen]) items := by
  intro text previous rest s hprevious _
  let opened : State ι := { s with pending := .paren false :: s.pending }
  have hopen : s.step find? text previous (tokens ++ .rightParen :: rest).head? .leftParen =
      .ok opened := State.step_leftParen hprevious
  obtain ⟨previous', t, hrun, ht⟩ :=
    h text (some .leftParen) (.rightParen :: rest) opened (by simp [StartsOperand]) rfl
  have hclose : t.step find? text previous' rest.head? .rightParen =
      .ok ⟨items.reverse ++ s.output, s.pending, s.arguments⟩ := by
    simp [State.step, State.closeParen, ht.closeOperand rfl, opened]
  refine ⟨some .rightParen, _, ?_, Holds.of_output right items s⟩
  rw [List.cons_append, List.cons_append, List.append_assoc, List.singleton_append,
    State.run_cons hopen, hrun, State.run_cons hclose]

theorem call {name : String} {f : ι} (hf : find? name = some f)
    (hhead : ∃ token rest, tokens = token :: rest ∧ token ≠ .rightParen)
    (h : Reads find? (.arguments (Symbol.fixity f).arity) tokens items) :
    Reads find? (.between left right) (.function name :: .leftParen :: tokens ++ [.rightParen])
      (items ++ [.symbol f]) := by
  intro text previous rest s _ _
  let named : State ι := { s with pending := .symbol f :: s.pending }
  let opened : State ι := ⟨s.output, .paren true :: .symbol f :: s.pending, 1 :: s.arguments⟩
  have hname : s.step find? text previous
      (Token.leftParen :: (tokens ++ .rightParen :: rest)).head? (.function name) = .ok named := by
    simp [State.step, hf, named]
  have hopen : named.step find? text (some (.function name))
      (tokens ++ .rightParen :: rest).head? .leftParen = .ok opened := by
    obtain ⟨token, after, rfl, htoken⟩ := hhead
    simp [State.step, State.openParen, htoken, named, opened]
  obtain ⟨previous', t, hrun, ht⟩ :=
    h text (some .leftParen) (.rightParen :: rest) opened _ _ (by simp [StartsOperand]) rfl rfl
  have hclose : t.step find? text previous' rest.head? .rightParen =
      .ok ⟨(items ++ [Item.symbol f]).reverse ++ s.output, s.pending, s.arguments⟩ := by
    simp [State.step, State.closeParen, ht.closeOperand rfl, opened]
  refine ⟨some .rightParen, _, ?_, Holds.of_output right _ s⟩
  rw [List.cons_append, List.cons_append, List.cons_append, List.cons_append, List.append_assoc,
    List.singleton_append, State.run_cons hname, State.run_cons hopen, hrun,
    State.run_cons hclose]

theorem unary {symbol : String} {o : ι} (ho : find? symbol = some o)
    (hkind : (Symbol.fixity o).isOperator = true) (harity : (Symbol.fixity o).arity = 1)
    (hright : Yields o right) (h : Reads find? (.between (some o) right) tokens items) :
    Reads find? (.between left right) (.operator symbol :: tokens) (items ++ [.symbol o]) := by
  intro text previous rest s _ _
  let pushed : State ι := { s with pending := .symbol o :: s.pending }
  have hstep : s.step find? text previous (tokens ++ rest).head? (.operator symbol) =
      .ok pushed := by
    simp [State.step_operator ho hkind, State.pushOperator, harity, pushed]
  obtain ⟨previous', t, hrun, ht⟩ :=
    h text (some (.operator symbol)) rest pushed (by simp [StartsOperand]) rfl
  have hitems : Holds right ([] ++ items ++ [.symbol o]) s t := Holds.symbol ht hright
  refine ⟨previous', t, ?_, hitems⟩
  rw [List.cons_append, State.run_cons hstep, hrun]

theorem binary {symbol : String} {o : ι} (ho : find? symbol = some o)
    (hkind : (Symbol.fixity o).isOperator = true) (harity : (Symbol.fixity o).arity = 2)
    (hleft : Waits left o) (hright : Yields o right)
    (h : Reads find? (.between left (some o)) tokens items)
    (h' : Reads find? (.between (some o) right) tokens' items') :
    Reads find? (.between left right) (tokens ++ .operator symbol :: tokens')
      (items ++ items' ++ [.symbol o]) := by
  intro text previous rest s hprevious hs
  obtain ⟨previous₁, t₁, hrun₁, ht₁⟩ :=
    h text previous (.operator symbol :: (tokens' ++ rest)) s hprevious hs
  let pushed : State ι := ⟨items.reverse ++ s.output, .symbol o :: s.pending, s.arguments⟩
  have hstep : t₁.step find? text previous₁ (tokens' ++ rest).head? (.operator symbol) =
      .ok pushed := by
    rw [State.step_operator ho hkind, ht₁.pushOperator harity (hs ▸ hleft)]
  obtain ⟨previous₂, t₂, hrun₂, ht₂⟩ :=
    h' text (some (.operator symbol)) rest pushed (by simp [StartsOperand]) rfl
  refine ⟨previous₂, t₂, ?_, ht₂.symbol hright⟩
  rw [List.append_assoc, List.cons_append, hrun₁, State.run_cons hstep, hrun₂]

theorem argument (h : Reads find? (.between none none) tokens items) :
    Reads find? (.arguments 1) tokens items := by
  intro text previous rest s pending counts hprevious hs hcounts
  obtain ⟨previous', t, hrun, ht⟩ := h text previous rest s hprevious (by simp [top, hs])
  refine ⟨previous', t, hrun, ?_⟩
  rw [← hcounts]
  exact ht

theorem comma {count : Nat} (h : Reads find? (.arguments count) tokens items)
    (h' : Reads find? (.between none none) tokens' items') :
    Reads find? (.arguments (count + 1)) (tokens ++ .comma :: tokens') (items ++ items') := by
  intro text previous rest s pending counts hprevious hs hcounts
  obtain ⟨previous₁, t₁, hrun₁, ht₁⟩ :=
    h text previous (.comma :: (tokens' ++ rest)) s pending counts hprevious hs hcounts
  let counted : State ι := ⟨items.reverse ++ s.output, s.pending, (count + 1) :: counts⟩
  have hstep : t₁.step find? text previous₁ (tokens' ++ rest).head? .comma = .ok counted := by
    simp [State.step, State.comma, ht₁.closeOperand (by simp [top, hs]), hs, counted]
  obtain ⟨previous₂, t₂, hrun₂, ht₂⟩ :=
    h' text (some .comma) rest counted (by simp [StartsOperand]) (by simp [top, hs, counted])
  refine ⟨previous₂, t₂, ?_, Holds.append (s := ⟨_, _, (count + 1) :: counts⟩) ht₂⟩
  rw [List.append_assoc, List.cons_append, hrun₁, State.run_cons hstep, hrun₂]

end Reads

/-- A phrase is read to its items wherever it may stand. -/
theorem Phrase.reads {place : Place ι} {tokens : List Token} {items : List (Item ι)}
    (h : Phrase find? place tokens items) : Reads find? place tokens items := by
  induction h with
  | operands _ => exact Reads.operands _
  | group _ ih => exact ih.group
  | call hf h ih => exact ih.call hf h.exists_head
  | unary ho hkind harity hright _ ih => exact ih.unary ho hkind harity hright
  | binary ho hkind harity hleft hright _ _ ih ih' =>
    exact ih.binary ho hkind harity hleft hright ih'
  | argument _ ih => exact ih.argument
  | comma _ _ ih ih' => exact ih.comma ih'

/-- The postfix order of a phrase that stands alone. -/
theorem Phrase.toPostfix {tokens : List Token} {items : List (Item ι)}
    (h : Phrase find? (.between none none) tokens items) (text : String) :
    toPostfix find? text tokens = .ok items := by
  obtain ⟨previous, t, hrun, ht⟩ := h.reads text none [] {} (by simp [StartsOperand]) rfl
  rw [List.append_nil] at hrun
  have hfinish : t.finish text = .ok items := by
    simp [State.finish, ht.closeOperand rfl]
  simp only [Infix.toPostfix, hrun, State.run]
  exact hfinish

end FuzzyInference.Infix
