import FuzzyInference.Proofs.Antecedent.Placement
import FuzzyInference.Proofs.Formula.Placement
import FuzzyInference.Proofs.Formula.Spacing

/-!
Open calls. While tokens are read, there is one argument count for each call that is open on the
pending stack, and each of these calls has its function right below its parenthesis. The open
parentheses on the stack are those that the tokens so far leave open. So tokens whose parentheses do
not match have no postfix order, and others are never refused for their parentheses. All this needs
of a registry is that the names which stand for functions among the tokens are those of functions.
-/
namespace FuzzyInference

namespace Infix

variable {ι : Type}

/-! ### Parentheses -/

/-- The number of open parentheses after one more token, if it closes none that is not open. -/
def Token.depth? (depth : Nat) : Token → Option Nat
  | .leftParen => some (depth + 1)
  | .rightParen => if depth = 0 then none else some (depth - 1)
  | _ => some depth

/-- Every parenthesis is closed after it was opened. -/
def IsBalanced (tokens : List Token) : Prop := tokens.foldlM Token.depth? 0 = some 0

instance (tokens : List Token) : Decidable (IsBalanced tokens) :=
  inferInstanceAs (Decidable (tokens.foldlM Token.depth? 0 = some 0))

/-- The number of open parentheses on a pending stack. -/
def depth : List (Pending ι) → Nat
  | [] => 0
  | .symbol _ :: rest => depth rest
  | .paren _ :: rest => depth rest + 1

theorem depth_popWhile (p : ι → Bool) (output : List (Item ι)) (pending : List (Pending ι)) :
    depth (popWhile p output pending).2 = depth pending := by
  fun_induction popWhile p output pending with
  | case1 output s rest hs ih => exact ih
  | case2 output s rest hs => rfl
  | case3 output pending => rfl

theorem depth_closeOperand (s : State ι) : depth s.closeOperand.pending = depth s.pending :=
  depth_popWhile _ _ _

/-- At the end of an operand the stack is empty, or an open parenthesis is on top. -/
theorem State.eq_nil_or_exists_of_closeOperand (s : State ι) :
    s.closeOperand.pending = [] ∨
      ∃ call pending, s.closeOperand.pending = .paren call :: pending := by
  obtain ⟨output, pending, counts⟩ := s
  induction pending generalizing output with
  | nil => exact .inl rfl
  | cons item rest ih =>
    cases item with
    | symbol o => exact ih _
    | paren call => exact .inr ⟨call, rest, rfl⟩

section Depth

variable [Symbol ι] {find? : String → Option ι} {text : String} {s t : State ι}

theorem depth_pushOperator (s : State ι) (o : ι) :
    depth (s.pushOperator o).pending = depth s.pending := by
  unfold State.pushOperator
  dsimp only
  split
  · exact depth_popWhile _ _ _
  · rfl

omit [Symbol ι] in
theorem depth_openParen (s : State ι) (previous next : Option Token) :
    depth (s.openParen previous next).pending = depth s.pending + 1 := by
  unfold State.openParen
  split <;> rfl

omit [Symbol ι] in
theorem depth_comma (h : s.comma = .ok t) : depth t.pending = depth s.pending := by
  obtain ⟨pending, count, counts, -, -, rfl⟩ := State.exists_of_comma h
  exact depth_closeOperand s

theorem depth_closeParen (h : s.closeParen text = .ok t) :
    depth s.pending = depth t.pending + 1 := by
  rw [← depth_closeOperand s]
  obtain ⟨pending, hpending, rfl⟩ | ⟨f, pending, hpending, -, rfl⟩ := State.exists_of_closeParen h
  · rw [hpending]
    rfl
  · rw [hpending]
    rfl

/-- The stack has as many open parentheses as the tokens. -/
theorem depth_step {previous next : Option Token} {token : Token}
    (h : s.step find? text previous next token = .ok t) :
    Token.depth? (depth s.pending) token = some (depth t.pending) := by
  cases token with
  | operand word =>
    cases h
    rfl
  | operator symbol =>
    obtain ⟨o, -, -, rfl⟩ := State.exists_of_step_operator h
    exact congrArg some (depth_pushOperator s o).symm
  | function name =>
    obtain ⟨f, -, rfl⟩ := State.exists_of_step_function h
    rfl
  | leftParen =>
    cases h
    exact congrArg some (depth_openParen s previous next).symm
  | rightParen =>
    rw [depth_closeParen h]
    rfl
  | comma => exact congrArg some (depth_comma h).symm

theorem depth_run {previous : Option Token} {tokens : List Token}
    (h : State.run find? text previous tokens s = .ok t) :
    tokens.foldlM Token.depth? (depth s.pending) = some (depth t.pending) := by
  induction tokens generalizing previous s with
  | nil =>
    cases h
    rfl
  | cons token rest ih =>
    obtain ⟨next, hstep, hrest⟩ := State.exists_of_run_cons h
    rw [List.foldlM_cons, depth_step hstep]
    exact ih hrest

theorem isBalanced_of_toPostfix {tokens : List Token} {items : List (Item ι)}
    (h : toPostfix find? text tokens = .ok items) : IsBalanced tokens := by
  obtain ⟨t, arguments, hrun, hclosed⟩ := exists_of_toPostfix h
  have hdepth : depth t.pending = 0 := by
    rw [← depth_closeOperand t, hclosed]
    rfl
  have hfold := depth_run hrun
  rwa [hdepth] at hfold

end Depth

/-! ### Calls -/

def Pending.isCall : Pending ι → Bool
  | .symbol _ => false
  | .paren call => call

variable [Symbol ι]

def IsFunction (f : ι) : Prop := (Symbol.fixity f).kind = .function

theorem not_isFunction_of_isOperator {o : ι} (h : (Symbol.fixity o).isOperator = true) :
    ¬IsFunction o := by
  intro hfunction
  rw [IsFunction] at hfunction
  simp [Fixity.isOperator, hfunction] at h

/-- On the pending stack each open call has its function below it and a count of its arguments, and
the other symbols are operators. -/
inductive Stacked : List (Pending ι) → List Nat → Prop
  | nil : Stacked [] []
  | operator {o : ι} {pending : List (Pending ι)} {counts : List Nat} (ho : ¬IsFunction o)
      (h : Stacked pending counts) : Stacked (.symbol o :: pending) counts
  | group {pending : List (Pending ι)} {counts : List Nat} (h : Stacked pending counts) :
      Stacked (.paren false :: pending) counts
  | call {f : ι} {pending : List (Pending ι)} {counts : List Nat} (hf : IsFunction f) (count : Nat)
      (h : Stacked pending counts) :
      Stacked (.paren true :: .symbol f :: pending) (count :: counts)

namespace Stacked

variable {pending : List (Pending ι)} {counts : List Nat}

theorem popWhile (h : Stacked pending counts) (p : ι → Bool) (output : List (Item ι)) :
    Stacked (Infix.popWhile p output pending).2 counts := by
  induction h generalizing output with
  | nil => exact .nil
  | operator ho h ih =>
    simp only [Infix.popWhile]
    split
    · exact ih _
    · exact .operator ho h
  | group h => exact .group h
  | call hf count h => exact .call hf count h

theorem pushOperator {s : State ι} (h : Stacked s.pending s.arguments) {o : ι}
    (ho : ¬IsFunction o) : Stacked (s.pushOperator o).pending (s.pushOperator o).arguments := by
  unfold State.pushOperator
  dsimp only
  split
  · exact .operator ho (h.popWhile _ _)
  · exact .operator ho h

/-- Below the parenthesis of a call are its function and what was pending before. -/
theorem exists_of_call (h : Stacked (.paren true :: pending) counts) :
    ∃ f below count rest, pending = .symbol f :: below ∧ counts = count :: rest ∧ IsFunction f ∧
      Stacked below rest := by
  cases h with
  | call hf count h => exact ⟨_, _, count, _, rfl, rfl, hf, h⟩

theorem of_group (h : Stacked (.paren false :: pending) counts) : Stacked pending counts := by
  cases h with
  | group h => exact h

theorem length (h : Stacked pending counts) : counts.length = pending.countP Pending.isCall := by
  induction h with
  | nil => rfl
  | operator _ _ ih => exact ih
  | group _ ih => exact ih
  | call _ _ _ ih => simp [List.countP_cons, Pending.isCall, ih]

theorem function_of_call (h : Stacked pending counts) {i : Nat}
    (hi : pending[i]? = some (.paren true)) :
    ∃ f, pending[i + 1]? = some (.symbol f) ∧ IsFunction f := by
  induction h generalizing i with
  | nil => simp at hi
  | operator _ _ ih =>
    cases i with
    | zero => simp at hi
    | succ i => exact ih hi
  | group _ ih =>
    cases i with
    | zero => simp at hi
    | succ i => exact ih hi
  | call hf _ _ ih =>
    match i with
    | 0 => exact ⟨_, rfl, hf⟩
    | 1 => simp at hi
    | i + 2 => exact ih hi

theorem call_of_function (h : Stacked pending counts) {i : Nat} {f : ι}
    (hi : pending[i]? = some (.symbol f)) (hf : IsFunction f) :
    ∃ j, i = j + 1 ∧ pending[j]? = some (.paren true) := by
  -- A position below the first items of the stack is found by the induction, moved past them.
  induction h generalizing i with
  | nil => simp at hi
  | operator ho _ ih =>
    cases i with
    | zero =>
      cases hi
      exact absurd hf ho
    | succ i =>
      obtain ⟨j, rfl, hj⟩ := ih hi
      exact ⟨j + 1, rfl, hj⟩
  | group _ ih =>
    cases i with
    | zero => simp at hi
    | succ i =>
      obtain ⟨j, rfl, hj⟩ := ih hi
      exact ⟨j + 1, rfl, hj⟩
  | call _ _ _ ih =>
    match i with
    | 0 => simp at hi
    | 1 => exact ⟨0, rfl, rfl⟩
    | i + 2 =>
      obtain ⟨j, rfl, hj⟩ := ih hi
      exact ⟨j + 2, rfl, hj⟩

end Stacked

/-- The stacks between two tokens: a function whose name was just read is on top, before the
parenthesis of its call. -/
inductive Aligned (find? : String → Option ι) :
    Option Token → List Token → List (Pending ι) → List Nat → Prop
  | between {previous : Option Token} {rest : List Token} {pending : List (Pending ι)}
      {counts : List Nat} (hprevious : StartsOperand previous) (h : Stacked pending counts) :
      Aligned find? previous rest pending counts
  | named {name : String} {f : ι} {rest : List Token} {pending : List (Pending ι)}
      {counts : List Nat} (hfind : find? name = some f) (hf : IsFunction f)
      (h : Stacked pending counts) :
      Aligned find? (some (.function name)) (.leftParen :: rest) (.symbol f :: pending) counts

/-- The names of functions among the tokens stand for functions. -/
def NamesFunctions (find? : String → Option ι) (tokens : List Token) : Prop :=
  ∀ name, .function name ∈ tokens → ∀ f ∈ find? name, IsFunction f

variable {find? : String → Option ι} {text : String} {previous : Option Token} {token : Token}
  {rest : List Token} {s t : State ι}

theorem State.next_of_step_function {next : Option Token} {name : String}
    (h : s.step find? text previous next (.function name) = .ok t) : next = some .leftParen := by
  simp only [State.step] at h
  split at h
  · next hnext => exact hnext
  · cases h

namespace Aligned

theorem stacked (h : Aligned find? previous (token :: rest) s.pending s.arguments)
    (htoken : token ≠ .leftParen) : Stacked s.pending s.arguments := by
  obtain ⟨output, pending, counts⟩ := s
  cases h with
  | between _ h => exact h
  | named _ _ _ => exact absurd rfl htoken

theorem closeOperand (h : Aligned find? previous rest s.pending s.arguments) :
    Stacked s.closeOperand.pending s.arguments := by
  obtain ⟨output, pending, counts⟩ := s
  cases h with
  | between _ h => exact h.popWhile _ _
  | named _ _ h => exact h.popWhile _ _

theorem openParen (h : Aligned find? previous (.leftParen :: rest) s.pending s.arguments)
    (hstep : s.step find? text previous rest.head? .leftParen = .ok t) :
    Stacked t.pending t.arguments := by
  obtain ⟨output, pending, counts⟩ := s
  cases h with
  | between hprevious h =>
    rw [State.step_leftParen hprevious] at hstep
    cases hstep
    exact .group h
  | named _ hf h =>
    cases hstep
    exact .call hf _ h

theorem comma (h : Aligned find? previous rest s.pending s.arguments) (hstep : s.comma = .ok t) :
    Stacked t.pending t.arguments := by
  obtain ⟨pending, count, counts, hpending, hcounts, rfl⟩ := State.exists_of_comma hstep
  have hclosed := h.closeOperand
  rw [hpending, show s.arguments = count :: counts from hcounts] at hclosed
  rw [hpending]
  cases hclosed with
  | call hf _ hbelow => exact .call hf _ hbelow

theorem closeParen (h : Aligned find? previous rest s.pending s.arguments)
    (hstep : s.closeParen text = .ok t) : Stacked t.pending t.arguments := by
  have hclosed := h.closeOperand
  obtain ⟨pending, hpending, rfl⟩ | ⟨f, pending, hpending, -, rfl⟩ :=
    State.exists_of_closeParen hstep
  · rw [hpending] at hclosed
    exact hclosed.of_group
  · rw [hpending] at hclosed
    obtain ⟨f, below, count, counts, hcons, hcounts, -, hbelow⟩ := hclosed.exists_of_call
    obtain ⟨-, rfl⟩ := List.cons.inj hcons
    rwa [show s.closeOperand.arguments = count :: counts from hcounts]

/-- One token keeps the stacks aligned. -/
theorem step (h : Aligned find? previous (token :: rest) s.pending s.arguments)
    (hnames : NamesFunctions find? (token :: rest))
    (hstep : s.step find? text previous rest.head? token = .ok t) :
    Aligned find? (some token) rest t.pending t.arguments := by
  cases token with
  | operand word =>
    have hstacked := h.stacked (by simp)
    cases hstep
    exact .between (by simp [StartsOperand]) hstacked
  | operator symbol =>
    have hstacked := h.stacked (by simp)
    obtain ⟨o, -, ho, rfl⟩ := State.exists_of_step_operator hstep
    have hoperator := not_isFunction_of_isOperator ho
    exact .between (by simp [StartsOperand]) (hstacked.pushOperator hoperator)
  | function name =>
    have hstacked := h.stacked (by simp)
    have hnext := State.next_of_step_function hstep
    obtain ⟨f, hfind, rfl⟩ := State.exists_of_step_function hstep
    obtain ⟨after, rfl⟩ := List.head?_eq_some_iff.mp hnext
    exact .named hfind (hnames name List.mem_cons_self f hfind) hstacked
  | leftParen => exact .between (by simp [StartsOperand]) (h.openParen hstep)
  | rightParen => exact .between (by simp [StartsOperand]) (h.closeParen hstep)
  | comma => exact .between (by simp [StartsOperand]) (h.comma hstep)

/-- At a closing parenthesis the function of a call and the count of its arguments are there. -/
theorem exists_of_closes (h : Aligned find? previous rest s.pending s.arguments)
    {below : List (Pending ι)} (hclosed : s.closeOperand.pending = .paren true :: below) :
    ∃ f pending count counts, below = .symbol f :: pending ∧ s.arguments = count :: counts ∧
      IsFunction f := by
  have hstacked := h.closeOperand
  rw [hclosed] at hstacked
  obtain ⟨f, pending, count, counts, hbelow, hcounts, hf, -⟩ := hstacked.exists_of_call
  exact ⟨f, pending, count, counts, hbelow, hcounts, hf⟩

theorem length (h : Aligned find? previous rest s.pending s.arguments) :
    s.arguments.length = s.pending.countP Pending.isCall := by
  obtain ⟨output, pending, counts⟩ := s
  cases h with
  | between _ h => exact h.length
  | named _ _ h => exact h.length

theorem function_of_call (h : Aligned find? previous rest s.pending s.arguments) {i : Nat}
    (hi : s.pending[i]? = some (.paren true)) :
    ∃ f, s.pending[i + 1]? = some (.symbol f) ∧ IsFunction f := by
  obtain ⟨output, pending, counts⟩ := s
  cases h with
  | between _ h => exact h.function_of_call hi
  | named _ _ h =>
    cases i with
    | zero => simp at hi
    | succ i => exact h.function_of_call hi

theorem call_of_function (h : Aligned find? previous rest s.pending s.arguments) {i : Nat} {f : ι}
    (hi : s.pending[i]? = some (.symbol f)) (hf : IsFunction f) :
    (∃ j, i = j + 1 ∧ s.pending[j]? = some (.paren true)) ∨
      i = 0 ∧ (∃ name, previous = some (.function name) ∧ find? name = some f) ∧
        rest.head? = some .leftParen := by
  obtain ⟨output, pending, counts⟩ := s
  cases h with
  | between _ h => exact .inl (h.call_of_function hi hf)
  | @named name _ _ _ _ hfind _ h =>
    cases i with
    | zero =>
      cases hi
      exact .inr ⟨rfl, ⟨name, rfl, hfind⟩, rfl⟩
    | succ i =>
      obtain ⟨j, rfl, hj⟩ := h.call_of_function hi hf
      exact .inl ⟨j + 1, rfl, hj⟩

end Aligned

/-- The stacks of the state between two tokens. The positions of the pending stack count from its
top. -/
structure State.InStep (find? : String → Option ι) (previous : Option Token) (rest : List Token)
    (s : State ι) : Prop where
  length_arguments : s.arguments.length = s.pending.countP Pending.isCall
  function_of_call {i : Nat} (h : s.pending[i]? = some (.paren true)) :
    ∃ f, s.pending[i + 1]? = some (.symbol f) ∧ IsFunction f
  /-- A function is below the parenthesis of its call, or on top before that parenthesis is read. -/
  call_of_function {i : Nat} {f : ι} (h : s.pending[i]? = some (.symbol f)) (hf : IsFunction f) :
    (∃ j, i = j + 1 ∧ s.pending[j]? = some (.paren true)) ∨
      i = 0 ∧ (∃ name, previous = some (.function name) ∧ find? name = some f) ∧
        rest.head? = some .leftParen
  /-- A call that ends has its function and a count. -/
  exists_of_closes {below : List (Pending ι)}
    (h : s.closeOperand.pending = .paren true :: below) :
    ∃ f pending count counts, below = .symbol f :: pending ∧ s.arguments = count :: counts ∧
      IsFunction f

theorem Aligned.inStep (h : Aligned find? previous rest s.pending s.arguments) :
    s.InStep find? previous rest where
  length_arguments := h.length
  function_of_call := h.function_of_call
  call_of_function := h.call_of_function
  exists_of_closes := h.exists_of_closes

/-! ### Reading -/

/-- The states between the tokens, with the token that was read before and those that remain. -/
inductive Reached (find? : String → Option ι) (text : String) (tokens : List Token) :
    Option Token → List Token → State ι → Prop
  | start : Reached find? text tokens none tokens {}
  | step {previous : Option Token} {token : Token} {rest : List Token} {s t : State ι}
      (h : Reached find? text tokens previous (token :: rest) s)
      (hstep : s.step find? text previous rest.head? token = .ok t) :
      Reached find? text tokens (some token) rest t

namespace Reached

variable {tokens : List Token}

theorem suffix (h : Reached find? text tokens previous rest s) : rest <:+ tokens := by
  induction h with
  | start => exact List.suffix_refl _
  | step _ _ ih => exact (List.suffix_cons _ _).trans ih

/-- What remains is read as in the reading of all tokens. -/
theorem run_eq (h : Reached find? text tokens previous rest s) :
    State.run find? text none tokens {} = State.run find? text previous rest s := by
  induction h with
  | start => rfl
  | step _ hstep ih => rw [ih, State.run_cons hstep]

theorem aligned (hnames : NamesFunctions find? tokens)
    (h : Reached find? text tokens previous rest s) :
    Aligned find? previous rest s.pending s.arguments := by
  induction h with
  | start => exact .between (by simp [StartsOperand]) .nil
  | step h hstep ih =>
    exact ih.step (fun name hname => hnames name (h.suffix.subset hname)) hstep

end Reached

/-! ### Refusals -/

section Refusals

variable {shown : String}

omit [Symbol ι] in
theorem State.finish_of_depth (h : depth s.pending = 0) (text : String) :
    s.finish text = .ok s.closeOperand.output.reverse := by
  rw [← depth_closeOperand s] at h
  rcases s.eq_nil_or_exists_of_closeOperand with hnil | ⟨call, pending, hcons⟩
  · have hclosed : s.closeOperand = ⟨s.closeOperand.output, [], s.closeOperand.arguments⟩ := by
      rw [← hnil]
    rw [State.finish, hclosed]
  · rw [hcons] at h
    cases h

namespace Aligned

theorem closeParen_ne (h : Aligned find? previous rest s.pending s.arguments)
    (hdepth : depth s.pending ≠ 0) :
    s.closeParen text ≠ .error (.parse (.unbalancedParentheses shown)) := by
  rw [← depth_closeOperand s] at hdepth
  rcases s.eq_nil_or_exists_of_closeOperand with hnil | ⟨call, below, hclosed⟩
  · rw [hnil] at hdepth
    exact absurd rfl hdepth
  cases call with
  | false => simp [State.closeParen, hclosed]
  | true =>
    obtain ⟨f, pending, count, counts, rfl, -, -⟩ := h.exists_of_closes hclosed
    simp only [State.closeParen, hclosed]
    split <;> simp

/-- Only a closing parenthesis can be refused for the parentheses. -/
theorem step_ne (h : Aligned find? previous rest s.pending s.arguments) {next : Option Token}
    (hdepth : Token.depth? (depth s.pending) token ≠ none) :
    s.step find? text previous next token ≠ .error (.parse (.unbalancedParentheses shown)) := by
  cases token with
  | operand word => simp [State.step]
  | operator symbol =>
    simp only [State.step]
    split <;> simp
  | function name =>
    simp only [State.step]
    split
    · split <;> simp
    · simp
  | leftParen => simp [State.step]
  | rightParen => exact h.closeParen_ne fun hzero => hdepth (if_pos hzero)
  | comma =>
    simp only [State.step, State.comma]
    split <;> simp

theorem run_ne {tokens : List Token} (h : Aligned find? previous tokens s.pending s.arguments)
    (hnames : NamesFunctions find? tokens)
    (hdepth : tokens.foldlM Token.depth? (depth s.pending) ≠ none) :
    State.run find? text previous tokens s ≠ .error (.parse (.unbalancedParentheses shown)) := by
  induction tokens generalizing previous s with
  | nil => simp [State.run]
  | cons token rest ih =>
    intro hrun
    rw [State.run] at hrun
    rw [List.foldlM_cons] at hdepth
    cases hstep : s.step find? text previous rest.head? token with
    | error e =>
      rw [hstep] at hrun
      cases hrun
      refine h.step_ne (fun hnone => hdepth ?_) hstep
      rw [hnone]
      rfl
    | ok t =>
      rw [hstep] at hrun
      rw [depth_step hstep] at hdepth
      exact ih (h.step hnames hstep) (fun name hname => hnames name (List.mem_cons_of_mem _ hname))
        hdepth hrun

end Aligned

theorem toPostfix_ne_unbalanced {tokens : List Token} (hnames : NamesFunctions find? tokens)
    (hbalanced : IsBalanced tokens) :
    toPostfix find? text tokens ≠ .error (.parse (.unbalancedParentheses shown)) := by
  intro h
  rw [toPostfix] at h
  cases hrun : State.run find? text none tokens ({} : State ι) with
  | error e =>
    rw [hrun] at h
    cases h
    have haligned : Aligned find? none tokens [] [] := .between (by simp [StartsOperand]) .nil
    refine Aligned.run_ne (s := {}) haligned hnames (fun hnone => ?_) hrun
    rw [IsBalanced, show tokens.foldlM Token.depth? 0 = none from hnone] at hbalanced
    cases hbalanced
  | ok t =>
    have hdepth : some 0 = some (depth t.pending) := hbalanced.symm.trans (depth_run hrun)
    have hfinish := State.finish_of_depth (Option.some.inj hdepth).symm text
    rw [hrun] at h
    cases hfinish.symm.trans h

end Refusals

/-- While the tokens are read the stacks are in step. The tokens have no postfix order if their
parentheses are not balanced, and else they are not refused for these. -/
structure KeepsStep (find? : String → Option ι) (text : String) (tokens : List Token) : Prop where
  inStep {previous : Option Token} {rest : List Token} {s : State ι}
    (h : Reached find? text tokens previous rest s) : s.InStep find? previous rest
  exists_error (h : ¬IsBalanced tokens) : ∃ e, toPostfix find? text tokens = .error e
  ne_unbalanced (h : IsBalanced tokens) (shown : String) :
    toPostfix find? text tokens ≠ .error (.parse (.unbalancedParentheses shown))

theorem KeepsStep.of_namesFunctions {tokens : List Token} (hnames : NamesFunctions find? tokens)
    (text : String) : KeepsStep find? text tokens where
  inStep h := (h.aligned hnames).inStep
  exists_error h := by
    cases hresult : toPostfix find? text tokens with
    | error e => exact ⟨e, rfl⟩
    | ok items => exact absurd (isBalanced_of_toPostfix hresult) h
  ne_unbalanced h _ := toPostfix_ne_unbalanced hnames h

end Infix

/-! ### Registries -/

namespace Formula

open Infix

variable {α : Type} {v : Vocabulary α} {previous : Option Token} {name : String}

theorem symbolToken_ne_function (c : Char) :
    symbolToken v previous c ≠ .ok (.function name) := by
  unfold symbolToken
  split_ifs <;> simp

theorem isFunction_of_nameToken {word : String} {after : List Char}
    (h : nameToken v word after = .ok (.function name)) : v.isFunction name = true := by
  unfold nameToken at h
  split_ifs at h with hfunction
  all_goals cases h
  exact hfunction

theorem isFunction_of_nextToken {c : Char} {after : List Char} {length : Nat}
    (h : nextToken v previous c after = .ok (.function name, length)) :
    v.isFunction name = true := by
  unfold nextToken at h
  split at h
  · cases h
  split at h
  · obtain ⟨token, htoken, h⟩ := exists_of_bind_eq_ok h
    cases h
    exact isFunction_of_nameToken htoken
  · obtain ⟨token, htoken, h⟩ := exists_of_bind_eq_ok h
    cases h
    exact absurd htoken (symbolToken_ne_function c)

theorem namesFunctions_of_tokensAfter {characters : List Char} {tokens : List Token}
    (h : tokensAfter v previous characters = .ok tokens) :
    NamesFunctions v.get? tokens := by
  induction tokens generalizing previous characters with
  | nil => simp [NamesFunctions]
  | cons token rest ih =>
    obtain ⟨-, c, tail, after, -, -, -, htoken, -, hrest⟩ := exists_of_tokensAfter h
    intro name hname f hf
    rcases List.mem_cons.mp hname with rfl | hname
    · have hfunction := isFunction_of_nextToken htoken
      rw [Vocabulary.isFunction, hf] at hfunction
      have hkind : f.kind = .function := of_decide_eq_true hfunction
      exact hkind
    · exact ih hrest name hname f hf

end Formula

theorem Expression.namesFunctions_tokens {ι : Type} [Infix.Symbol ι] (find? : String → Option ι)
    (text : String) : Infix.NamesFunctions find? (tokens text) := by
  intro name hname
  exact absurd hname (function_notMem_tokens text name)

namespace Infix

/-- Whatever the registry, the stacks are in step while the tokens of a formula or an antecedent are
read. -/
theorem keepsStep_tokens :
    (∀ {α : Type} (v : Formula.Vocabulary α) (text : String) (tokens : List Token),
      Formula.tokens v text = .ok tokens → ∀ shown, KeepsStep v.get? shown tokens) ∧
    ∀ {ι : Type} [Symbol ι] (find? : String → Option ι) (text shown : String),
      KeepsStep find? shown (Expression.tokens text) := by
  refine ⟨fun v text tokens h => ?_, fun find? text => ?_⟩
  · exact KeepsStep.of_namesFunctions (Formula.namesFunctions_of_tokensAfter h)
  · exact KeepsStep.of_namesFunctions (Expression.namesFunctions_tokens find? text)

section Max

open Formula

theorem tokens_unclosed :
    tokens (builtin : Vocabulary Float) "( max ( x , y )" = .ok (.leftParen :: enclosed) := by
  have hlexed : Lexed (builtin : Vocabulary Float) none ["(", "max", "(", "x", ",", "y", ")"] none
      (.leftParen :: enclosed) :=
    .cons .leftParen <| .cons (wordToken_max _ _) <| .cons .leftParen <|
      .cons (wordToken_xy (by decide) _ (by decide)) <| .cons .comma <|
        .cons (wordToken_xy (by decide) _ (by decide)) <| .cons .rightParen .nil
  exact tokensAfter_of_lexed hlexed (by cbv)

theorem reached_max {find? : String → Option (Element Float)} (hfind : find? "max" = some maximum)
    (text : String) : Reached find? text enclosed (some .leftParen) (enclosed.drop 2)
      ⟨[], [.paren true, .symbol maximum], [1]⟩ := by
  have hnamed : State.step find? text none (enclosed.drop 1).head? {} (.function "max") =
      .ok ⟨[], [.symbol maximum], []⟩ := by simp [enclosed, State.step, hfind]
  exact .step (.step .start hnamed) rfl

theorem keepsStep_max :
    tokens (builtin : Vocabulary Float) "max ( x , y )" = .ok enclosed ∧
      KeepsStep (builtin : Vocabulary Float).get? "max ( x , y )" enclosed ∧
      State.InStep (builtin : Vocabulary Float).get? (some .leftParen) (enclosed.drop 2)
        ⟨[], [.paren true, .symbol maximum], [1]⟩ ∧
      tokens (builtin : Vocabulary Float) "( max ( x , y )" = .ok (.leftParen :: enclosed) ∧
      ∃ e, toPostfix (builtin : Vocabulary Float).get? "( max ( x , y )" (.leftParen :: enclosed) =
        .error e := by
  obtain ⟨hformula, -⟩ := keepsStep_tokens
  have hstep := hformula builtin _ enclosed tokens_enclosed "max ( x , y )"
  have hunclosed := hformula builtin _ _ tokens_unclosed "( max ( x , y )"
  exact ⟨tokens_enclosed, hstep, hstep.inStep (reached_max get?_max _), tokens_unclosed,
    hunclosed.exists_error (by decide)⟩

end Max

end Infix

end FuzzyInference
