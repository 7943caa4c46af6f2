import FuzzyInference.Error
import Mathlib.Data.List.Forall2

/-!
What the messages of failures tell. The message of a rule that fails starts with the position of the
rule in brackets and its text in quotes, and it ends with the message of the cause. So it tells the
position; and it tells the cause too, because what is wrong with a text has a message of its own.
-/
namespace FuzzyInference

/-! ### Texts -/

namespace Text

/-- Texts are equal before the first place of a character and after it. -/
theorem eq_of_append_cons {c : Char} {s s' t t' : List Char} (hs : c ∉ s) (hs' : c ∉ s')
    (h : s ++ c :: t = s' ++ c :: t') : s = s' ∧ t = t' := by
  have htake : ∀ {s t : List Char}, c ∉ s → (s ++ c :: t).takeWhile (· != c) = s := by
    intro s t hs
    have hall : ∀ d ∈ s, (d != c) = true := fun d hd => by
      rw [bne_iff_ne]
      rintro rfl
      exact hs hd
    rw [List.takeWhile_append_of_pos hall, List.takeWhile_cons_of_neg (by simp), List.append_nil]
  have hfront : s = s' := by rw [← htake (t := t) hs, h, htake hs']
  subst hfront
  exact ⟨rfl, (List.cons.inj (List.append_cancel_left h)).2⟩

theorem notMem_toDigits {c : Char} (hc : c.isDigit = false) (n : Nat) :
    c ∉ Nat.toDigits 10 n := by
  intro hmem
  have hdigit := Nat.isDigit_of_mem_toDigits (by decide) (by decide) hmem
  rw [hc] at hdigit
  cases hdigit

theorem toDigits_inj {m n : Nat} (h : Nat.toDigits 10 m = Nat.toDigits 10 n) : m = n := by
  have hvalue := congrArg (fun digits => Nat.ofDigitChars 10 digits 0) h
  simpa [Nat.ofDigitChars_toDigits] using hvalue

/-- A text and the number after it, with a blank between them. -/
theorem eq_of_append_number {s s' : String} {n n' : Nat}
    (h : s ++ " " ++ toString n = s' ++ " " ++ toString n') : s = s' ∧ n = n' := by
  have hreverse := congrArg (fun text => text.toList.reverse) h
  have hform : ∀ (text : String) (k : Nat), (text ++ " " ++ toString k).toList.reverse =
      (Nat.toDigits 10 k).reverse ++ ' ' :: text.toList.reverse := fun text k => by
    simp only [String.toList_append, List.reverse_append]
    exact congrArg (fun digits => List.reverse digits ++ _) Nat.toList_repr
  simp only [hform] at hreverse
  have hblank : ∀ k, ' ' ∉ (Nat.toDigits 10 k).reverse := fun k =>
    mt List.mem_reverse.mp (notMem_toDigits rfl k)
  obtain ⟨hdigits, htext⟩ := eq_of_append_cons (hblank n) (hblank n') hreverse
  have htext := List.reverse_inj.mp htext
  exact ⟨String.toList_inj.mp htext, toDigits_inj (List.reverse_inj.mp hdigits)⟩

/-- What stands between the same texts. -/
theorem eq_of_enclosed {before after s s' : String}
    (h : before ++ s ++ after = before ++ s' ++ after) : s = s' :=
  (String.append_right_inj before).mp ((String.append_left_inj after).mp h)

/-- A part that ends before the first place of a character, and what comes after the separator that
starts there. -/
theorem eq_of_separated {before part part' between last last' : String} {c : Char}
    (hbetween : between.toList.head? = some c) (hpart : c ∉ part.toList) (hpart' : c ∉ part'.toList)
    (h : before ++ part ++ between ++ last = before ++ part' ++ between ++ last') :
    part = part' ∧ last = last' := by
  obtain ⟨rest, hrest⟩ := List.head?_eq_some_iff.mp hbetween
  have hform : ∀ part last : String, (before ++ part ++ between ++ last).toList =
      before.toList ++ (part.toList ++ c :: (rest ++ last.toList)) := fun part last => by
    rw [String.toList_append, String.toList_append, String.toList_append, hrest, List.append_assoc,
      List.append_assoc, List.cons_append]
  rw [← String.toList_inj, hform, hform] at h
  obtain ⟨hfront, hback⟩ := eq_of_append_cons hpart hpart' (List.append_cancel_left h)
  exact ⟨String.toList_inj.mp hfront, String.toList_inj.mp (List.append_cancel_left hback)⟩

theorem head?_append {s t : String} {c : Char} (h : s.toList.head? = some c) :
    (s ++ t).toList.head? = some c := by
  rw [String.toList_append, List.head?_append, h]
  rfl

end Text

open Text

/-! ### Causes -/

theorem Keyword.text_inj {word word' : Keyword} (h : word.text = word'.text) : word = word' := by
  cases word <;> cases word' <;> first | rfl | exact absurd h (by decide)

theorem Expected.text_inj {expected expected' : Expected} (h : expected.text = expected'.text) :
    expected = expected' := by
  cases expected <;> cases expected' <;> first | rfl | exact absurd h (by decide)

theorem ReferenceKind.text_inj {kind kind' : ReferenceKind} (h : kind.text = kind'.text) :
    kind = kind' := by
  cases kind <;> cases kind' <;> first | rfl | exact absurd h (by decide)

namespace RuleTextError

/-- The first character of the message, which tells the kind of the error. -/
def initial : RuleTextError → Char
  | missingKeyword _ => '缺'
  | missingWeight => '\''
  | invalidWeight _ => '无'
  | trailingWords _ => '权'
  | emptyClause .antecedent => 'a'
  | emptyClause .consequent => 'c'

theorem head?_message (c : RuleTextError) : c.message.toList.head? = some c.initial := by
  cases c with
  | missingWeight => rfl
  | emptyClause clause => cases clause <;> rfl
  | _ => exact head?_append (head?_append rfl)

theorem initial_emptyClause (clause : Clause) :
    (emptyClause clause).initial = 'a' ∨ (emptyClause clause).initial = 'c' := by
  cases clause with
  | antecedent => exact .inl rfl
  | consequent => exact .inr rfl

theorem eq_of_message_eq {c c' : RuleTextError} (h : c.message = c'.message) : c = c' := by
  have hinitial : some c.initial = some c'.initial := by rw [← c.head?_message, h, c'.head?_message]
  cases c <;> cases c'
  case missingKeyword.missingKeyword word word' => rw [Keyword.text_inj (eq_of_enclosed h)]
  case missingWeight.missingWeight => rfl
  case invalidWeight.invalidWeight word word' => exact congrArg _ (eq_of_enclosed h)
  case trailingWords.trailingWords words words' => exact congrArg _ (eq_of_enclosed h)
  case emptyClause.emptyClause clause clause' =>
    cases clause <;> cases clause' <;> first | rfl | simp [initial] at hinitial
  -- Messages of different kinds start with different characters.
  all_goals grind [initial, initial_emptyClause]

end RuleTextError

namespace ParseError

/-- The first character of the message, which tells the kind of the error. -/
def initial : ParseError → Char
  | unbalancedParentheses _ => '括'
  | arityMismatch .. => '函'
  | unknownOperator _ => '未'
  | missingOperand _ => '操'
  | unexpectedToken .. => '期'
  | incompleteProposition _ => '命'
  | malformedExpression _ => '无'

theorem head?_message (c : ParseError) : c.message.toList.head? = some c.initial := by
  cases c with
  | unbalancedParentheses text => exact head?_append rfl
  | arityMismatch element expected found =>
    exact head?_append <| head?_append <| head?_append <| head?_append <| head?_append <|
      head?_append rfl
  | unexpectedToken expected found =>
    exact head?_append <| head?_append <| head?_append <| head?_append rfl
  | _ => exact head?_append (head?_append rfl)

/-- The numbers are the last two of the message, with a blank before each. -/
theorem arityMismatch_inj {element element' : String} {expected expected' found found' : Nat}
    (h : (arityMismatch element expected found).message =
      (arityMismatch element' expected' found').message) :
    arityMismatch element expected found = arityMismatch element' expected' found' := by
  have hform : ∀ element expected found, (arityMismatch element expected found).message =
      "函数 '" ++ element ++ "' 需要" ++ " " ++ toString expected ++ " 个参数, 实际" ++ " " ++
        toString found ++ " 个" := fun element expected found => by
    have hfirst : "' 需要 " = "' 需要" ++ " " := rfl
    have hsecond : " 个参数, 实际 " = " 个参数, 实际" ++ " " := rfl
    change "函数 '" ++ element ++ "' 需要 " ++ toString expected ++ " 个参数, 实际 " ++
      toString found ++ " 个" = _
    rw [hfirst, hsecond, ← String.append_assoc, ← String.append_assoc]
  simp only [hform, String.append_left_inj] at h
  obtain ⟨hfront, rfl⟩ := eq_of_append_number h
  obtain ⟨helement, rfl⟩ := eq_of_append_number ((String.append_left_inj _).mp hfront)
  rw [eq_of_enclosed helement]

/-- What was expected has no comma in it. -/
theorem unexpectedToken_inj {expected expected' : Expected} {found found' : String}
    (h : (unexpectedToken expected found).message = (unexpectedToken expected' found').message) :
    unexpectedToken expected found = unexpectedToken expected' found' := by
  have hcomma : ∀ expected : Expected, ',' ∉ expected.text.toList := fun expected => by
    cases expected <;> decide
  obtain ⟨hexpected, hfound⟩ := eq_of_separated rfl (hcomma expected) (hcomma expected')
    ((String.append_left_inj _).mp h)
  have hfound : found = found' := hfound
  rw [Expected.text_inj hexpected, hfound]

theorem eq_of_message_eq {c c' : ParseError} (h : c.message = c'.message) : c = c' := by
  have hinitial : some c.initial = some c'.initial := by rw [← c.head?_message, h, c'.head?_message]
  cases c <;> cases c'
  case unbalancedParentheses.unbalancedParentheses text text' =>
    exact congrArg _ ((String.append_right_inj _).mp h)
  case arityMismatch.arityMismatch => exact arityMismatch_inj h
  case unknownOperator.unknownOperator symbol symbol' => exact congrArg _ (eq_of_enclosed h)
  case missingOperand.missingOperand operator operator' => exact congrArg _ (eq_of_enclosed h)
  case unexpectedToken.unexpectedToken => exact unexpectedToken_inj h
  case incompleteProposition.incompleteProposition text text' => exact congrArg _ (eq_of_enclosed h)
  case malformedExpression.malformedExpression text text' => exact congrArg _ (eq_of_enclosed h)
  -- Messages of different kinds start with different characters.
  all_goals simp [initial] at hinitial

end ParseError

namespace Error

/-- The error lies in a text: in its form, or in a name that stands for nothing. -/
inductive IsOfText : Error → Prop where
  | ruleText (cause : RuleTextError) : IsOfText (.ruleText cause)
  | parse (cause : ParseError) : IsOfText (.parse cause)
  | unresolved (kind : ReferenceKind) (name : String) : IsOfText (.unresolved kind name)

theorem unresolved_inj {kind kind' : ReferenceKind} {name name' : String}
    (h : (unresolved kind name).message = (unresolved kind' name').message) :
    unresolved kind name = unresolved kind' name' := by
  have hblank : ∀ kind : ReferenceKind, ' ' ∉ kind.text.toList := fun kind => by
    cases kind <;> decide
  obtain ⟨hkind, hname⟩ := eq_of_separated rfl (hblank kind) (hblank kind')
    ((String.append_left_inj _).mp h)
  have hname : name = name' := hname
  rw [ReferenceKind.text_inj hkind, hname]

/-- The messages of errors of different kinds start with different characters. -/
theorem eq_of_message_eq {c c' : Error} (hc : c.IsOfText) (hc' : c'.IsOfText)
    (h : c.message = c'.message) : c = c' := by
  have hruleText : ∀ cause, (ruleText cause).message.toList.head? = some '规' :=
    fun _ => head?_append rfl
  have hparse : ∀ cause, (parse cause).message.toList.head? = some '表' :=
    fun _ => head?_append rfl
  have hunresolved : ∀ kind name, (unresolved kind name).message.toList.head? = some '未' :=
    fun _ _ => head?_append <| head?_append <| head?_append <| head?_append rfl
  have hhead := congrArg (fun message => message.toList.head?) h
  cases hc <;> cases hc'
  case ruleText.ruleText cause cause' =>
    exact congrArg _ (RuleTextError.eq_of_message_eq ((String.append_right_inj _).mp h))
  case parse.parse cause cause' =>
    exact congrArg _ (ParseError.eq_of_message_eq ((String.append_right_inj _).mp h))
  case unresolved.unresolved => exact unresolved_inj h
  all_goals simp [hruleText, hparse, hunresolved] at hhead

end Error

/-! ### Failures -/

namespace RuleFailure

/-- The message shows the failure: the position of the rule in brackets, the text of the rule in
quotes and the message of the cause. Another position has another message, and so has another cause
that lies in a text. -/
structure ShownBy (f : RuleFailure) (message : String) : Prop where
  message_eq : message = "[" ++ toString f.index ++ "] '" ++ f.rule ++ "': " ++ f.cause.message
  index_eq {f' : RuleFailure} (h : f'.message = message) : f'.index = f.index
  cause_eq {cause : Error} (hcause : cause.IsOfText)
    (h : ({ f with cause } : RuleFailure).message = message) : cause = f.cause

theorem index_eq_of_message_eq {f f' : RuleFailure} (h : f.message = f'.message) :
    f.index = f'.index := by
  have hform : ∀ f : RuleFailure, f.message =
      "[" ++ toString f.index ++ "] '" ++ (f.rule ++ ("': " ++ f.cause.message)) := fun f => by
    rw [← String.append_assoc, ← String.append_assoc]
    rfl
  have hbracket : ∀ n : Nat, ']' ∉ (toString n).toList := fun n => by
    rw [show (toString n).toList = Nat.toDigits 10 n from Nat.toList_repr]
    exact notMem_toDigits rfl n
  rw [hform, hform] at h
  obtain ⟨hindex, -⟩ := eq_of_separated rfl (hbracket f.index) (hbracket f'.index) h
  apply toDigits_inj
  rw [← Nat.toList_repr, ← Nat.toList_repr]
  exact congrArg String.toList hindex

theorem shownBy_message {f : RuleFailure} (h : f.cause.IsOfText) : f.ShownBy f.message where
  message_eq := rfl
  index_eq := index_eq_of_message_eq
  cause_eq hcause hmessage :=
    Error.eq_of_message_eq hcause h ((String.append_right_inj _).mp hmessage)

example : RuleFailure.message ⟨2, "if heat is high", .ruleText (.missingKeyword .thenWord)⟩ =
    "[2] 'if heat is high': 规则语法错误: 缺少关键字 'then'" := by
  decide +kernel

/-- There is a message for each rule, in their order. -/
theorem shownBy_messages (block : String) {failures : List RuleFailure}
    (h : ∀ f ∈ failures, f.cause.IsOfText) :
    failures.Forall₂ ShownBy (BlockError.rules block failures).messages :=
  List.forall₂_map_right_iff.mpr (List.forall₂_same.mpr fun f hf => shownBy_message (h f hf))

end RuleFailure

end FuzzyInference
