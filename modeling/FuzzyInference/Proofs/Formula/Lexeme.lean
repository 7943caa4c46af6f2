import FuzzyInference.Formula.Basic
import FuzzyInference.Proofs.Decimal.Literal
import FuzzyInference.Proofs.Text.Words

/-!
The tokens of a text whose words are tokens. What a word is read as depends on the token before it,
which tells a negation from a subtraction, and on the word after it, which tells a call from a
variable.
-/
namespace FuzzyInference.Formula

open Infix Text

variable {α : Type}

/-! ### Characters -/

/-- The ranges of the blanks. -/
def blankRanges : List (Nat × Nat) :=
  [(0x09, 0x0D), (0x20, 0x20), (0x85, 0x85), (0xA0, 0xA0), (0x1680, 0x1680), (0x2000, 0x200A),
   (0x2028, 0x2028), (0x2029, 0x2029), (0x202F, 0x202F), (0x205F, 0x205F), (0x3000, 0x3000)]

/-- The ranges of digits, of letters and of all other characters that can stand in a word. -/
def wordRanges : List (Nat × Nat) :=
  (48, 57) :: (65, 122) :: (alphabeticRanges ++ numeralRanges)

theorem mem_blankRanges {c : Char} (h : isBlank c = true) :
    inRanges c.toNat blankRanges = true := by
  have heq : ∀ n, c.toNat = n ↔ n ≤ c.toNat ∧ c.toNat ≤ n := by omega
  simp only [isBlank, Bool.or_eq_true, Bool.and_eq_true, decide_eq_true_eq, or_assoc, heq] at h
  simpa only [inRanges, blankRanges, List.any_cons, List.any_nil, Bool.or_eq_true,
    Bool.and_eq_true, decide_eq_true_eq, Bool.false_eq_true, or_false] using h

theorem blankRanges_apart :
    (blankRanges.all fun b => wordRanges.all fun w => b.2.blt w.1 || w.2.blt b.1) = true := by
  decide +kernel

theorem inRanges_of_isBlank {c : Char} (h : isBlank c = true) {ranges : List (Nat × Nat)}
    (hranges : ranges ⊆ wordRanges) : inRanges c.toNat ranges = false := by
  rw [Bool.eq_false_iff]
  intro hword
  obtain ⟨w, hw, hle⟩ := List.any_eq_true.mp hword
  obtain ⟨b, hb, hle'⟩ := List.any_eq_true.mp (mem_blankRanges h)
  simp only [Bool.and_eq_true, decide_eq_true_eq] at hle hle'
  have hapart := List.all_eq_true.mp (List.all_eq_true.mp blankRanges_apart b hb) w (hranges hw)
  simp only [Bool.or_eq_true, Nat.blt_eq] at hapart
  omega

theorem inRanges_of_isDigit {c : Char} (h : c.isDigit = true) : inRanges c.toNat [(48, 57)] := by
  simpa [Char.isDigit, UInt32.le_iff_toNat_le, inRanges] using h

theorem inRanges_of_isAlpha {c : Char} (h : c.isAlpha = true) : inRanges c.toNat [(65, 122)] := by
  have hletter := toNat_of_isAlpha h
  simp only [inRanges, List.any_cons, List.any_nil, Bool.or_false, Bool.and_eq_true,
    decide_eq_true_eq]
  omega

theorem isDigit_of_isBlank {c : Char} (h : isBlank c = true) : c.isDigit = false := by
  rw [Bool.eq_false_iff]
  intro hdigit
  have hrange := inRanges_of_isDigit hdigit
  rw [inRanges_of_isBlank h (by simp [wordRanges])] at hrange
  exact absurd hrange Bool.false_ne_true

/-- A class without blanks has other characters only. -/
theorem isBlank_of_class {p : Char → Bool} (hp : ∀ {c}, isBlank c = true → p c = false) {c : Char}
    (h : p c = true) : isBlank c = false := by
  rw [Bool.eq_false_iff]
  intro hblank
  rw [hp hblank] at h
  exact absurd h Bool.false_ne_true

theorem isBlank_of_isDigit {c : Char} (h : c.isDigit = true) : isBlank c = false :=
  isBlank_of_class isDigit_of_isBlank h

theorem isNumeralChar_of_isBlank {c : Char} (h : isBlank c = true) : isNumeralChar c = false := by
  have hpoint : c ≠ '.' := by
    rintro rfl
    exact absurd h (by decide)
  simp [isNumeralChar, isDigit_of_isBlank h, hpoint]

theorem isAlphabetic_of_isBlank {c : Char} (h : isBlank c = true) : isAlphabetic c = false := by
  unfold isAlphabetic
  split
  · rw [Bool.eq_false_iff]
    intro halpha
    have hrange := inRanges_of_isAlpha halpha
    rw [inRanges_of_isBlank h (by simp [wordRanges])] at hrange
    exact absurd hrange Bool.false_ne_true
  · exact inRanges_of_isBlank h fun w hw => by simp [wordRanges, hw]

theorem isNumeral_of_isBlank {c : Char} (h : isBlank c = true) : isNumeral c = false := by
  unfold isNumeral
  split
  · exact isDigit_of_isBlank h
  · exact inRanges_of_isBlank h fun w hw => by simp [wordRanges, hw]

theorem isNameChar_of_isBlank {c : Char} (h : isBlank c = true) : isNameChar c = false := by
  have hmarks : c ≠ '_' ∧ c ≠ '.' := by
    refine ⟨?_, ?_⟩ <;> rintro rfl <;> exact absurd h (by decide)
  simp [isNameChar, isAlphabetic_of_isBlank h, isNumeral_of_isBlank h, hmarks]

/-- A name starts like no numeral. -/
theorem isNumeralChar_of_isNameStart {c : Char} (h : isNameStart c = true) :
    isNumeralChar c = false := by
  rw [Bool.eq_false_iff]
  intro hnumeral
  simp only [isNumeralChar, Bool.or_eq_true, decide_eq_true_eq] at hnumeral
  simp only [isNameStart, Bool.or_eq_true, decide_eq_true_eq] at h
  rcases hnumeral with hdigit | rfl
  · have hc := inRanges_of_isDigit hdigit
    rcases h with h | rfl
    · simp only [inRanges, List.any_cons, List.any_nil, Bool.or_false, Bool.and_eq_true,
        decide_eq_true_eq] at hc
      rw [isAlphabetic, if_pos (by omega)] at h
      have hletter := toNat_of_isAlpha h
      omega
    · exact absurd hdigit (by decide)
  · rcases h with h | h
    · exact absurd h (by decide)
    · exact absurd h (by decide)

theorem startsNumeral_of_isNumeralChar {c : Char} (h : isNumeralChar c = false)
    (rest : List Char) : startsNumeral c rest = false := by
  simp only [isNumeralChar, Bool.or_eq_false_iff] at h
  simp [startsNumeral, h.1, h.2]

/-! ### Words -/

/-- The word is a name: a letter or `_` and then letters, numerals, `_` and `.`. -/
def isIdentifier (word : String) : Bool :=
  match word.toList with
  | [] => false
  | c :: tail => isNameStart c && tail.all isNameChar

/-- The word is read as the token, if `previous` is the token before it and `next` the word after
it. -/
def WordToken (v : Vocabulary α) (previous : Option Token) (word : String) (next : Option String)
    (token : Token) : Prop :=
  ∀ c tail after, word.toList = c :: tail → Stops (fun c => !isBlank c) after →
    after.find? (fun c => !isBlank c) = next.bind (·.toList.head?) →
    nextToken v previous c (tail ++ after) = .ok (token, tail.length)

/-- The words are read as the tokens, one by one. -/
inductive Lexed (v : Vocabulary α) : Option Token → List String → Option String → List Token → Prop
  | nil {previous : Option Token} {next : Option String} : Lexed v previous [] next []
  | cons {previous : Option Token} {word : String} {words : List String} {next : Option String}
      {token : Token} {tokens : List Token} :
      WordToken v previous word (words.head?.or next) token →
      Lexed v (some token) words next tokens →
      Lexed v previous (word :: words) next (token :: tokens)

variable {v : Vocabulary α}

theorem Lexed.append {previous : Option Token} {words words' : List String} {next : Option String}
    {tokens tokens' : List Token} (h : Lexed v previous words (words'.head?.or next) tokens)
    (h' : Lexed v (tokens.getLast?.or previous) words' next tokens') :
    Lexed v previous (words ++ words') next (tokens ++ tokens') := by
  generalize hnext : words'.head?.or next = next' at h
  induction h with
  | nil => simpa using h'
  | @cons previous word words _ token tokens hword htail ih =>
    subst hnext
    refine .cons ?_ (ih ?_ rfl)
    · cases words with
      | nil => simpa using hword
      | cons => simpa using hword
    · rw [List.getLast?_cons] at h'
      cases hlast : tokens.getLast? <;> simpa [hlast] using h'

theorem tokensAfter_blanks (previous : Option Token) {blanks : List Char}
    (h : ∀ c ∈ blanks, isBlank c = true) (text : List Char) :
    tokensAfter v previous (blanks ++ text) = tokensAfter v previous text := by
  induction blanks with
  | nil => rfl
  | cons c blanks ih =>
    obtain ⟨hc, hblanks⟩ := List.forall_mem_cons.mp h
    rw [List.cons_append, tokensAfter_cons, if_pos hc, ih hblanks]

/-- The tokens of a text are those that its words are read as. -/
theorem tokensAfter_of_lexed {previous : Option Token} {words : List String} {tokens : List Token}
    (h : Lexed v previous words none tokens) {text : List Char}
    (hwords : wordsAfter [] text = words) : tokensAfter v previous text = .ok tokens := by
  generalize hnext : (none : Option String) = next at h
  induction h generalizing text with
  | nil =>
    have hblank := isBlank_of_wordsAfter_nil hwords
    rw [← List.append_nil text, tokensAfter_blanks _ hblank, tokensAfter_nil]
  | @cons previous word words next token tokens hword _ ih =>
    obtain ⟨blanks, c, tail, after, rfl, hlist, hblanks, hc, -, hafter, hrest⟩ :=
      exists_of_wordsAfter hwords
    have hfind : after.find? (fun c => !isBlank c) =
        (words.head?.or next).bind (·.toList.head?) := by
      rw [find?_not_isBlank, hrest, ← hnext, Option.or_none]
    have htoken := hword c tail after hlist hafter hfind
    have htokens := ih hrest hnext
    rw [List.append_assoc, tokensAfter_blanks _ hblanks, List.cons_append,
      tokensAfter_cons, if_neg (by simp [hc]), htoken]
    simp only [bind, Except.bind, List.drop_left, htokens]
    rfl

/-! ### Numerals, names and symbols -/

theorem exponentPart_of_stops {after : List Char} (h : Stops (fun c => !isBlank c) after) :
    exponentPart after = [] := by
  cases after with
  | nil => rfl
  | cons c rest =>
    have hc : isBlank c = true := by simpa using h c rfl
    have hmark : ¬ (c = 'e' ∨ c = 'E') := by
      rintro (rfl | rfl) <;> exact absurd hc (by decide)
    simp [exponentPart, hmark]

theorem exponentPart_exponentChars (l : Numeral.Literal) {after : List Char}
    (hafter : Stops (fun c => !isBlank c) after) :
    exponentPart (l.exponentChars ++ after) = l.exponentChars := by
  unfold Numeral.Literal.exponentChars
  split
  · exact exponentPart_of_stops hafter
  · next e _ =>
    have hdigits : (e.digits ++ after).takeWhile Char.isDigit = e.digits :=
      takeWhile_append_of_stops e.isDigit (hafter.of_blank fun _ => isDigit_of_isBlank)
    have hsign : signPart (e.sign ++ (e.digits ++ after)) = e.sign := by
      rcases e.sign_eq with h | h | h
      · cases hd : e.digits with
        | nil => exact absurd hd e.digits_ne
        | cons c digits =>
          have hc : c.isDigit = true := e.isDigit c (by simp [hd])
          have hne : ¬ (c = '+' ∨ c = '-') := by
            rintro (rfl | rfl) <;> exact absurd hc (by decide)
          simp [h, signPart, hne]
      · simp [h, signPart]
      · simp [h, signPart]
    have hdrop : (e.sign ++ (e.digits ++ after)).drop e.sign.length = e.digits ++ after :=
      List.drop_left
    have hchars : e.chars ++ after = e.mark :: (e.sign ++ (e.digits ++ after)) := by
      simp [Numeral.Exponent.chars]
    have hmark : (e.mark = 'e' ∨ e.mark = 'E') ∧ e.digits ≠ [] := ⟨e.mark_eq, e.digits_ne⟩
    rw [hchars, exponentPart]
    simp only [hsign, hdrop, hdigits]
    rw [if_pos hmark, Numeral.Exponent.chars]

theorem isNumeralChar_of_mem_mantissa {l : Numeral.Literal} {c : Char} (h : c ∈ l.mantissa) :
    isNumeralChar c = true := by
  have hdigit : ∀ d : Char, d.isDigit = true → isNumeralChar d = true := by
    simp +contextual [isNumeralChar]
  rcases List.mem_append.mp h with h | h
  · exact hdigit c (l.whole_isDigit c h)
  · unfold Numeral.Literal.fractionChars at h
    split at h
    · simp at h
    · next digits hfraction =>
      rcases List.mem_cons.mp h with rfl | h
      · rfl
      · exact hdigit c (l.fraction_isDigit c (by simpa [hfraction] using h))

theorem stops_isNumeralChar (l : Numeral.Literal) {after : List Char}
    (hafter : Stops (fun c => !isBlank c) after) :
    Stops isNumeralChar (l.exponentChars ++ after) := by
  unfold Numeral.Literal.exponentChars
  split
  · exact hafter.of_blank fun _ => isNumeralChar_of_isBlank
  · next e _ =>
    intro c hc
    obtain rfl : e.mark = c := by simpa [Numeral.Exponent.chars] using hc
    rcases e.mark_eq with he | he <;> rw [he] <;> rfl

/-- The text of a literal is one numeral, also where more text follows after a blank. -/
theorem numeralRest_of_literal {l : Numeral.Literal} {c : Char} {tail after : List Char}
    (h : l.chars = c :: tail) (hafter : Stops (fun c => !isBlank c) after) :
    numeralRest (tail ++ after) = tail := by
  obtain ⟨d, mantissa, hsplit⟩ := List.exists_cons_of_ne_nil l.mantissa_ne_nil
  have hchars : l.chars = d :: (mantissa ++ l.exponentChars) := by
    rw [l.chars_eq, hsplit, List.cons_append]
  obtain ⟨rfl, rfl⟩ := List.cons.inj (h.symm.trans hchars)
  have hall : ∀ e ∈ mantissa, isNumeralChar e = true := fun e he =>
    isNumeralChar_of_mem_mantissa (hsplit ▸ List.mem_cons_of_mem _ he)
  have htake : (mantissa ++ l.exponentChars ++ after).takeWhile isNumeralChar = mantissa := by
    rw [List.append_assoc]
    exact takeWhile_append_of_stops hall (stops_isNumeralChar l hafter)
  simp only [numeralRest, htake]
  rw [List.append_assoc, List.drop_left, exponentPart_exponentChars l hafter]

namespace WordToken

variable {previous : Option Token} {word : String} {next : Option String}

theorem literal (l : Numeral.Literal) : WordToken v previous l.text next (.operand l.text) := by
  intro c tail after hlist hafter _
  rw [Numeral.Literal.toList_text] at hlist
  have hstart : startsNumeral c (tail ++ after) = true := by
    obtain ⟨d, rest, hchars, hd⟩ := l.exists_head
    obtain ⟨rfl, rfl⟩ := List.cons.inj (hlist.symm.trans hchars)
    rcases hd with hd | ⟨rfl, hd⟩
    · simp [startsNumeral, hd]
    · cases tail with
      | nil => simp at hd
      | cons e tail => simpa [startsNumeral] using hd
  rw [nextToken, if_pos hstart]
  simp only [numeralRest_of_literal hlist hafter]
  rw [← hlist, Numeral.Literal.text]

/-- An identifier is read as what the vocabulary makes of it. -/
theorem identifier {token : Token} (hword : isIdentifier word = true)
    (h : ∀ after, after.find? (fun c => !isBlank c) = next.bind (·.toList.head?) →
      nameToken v word after = .ok token) : WordToken v previous word next token := by
  intro c tail after hlist hafter hfind
  simp only [isIdentifier, hlist, Bool.and_eq_true, List.all_eq_true] at hword
  obtain ⟨hstart, htail⟩ := hword
  have hnumeral : startsNumeral c (tail ++ after) = false :=
    startsNumeral_of_isNumeralChar (isNumeralChar_of_isNameStart hstart) _
  have htake : (tail ++ after).takeWhile isNameChar = tail :=
    takeWhile_append_of_stops htail (hafter.of_blank fun _ => isNameChar_of_isBlank)
  have hof : String.ofList (c :: tail) = word := by rw [← hlist, String.ofList_toList]
  rw [nextToken, if_neg (by simp [hnumeral]), if_pos hstart]
  simp only [htake, List.drop_left, hof, h after hfind]
  rfl

theorem symbol {c : Char} {token : Token} (hnumeral : isNumeralChar c = false)
    (hname : isNameStart c = false) (h : symbolToken v previous c = .ok token) :
    WordToken v previous c.toString next token := by
  intro d tail after hlist _ _
  obtain ⟨rfl, rfl⟩ : c = d ∧ [] = tail := by simpa using hlist
  have hstart : startsNumeral c after = false := startsNumeral_of_isNumeralChar hnumeral after
  rw [List.nil_append, nextToken, if_neg (by simp [hstart]), if_neg (by simp [hname]), h]
  rfl

/-- A word that names an operator, such as `and`. -/
theorem operator (hword : isIdentifier word = true) (h : v.isOperator word = true) :
    WordToken v previous word next (.operator word) := by
  refine identifier hword fun after _ => ?_
  have hfunction : v.isFunction word = false := by
    unfold Vocabulary.isOperator at h
    cases hget : v.get? word with
    | none => simp [hget] at h
    | some e =>
      have hkind : e.kind = .operator := by simpa [hget, Element.isOperator] using h
      simp [Vocabulary.isFunction, hget, Element.isFunction, hkind]
  simp [nameToken, hfunction, h]

theorem function (hword : isIdentifier word = true) (h : v.isFunction word = true) :
    WordToken v previous word next (.function word) := by
  refine identifier hword fun after _ => ?_
  simp [nameToken, h]

/-- A name that the vocabulary does not hold, before another word than a parenthesis. -/
theorem name (hword : isIdentifier word = true) (h : v.get? word = none)
    (hnext : next.bind (·.toList.head?) ≠ some '(') :
    WordToken v previous word next (.operand word) := by
  refine identifier hword fun after hafter => ?_
  rw [← hafter] at hnext
  simp [nameToken, Vocabulary.isFunction, Vocabulary.isOperator, h, hnext]

/-- An operator that is written as one character. -/
theorem sign {c : Char} (hnumeral : isNumeralChar c = false) (hname : isNameStart c = false)
    (hmark : c ∉ ['(', ')', ',']) (h : v.isOperator c.toString = true) :
    WordToken v previous c.toString next
      (.operator (if c = '-' ∧ operandDue previous then "~" else c.toString)) := by
  refine symbol hnumeral hname ?_
  simp only [List.mem_cons, List.not_mem_nil, or_false, not_or] at hmark
  obtain ⟨hopen, hclose, hcomma⟩ := hmark
  rw [symbolToken, if_neg hopen, if_neg hclose, if_neg hcomma, if_pos h]

theorem leftParen : WordToken v previous "(" next .leftParen :=
  symbol (c := '(') (by decide) (by decide) rfl

theorem rightParen : WordToken v previous ")" next .rightParen :=
  symbol (c := ')') (by decide) (by decide) rfl

theorem comma : WordToken v previous "," next .comma :=
  symbol (c := ',') (by decide) (by decide) rfl

end WordToken

/-! ### Operands -/

/-- The words are read as the tokens wherever an operand is due and no call is opened after them,
and with the last of the tokens the operand is complete. -/
structure ReadsAs (v : Vocabulary α) (words : List String) (tokens : List Token) : Prop where
  lexed : ∀ previous next, operandDue previous = true → next.bind (·.toList.head?) ≠ some '(' →
    Lexed v previous words next tokens
  complete : ∀ previous, operandDue (tokens.getLast?.or previous) = false

namespace ReadsAs

variable {words words' : List String} {tokens tokens' : List Token}

theorem word {word text : String}
    (h : ∀ previous next, operandDue previous = true → next.bind (·.toList.head?) ≠ some '(' →
      WordToken v previous word next (.operand text)) : ReadsAs v [word] [.operand text] where
  lexed previous next hdue hnext := .cons (h previous next hdue hnext) .nil
  complete _ := rfl

theorem lexed_parens (h : ReadsAs v words tokens) (previous : Option Token)
    (next : Option String) : Lexed v previous ("(" :: words ++ [")"]) next
      (.leftParen :: tokens ++ [.rightParen]) := by
  refine .cons .leftParen (Lexed.append ?_ (.cons .rightParen .nil))
  exact h.lexed _ _ rfl (by simp)

theorem group (h : ReadsAs v words tokens) :
    ReadsAs v ("(" :: words ++ [")"]) (.leftParen :: tokens ++ [.rightParen]) where
  lexed previous next _ _ := h.lexed_parens previous next
  complete previous := by rw [List.getLast?_concat]; rfl

theorem call {name : String} (hname : isIdentifier name = true) (hf : v.isFunction name = true)
    (h : ReadsAs v words tokens) : ReadsAs v (name :: "(" :: words ++ [")"])
      (.function name :: .leftParen :: tokens ++ [.rightParen]) where
  lexed previous next _ _ := .cons (.function hname hf) (h.lexed_parens _ next)
  complete previous := by rw [List.getLast?_concat]; rfl

theorem cons {word : String} {token : Token}
    (hword : ∀ previous next, operandDue previous = true → WordToken v previous word next token)
    (htoken : operandDue (some token) = true) (h : ReadsAs v words tokens) :
    ReadsAs v (word :: words) (token :: tokens) where
  lexed previous next hdue hnext := .cons (hword _ _ hdue) (h.lexed _ _ htoken hnext)
  complete previous := by
    have hlast := h.complete (some token)
    rw [List.getLast?_cons]
    cases hget : tokens.getLast? <;> simpa [hget] using hlast

/-- Between two operands stands an operator or a comma. -/
theorem between {word : String} {token : Token}
    (hword : ∀ previous next, operandDue previous = false → WordToken v previous word next token)
    (htoken : operandDue (some token) = true) (hopen : word.toList.head? ≠ some '(')
    (h : ReadsAs v words tokens) (h' : ReadsAs v words' tokens') :
    ReadsAs v (words ++ word :: words') (tokens ++ token :: tokens') where
  lexed previous next hdue hnext := by
    have hleft := h.lexed previous (some word) hdue (by simpa using hopen)
    have hright := h'.lexed (some token) next htoken hnext
    exact Lexed.append hleft (.cons (hword _ _ (h.complete previous)) hright)
  complete previous := by
    have hlast := h'.complete (some token)
    rw [List.getLast?_append, List.getLast?_cons]
    cases hget : tokens'.getLast? <;> simpa [hget] using hlast

end ReadsAs

end FuzzyInference.Formula
