import FuzzyInference.Binary64.Instances
import FuzzyInference.Proofs.Formula.Placement

/-!
Spacing does not matter. Where a token ends and what it is depends on the characters after it only
as far as they are not blank, so every token is read again when a blank follows it, and what stands
between two tokens is blank. One token is not written as it is read: a minus where an operand is due
is the negation `~`, which may be written as either.
-/
namespace FuzzyInference.Formula

open Infix Text

/-! ### Numerals -/

theorem signPart_eq_or (text : List Char) :
    signPart text = [] ∨ signPart text = ['+'] ∨ signPart text = ['-'] := by
  unfold signPart
  split
  · split
    · next c _ hc => rcases hc with rfl | rfl <;> simp
    · exact .inl rfl
  · exact .inl rfl

theorem isPrefix_signPart (text : List Char) : signPart text <+: text := by
  unfold signPart
  split
  · split
    · exact ⟨_, rfl⟩
    · exact List.nil_prefix
  · exact List.nil_prefix

theorem isPrefix_exponentPart (text : List Char) : exponentPart text <+: text := by
  unfold exponentPart
  split
  · exact List.prefix_rfl
  · next e rest =>
    dsimp only
    split
    · rw [List.cons_append, List.prefix_cons_inj]
      conv => rhs; rw [← List.prefix_iff_eq_append.mp (isPrefix_signPart rest)]
      exact (List.prefix_append_right_inj _).mpr (List.takeWhile_prefix _)
    · exact List.nil_prefix

/-- An exponent is that of some literal. -/
theorem exists_literal_exponentPart (text : List Char) :
    ∃ l : Numeral.Literal, l.exponentChars = exponentPart text := by
  -- any digits in front will do
  have hzero : ∀ exponent, ∃ l : Numeral.Literal, l.exponent = exponent := fun exponent =>
    ⟨⟨['0'], none, exponent, List.forall_mem_singleton.mpr rfl, List.forall_mem_nil _, by simp⟩,
      rfl⟩
  unfold exponentPart
  split
  · obtain ⟨l, hl⟩ := hzero none
    exact ⟨l, by rw [Numeral.Literal.exponentChars, hl]⟩
  · next e rest =>
    dsimp only
    split
    · next h =>
      have hdigits : ∀ c ∈ (rest.drop (signPart rest).length).takeWhile Char.isDigit,
          c.isDigit = true := List.all_eq_true.mp List.all_takeWhile
      obtain ⟨l, hl⟩ := hzero (some ⟨e, _, _, h.1, signPart_eq_or rest, h.2, hdigits⟩)
      exact ⟨l, by rw [Numeral.Literal.exponentChars, hl]; rfl⟩
    · obtain ⟨l, hl⟩ := hzero none
      exact ⟨l, by rw [Numeral.Literal.exponentChars, hl]⟩

theorem isBlank_of_mem_exponentChars {l : Numeral.Literal} {c : Char} (h : c ∈ l.exponentChars) :
    isBlank c = false := by
  unfold Numeral.Literal.exponentChars at h
  split at h
  · cases h
  · next e _ =>
    simp only [Numeral.Exponent.chars, List.cons_append, List.mem_cons, List.mem_append] at h
    rcases h with rfl | h | h
    · rcases e.mark_eq with he | he <;> rw [he] <;> rfl
    · rcases e.sign_eq with he | he | he <;> rw [he] at h
      · cases h
      · rw [List.mem_singleton.mp h]; rfl
      · rw [List.mem_singleton.mp h]; rfl
    · exact isBlank_of_isDigit (e.isDigit c h)

theorem isPrefix_numeralRest (text : List Char) : numeralRest text <+: text := by
  have hmantissa := List.prefix_iff_eq_append.mp (List.takeWhile_prefix isNumeralChar (l := text))
  unfold numeralRest
  dsimp only
  conv => rhs; rw [← hmantissa]
  exact (List.prefix_append_right_inj _).mpr (isPrefix_exponentPart _)

theorem isBlank_of_mem_numeralRest {text : List Char} {c : Char} (h : c ∈ numeralRest text) :
    isBlank c = false := by
  obtain ⟨l, hl⟩ := exists_literal_exponentPart
    (text.drop (text.takeWhile isNumeralChar).length)
  rcases List.mem_append.mp h with h | h
  · exact isBlank_of_class isNumeralChar_of_isBlank (List.all_eq_true.mp List.all_takeWhile c h)
  · rw [← hl] at h
    exact isBlank_of_mem_exponentChars h

/-- A numeral is read again, also where more text follows after a blank. -/
theorem numeralRest_append (text : List Char) {after : List Char}
    (hafter : Stops (fun c => !isBlank c) after) :
    numeralRest (numeralRest text ++ after) = numeralRest text := by
  obtain ⟨l, hl⟩ := exists_literal_exponentPart
    (text.drop (text.takeWhile isNumeralChar).length)
  have hsplit : numeralRest text = text.takeWhile isNumeralChar ++ l.exponentChars := by
    rw [hl]
    rfl
  have htake : (text.takeWhile isNumeralChar ++ (l.exponentChars ++ after)).takeWhile
      isNumeralChar = text.takeWhile isNumeralChar :=
    takeWhile_append_of_stops (List.all_eq_true.mp List.all_takeWhile)
      (stops_isNumeralChar l hafter)
  rw [hsplit, List.append_assoc]
  simp only [numeralRest, htake, List.drop_left, exponentPart_exponentChars l hafter]

/-! ### Tokens and how they are written -/

variable {α : Type} {v : Vocabulary α}

/-- How a token is written behind another one: as its own text, which is no minus where an operand
is due, or as a minus where it is the negation. -/
inductive IsWritten (v : Vocabulary α) (previous : Option Token) : String → Token → Prop
  | text {token : Token} (h : token.text = "-" → operandDue previous = false) :
      IsWritten v previous token.text token
  | negation (hdue : operandDue previous = true) (hminus : v.isOperator "-" = true) :
      IsWritten v previous "-" (.operator "~")

/-- The words are written for the tokens, one for each. -/
inductive Written (v : Vocabulary α) : Option Token → List String → List Token → Prop
  | nil {previous : Option Token} : Written v previous [] []
  | cons {previous : Option Token} {word : String} {words : List String} {token : Token}
      {tokens : List Token} (hword : IsWritten v previous word token)
      (h : Written v (some token) words tokens) :
      Written v previous (word :: words) (token :: tokens)

/-- The two writings of the negation open no parenthesis. -/
theorem IsWritten.opens_iff {previous : Option Token} {word word' : String} {token : Token}
    (h : IsWritten v previous word token) (h' : IsWritten v previous word' token) :
    word.toList.head? = some '(' ↔ word'.toList.head? = some '(' := by
  cases h with
  | text h =>
    cases h' with
    | text h' => exact Iff.rfl
    | negation => exact iff_of_false (by decide) (by decide)
  | negation =>
    cases h' with
    | text h' => exact iff_of_false (by decide) (by decide)
    | negation => exact Iff.rfl

theorem Written.map_text {previous : Option Token} {words : List String} {tokens : List Token}
    (h : Written v previous words tokens) :
    Written v previous (tokens.map Token.text) tokens := by
  induction h with
  | nil => exact .nil
  | cons hword _ ih =>
    refine .cons (.text ?_) ih
    cases hword with
    | text h => exact h
    | negation => exact fun htext => absurd htext (by decide)

theorem isWritten_of_ne {previous : Option Token} {c : Char} {tail : List Char} {token : Token}
    (htext : token.text = String.ofList (c :: tail)) (hc : c ≠ '-') :
    IsWritten v previous (String.ofList (c :: tail)) token := by
  rw [← htext]
  refine .text fun hminus => absurd ?_ hc
  have hlist : (String.ofList (c :: tail)).toList = "-".toList := by rw [← htext, hminus]
  rw [String.toList_ofList] at hlist
  exact (List.cons.inj hlist).1

theorem text_of_symbolToken {previous : Option Token} {c : Char} {token : Token}
    (h : symbolToken v previous c = .ok token) (hc : c ≠ '-') :
    token.text = String.ofList [c] := by
  unfold symbolToken at h
  split at h
  · next hopen => cases h; rw [hopen]; rfl
  · split at h
    · next hclose => cases h; rw [hclose]; rfl
    · split at h
      · next hcomma => cases h; rw [hcomma]; rfl
      · split at h <;> cases h
        rw [if_neg fun h => hc h.1]
        rfl

theorem isWritten_of_symbolToken {previous : Option Token} {c : Char} {token : Token}
    (h : symbolToken v previous c = .ok token) :
    IsWritten v previous (String.ofList [c]) token := by
  by_cases hc : c = '-'
  · subst hc
    rw [symbolToken, if_neg (by decide), if_neg (by decide), if_neg (by decide)] at h
    split at h <;> cases h
    next hminus =>
    cases hdue : operandDue previous with
    | true => exact .negation hdue hminus
    | false =>
      rw [if_neg (by simp)]
      change IsWritten v previous (Token.operator "-").text (.operator "-")
      exact .text fun _ => hdue
  · exact isWritten_of_ne (text_of_symbolToken h hc) hc

theorem ne_minus_of_startsNumeral {c : Char} {rest : List Char} (h : startsNumeral c rest = true) :
    c ≠ '-' := by
  rintro rfl
  exact absurd h (by simp [startsNumeral])

theorem ne_minus_of_isNameStart {c : Char} (h : isNameStart c = true) : c ≠ '-' := by
  rintro rfl
  exact absurd h (by decide)

theorem text_of_nameToken {name : String} {after : List Char} {token : Token}
    (h : nameToken v name after = .ok token) : token.text = name := by
  unfold nameToken at h
  split at h
  · cases h; rfl
  · split at h
    · cases h; rfl
    · split at h <;> cases h
      rfl

/-- A token takes the first character and the ones behind it that are no blanks. -/
theorem exists_of_nextToken {previous : Option Token} {c : Char} {rest : List Char} {token : Token}
    {length : Nat} (h : nextToken v previous c rest = .ok (token, length)) :
    ∃ tail after, rest = tail ++ after ∧ length = tail.length ∧
      (∀ d ∈ tail, isBlank d = false) ∧ IsWritten v previous (String.ofList (c :: tail)) token := by
  unfold nextToken at h
  split at h
  · next hc =>
    cases h
    have hsplit := List.prefix_iff_eq_append.mp (isPrefix_numeralRest rest)
    refine ⟨numeralRest rest, _, hsplit.symm, rfl, fun d hd => isBlank_of_mem_numeralRest hd, ?_⟩
    exact isWritten_of_ne rfl (ne_minus_of_startsNumeral hc)
  · split at h
    · next hc =>
      obtain ⟨name, hname, h⟩ := exists_of_bind_eq_ok h
      cases h
      refine ⟨_, _, List.takeWhile_append_dropWhile.symm, rfl, fun d hd => ?_, ?_⟩
      · exact isBlank_of_class isNameChar_of_isBlank (List.all_eq_true.mp List.all_takeWhile d hd)
      · exact isWritten_of_ne (text_of_nameToken hname) (ne_minus_of_isNameStart hc)
    · obtain ⟨symbol, hsymbol, h⟩ := exists_of_bind_eq_ok h
      cases h
      exact ⟨[], rest, rfl, rfl, by simp, isWritten_of_symbolToken hsymbol⟩

/-- The text after a name matters only as far as a parenthesis may open there. -/
theorem nameToken_of_find?_iff {name : String} {after after' : List Char}
    (h : after'.find? (fun c => !isBlank c) = some '(' ↔
      after.find? (fun c => !isBlank c) = some '(') :
    nameToken v name after = nameToken v name after' := by
  simp only [nameToken, h]

theorem eq_of_prefix_append {cs tail after : List Char} (h : cs <+: tail ++ after)
    (hlength : cs.length = tail.length) : cs = tail := by
  rw [List.prefix_iff_eq_take.mp h, hlength, List.take_left]

/-- A numeral that starts with a point has the digit behind it. -/
theorem startsNumeral_append {c : Char} {tail after : List Char}
    (h : startsNumeral c (tail ++ after) = true) (htail : numeralRest (tail ++ after) = tail)
    (after' : List Char) : startsNumeral c (tail ++ after') = true := by
  simp only [startsNumeral, Bool.or_eq_true, Bool.and_eq_true] at h ⊢
  refine h.imp_right fun hpoint => ⟨hpoint.1, ?_⟩
  cases tail with
  | cons d tail => exact hpoint.2
  | nil =>
    cases after with
    | nil => cases hpoint.2
    | cons d after =>
      have hdigit : d.isDigit = true := hpoint.2
      have hd : isNumeralChar d = true := by simp [isNumeralChar, hdigit]
      simp [numeralRest, hd] at htail

theorem startsNumeral_of_stops {c : Char} {after : List Char} (hc : c.isDigit = false)
    (hafter : Stops (fun c => !isBlank c) after) : startsNumeral c after = false := by
  have hdigit : after.head?.any Char.isDigit = false := by
    rw [Option.any_eq_false]
    exact fun d hd => (hafter.of_blank fun _ => isDigit_of_isBlank) d hd
  simp [startsNumeral, hc, hdigit]

/-- A token is read again wherever a blank or the end follows it, as long as an open parenthesis
comes next in both places or in none. -/
theorem nextToken_again {previous : Option Token} {c : Char} {tail after after' : List Char}
    {token : Token} (h : nextToken v previous c (tail ++ after) = .ok (token, tail.length))
    (hafter' : Stops (fun c => !isBlank c) after')
    (hopen : after'.find? (fun c => !isBlank c) = some '(' ↔
      after.find? (fun c => !isBlank c) = some '(') :
    nextToken v previous c (tail ++ after') = .ok (token, tail.length) := by
  unfold nextToken at h
  split at h
  · next hnumeral =>
    obtain ⟨htoken, hlength⟩ := Prod.mk.inj (Except.ok.inj h)
    have htail := eq_of_prefix_append (isPrefix_numeralRest (tail ++ after)) hlength
    have hrest : numeralRest (tail ++ after') = tail := by
      have hagain := numeralRest_append (tail ++ after) hafter'
      rwa [htail] at hagain
    rw [nextToken, if_pos (startsNumeral_append hnumeral htail after')]
    dsimp only
    rw [hrest, ← htoken, htail]
  · next hnumeral =>
    split at h
    · next hname =>
      obtain ⟨named, hnamed, h⟩ := exists_of_bind_eq_ok h
      obtain ⟨rfl, hlength⟩ := Prod.mk.inj (Except.ok.inj h)
      have htail := eq_of_prefix_append (List.takeWhile_prefix isNameChar) hlength
      have hrest : (tail ++ after').takeWhile isNameChar = tail := by
        refine takeWhile_append_of_stops (fun d hd => ?_)
          (hafter'.of_blank fun _ => isNameChar_of_isBlank)
        rw [← htail] at hd
        exact List.all_eq_true.mp List.all_takeWhile d hd
      have hstart : startsNumeral c (tail ++ after') = false :=
        startsNumeral_of_isNumeralChar (isNumeralChar_of_isNameStart hname) _
      rw [htail, List.drop_left, nameToken_of_find?_iff hopen] at hnamed
      rw [nextToken, if_neg (by simp [hstart]), if_pos hname]
      simp only [hrest, List.drop_left, hnamed]
      rfl
    · next hname =>
      obtain ⟨symbol, hsymbol, h⟩ := exists_of_bind_eq_ok h
      obtain ⟨rfl, hlength⟩ := Prod.mk.inj (Except.ok.inj h)
      obtain rfl : tail = [] := List.eq_nil_of_length_eq_zero hlength.symm
      -- no digit comes to stand behind a point, because a blank does
      have hdigit : c.isDigit = false := by
        simp only [startsNumeral, Bool.or_eq_true, not_or, Bool.not_eq_true] at hnumeral
        exact hnumeral.1
      have hstart := startsNumeral_of_stops hdigit hafter'
      rw [List.nil_append, nextToken, if_neg (by simp [hstart]), if_neg hname, hsymbol]
      rfl

/-! ### Texts and their tokens -/

theorem isBlank_of_tokensAfter_nil {previous : Option Token} {text : List Char}
    (h : tokensAfter v previous text = .ok []) : ∀ c ∈ text, isBlank c = true := by
  induction text with
  | nil => simp
  | cons c rest ih =>
    rw [tokensAfter_cons] at h
    split at h
    · next hc => exact List.forall_mem_cons.mpr ⟨hc, ih h⟩
    · obtain ⟨⟨token, length⟩, -, h⟩ := exists_of_bind_eq_ok h
      obtain ⟨tokens, -, h⟩ := exists_of_bind_eq_ok h
      cases h

/-- The first token of a text, what stands before it and what stands after it. -/
theorem exists_of_tokensAfter {previous : Option Token} {text : List Char} {token : Token}
    {tokens : List Token} (h : tokensAfter v previous text = .ok (token :: tokens)) :
    ∃ blanks c tail after, text = blanks ++ c :: tail ++ after ∧
      (∀ b ∈ blanks, isBlank b = true) ∧ IsWord (String.ofList (c :: tail)) ∧
      nextToken v previous c (tail ++ after) = .ok (token, tail.length) ∧
      IsWritten v previous (String.ofList (c :: tail)) token ∧
      tokensAfter v (some token) after = .ok tokens := by
  induction text with
  | nil => simp at h
  | cons c rest ih =>
    rw [tokensAfter_cons] at h
    split at h
    · next hc =>
      obtain ⟨blanks, d, tail, after, rfl, hblanks, hrest⟩ := ih h
      exact ⟨c :: blanks, d, tail, after, rfl, List.forall_mem_cons.mpr ⟨hc, hblanks⟩, hrest⟩
    · next hc =>
      obtain ⟨⟨token', length⟩, htoken, h⟩ := exists_of_bind_eq_ok h
      obtain ⟨tokens', htokens, h⟩ := exists_of_bind_eq_ok h
      cases h
      obtain ⟨tail, after, rfl, rfl, htail, hwritten⟩ := exists_of_nextToken htoken
      rw [List.drop_left] at htokens
      refine ⟨[], c, tail, after, rfl, by simp, ⟨by simp, ?_⟩, htoken, hwritten, htokens⟩
      rw [String.toList_ofList]
      exact List.forall_mem_cons.mpr ⟨by simpa using hc, htail⟩

/-- The words that are written for the tokens of a text are the text without its blanks. -/
theorem exists_written {previous : Option Token} {text : List Char} {tokens : List Token}
    (h : tokensAfter v previous text = .ok tokens) :
    ∃ words, Written v previous words tokens ∧ (∀ word ∈ words, IsWord word) ∧
      words.flatMap String.toList = text.filter (fun c => !isBlank c) := by
  induction tokens generalizing previous text with
  | nil =>
    refine ⟨[], .nil, by simp, ?_⟩
    rw [List.flatMap_nil, eq_comm, List.filter_eq_nil_iff]
    simpa using isBlank_of_tokensAfter_nil h
  | cons token tokens ih =>
    obtain ⟨blanks, c, tail, after, rfl, hblanks, hword, -, hwritten, hafter⟩ :=
      exists_of_tokensAfter h
    obtain ⟨words, hwords, hall, hjoined⟩ := ih hafter
    refine ⟨_ :: words, .cons hwritten hwords, List.forall_mem_cons.mpr ⟨hword, hall⟩, ?_⟩
    have hleft : blanks.filter (fun c => !isBlank c) = [] := by
      rw [List.filter_eq_nil_iff]
      simpa using hblanks
    have hchars : (c :: tail).filter (fun c => !isBlank c) = c :: tail := by
      rw [List.filter_eq_self]
      simpa using hword.isBlank
    rw [List.flatMap_cons, hjoined, String.toList_ofList, List.filter_append, List.filter_append,
      hleft, hchars, List.nil_append]

theorem Written.isWord {previous : Option Token} {words words' : List String} {tokens : List Token}
    (h : Written v previous words tokens) (h' : Written v previous words' tokens)
    (hwords : ∀ word ∈ words, IsWord word) : ∀ word ∈ words', IsWord word := by
  induction h generalizing words' with
  | nil => cases h'; simp
  | cons hword _ ih =>
    cases h' with
    | cons hword' h' =>
      obtain ⟨hfirst, hrest⟩ := List.forall_mem_cons.mp hwords
      refine List.forall_mem_cons.mpr ⟨?_, ih h' hrest⟩
      cases hword with
      | text =>
        cases hword' with
        | text => exact hfirst
        | negation => decide
      | negation =>
        cases hword' with
        | text => decide
        | negation => exact hfirst

/-- The next word opens a parenthesis where the text does. -/
theorem opens_iff_of_written {previous : Option Token} {text : List Char} {tokens : List Token}
    {words : List String} (h : tokensAfter v previous text = .ok tokens)
    (hwords : Written v previous words tokens) :
    words.head?.bind (·.toList.head?) = some '(' ↔
      text.find? (fun c => !isBlank c) = some '(' := by
  cases hwords with
  | nil =>
    have hblank : text.find? (fun c => !isBlank c) = none := by
      simpa using isBlank_of_tokensAfter_nil h
    simp [hblank]
  | cons hword _ =>
    obtain ⟨blanks, c, tail, after, rfl, hblanks, hisWord, -, hwritten, -⟩ :=
      exists_of_tokensAfter h
    have hleft : blanks.find? (fun c => !isBlank c) = none := by simpa using hblanks
    have hc : isBlank c = false := hisWord.isBlank c (by simp)
    have hfind : (blanks ++ c :: tail ++ after).find? (fun c => !isBlank c) = some c := by
      simp [List.find?_append, hleft, hc]
    rw [hfind]
    simpa using hword.opens_iff hwritten

/-- What is written for a token is read as the token. -/
theorem wordToken_of_isWritten {previous : Option Token} {c : Char} {tail after : List Char}
    {token : Token} {word : String} {next : Option String}
    (h : nextToken v previous c (tail ++ after) = .ok (token, tail.length))
    (hwritten : IsWritten v previous (String.ofList (c :: tail)) token)
    (hword : IsWritten v previous word token)
    (hopen : next.bind (·.toList.head?) = some '(' ↔
      after.find? (fun c => !isBlank c) = some '(')
    (hnegation : token = .operator "~" → v.isOperator "~" = true) :
    WordToken v previous word next token := by
  cases hword with
  | negation hdue hminus =>
    have hsign : WordToken v previous "-" next
        (.operator (if '-' = '-' ∧ operandDue previous then "~" else "-")) :=
      WordToken.sign (c := '-') (by decide) (by decide) (by decide) hminus
    simpa [hdue] using hsign
  | text =>
    generalize htext : token.text = word
    generalize hlexeme : String.ofList (c :: tail) = lexeme at hwritten
    cases hwritten with
    | text =>
      intro d rest after' hlist hafter' hfind
      rw [← htext, ← hlexeme, String.toList_ofList] at hlist
      obtain ⟨rfl, rfl⟩ := List.cons.inj hlist
      refine nextToken_again h hafter' ?_
      rw [hfind]
      exact hopen
    | negation =>
      subst htext
      exact WordToken.sign (c := '~') (by decide) (by decide) (by decide) (hnegation rfl)

theorem lexed_of_written {previous : Option Token} {text : List Char} {tokens : List Token}
    {words : List String} (h : tokensAfter v previous text = .ok tokens)
    (hwords : Written v previous words tokens)
    (hnegation : .operator "~" ∈ tokens → v.isOperator "~" = true) :
    Lexed v previous words none tokens := by
  induction hwords generalizing text with
  | nil => exact .nil
  | cons hword hrest ih =>
    obtain ⟨blanks, c, tail, after, rfl, -, -, htoken, hwritten, hafter⟩ :=
      exists_of_tokensAfter h
    refine .cons (wordToken_of_isWritten htoken hwritten hword ?_ fun htilde => ?_)
      (ih hafter fun hmem => hnegation (List.mem_cons_of_mem _ hmem))
    · rw [Option.or_none]
      exact opens_iff_of_written hafter hrest
    · rw [htilde] at hnegation
      exact hnegation List.mem_cons_self

/-- The operator tokens of a postfix order are operators of the vocabulary, also the negation that
was written as a minus. -/
theorem isOperator_of_toPostfix {text : String} {tokens : List Token}
    {items : List (Item (Element α))} (h : toPostfix v.get? text tokens = .ok items)
    {symbol : String} (hsymbol : .operator symbol ∈ tokens) : v.isOperator symbol = true := by
  obtain ⟨t, arguments, hrun, -⟩ := exists_of_toPostfix h
  obtain ⟨o, ho, hoperator⟩ := State.isOperator_of_run hrun hsymbol
  rw [Vocabulary.isOperator, ho]
  exact hoperator

/-- Spacing does not matter. The words that are written for the tokens of a formula, each the text
of its token or a minus for the negation where an operand is due, are its text without the blanks;
and every text that joins such words by blanks, the texts of the tokens among them, has the same
tree. -/
theorem parseWith_of_joins [NumberText α] {text : String} {f : Formula α}
    (h : parseWith v text = .ok f) :
    ∃ toks lexemes, tokens v text = .ok toks ∧ Written v none lexemes toks ∧
      lexemes.flatMap String.toList = text.toList.filter (fun c => !isBlank c) ∧
      Written v none (toks.map Token.text) toks ∧
      ∀ words, Written v none words toks → ∀ text' : String, Joins words text'.toList →
        tokens v text' = .ok toks ∧
        parseWith v text' = .ok { text := trim text', root := f.root } := by
  obtain ⟨toks, items, htokens, hitems, htrees⟩ := tree_eq_ok_iff.mp (tree_of_parseWith h)
  obtain ⟨lexemes, hlexemes, hall, hjoined⟩ := exists_written htokens
  refine ⟨toks, lexemes, htokens, hlexemes, hjoined, hlexemes.map_text, ?_⟩
  intro words hwords text' hjoins
  have hlexed := lexed_of_written htokens hwords (isOperator_of_toPostfix hitems)
  have htokens' : tokens v text' = .ok toks :=
    tokensAfter_of_lexed hlexed (hjoins.wordsAfter (hlexemes.isWord hwords hall))
  have htree : tree v text' = .ok f.root :=
    tree_eq_ok_iff.mpr ⟨toks, items, htokens', toPostfix_text hitems text', htrees⟩
  exact ⟨htokens', parseWith_of_tree htree⟩

/-- The first minus is a negation, which can be written apart as either sign. -/
theorem parseWith_of_joins_signs : ∃ f : Formula Float, parse "-x-y" = .ok f ∧
    parse "- x - y" = .ok { text := trim "- x - y", root := f.root } ∧
    parse "~ x\n-  y" = .ok { text := trim "~ x\n-  y", root := f.root } := by
  have hok : (parse "-x-y" : Except Error (Formula Float)).isOk = true := by decide +kernel
  have htokens : (tokens (builtin : Vocabulary Float) "-x-y").toOption =
      some [.operator "~", .operand "x", .operator "-", .operand "y"] := by decide +kernel
  cases hf : (parse "-x-y" : Except Error (Formula Float)) with
  | error cause =>
    rw [hf] at hok
    cases hok
  | ok f =>
    obtain ⟨toks, -, htoks, -, -, htexts, hspaced⟩ := parseWith_of_joins hf
    rw [htoks] at htokens
    obtain rfl := Option.some.inj htokens
    have hsigns : Written (builtin : Vocabulary Float) none ["-", "x", "-", "y"]
        [.operator "~", .operand "x", .operator "-", .operand "y"] := by
      cases htexts with
      | cons _ hrest => exact .cons (.negation rfl (by decide +kernel)) hrest
    have hspace : ∀ c ∈ [' '], isBlank c = true := List.forall_mem_singleton.mpr rfl
    have hbreak : ∀ c ∈ ['\n'], isBlank c = true := List.forall_mem_singleton.mpr rfl
    have hspaces : ∀ c ∈ [' ', ' '], isBlank c = true := List.forall_mem_cons.mpr ⟨rfl, hspace⟩
    have hne : ∀ (c : Char) (cs : List Char), c :: cs ≠ [] := List.cons_ne_nil
    refine ⟨f, rfl, (hspaced _ hsigns _ ?_).2, (hspaced _ htexts _ ?_).2⟩
    · exact .cons (hne _ _) hspace (.cons (hne _ _) hspace (.cons (hne _ _) hspace (.word "y")))
    · exact .cons (hne _ _) hspace (.cons (hne _ _) hbreak (.cons (hne _ _) hspaces (.word "y")))

end FuzzyInference.Formula
