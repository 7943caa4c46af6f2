import FuzzyInference.Json.Value

/-!
Written JSON is read back. A text spells tokens if they are read from it whatever follows, so the
tokens of a text are found part by part. An escaped character is read as one piece, which stands for
that character; the elements of an array and the members of an object are found between their
commas.
-/
namespace FuzzyInference.Json

/-! ### Strings -/

theorem hex?_digitChar : ∀ n < 0x20,
    hex? '0' '0' (Nat.digitChar (n / 16)) (Nat.digitChar (n % 16)) = some n := by
  decide

/-- A code unit below the surrogates stands for its character, whatever comes next. -/
theorem decode?_codeUnit {n : Nat} (h : n < 0xD800) (pieces : List Piece) :
    decode? (.codeUnit n :: pieces) = (decode? pieces).map (Char.ofNat n :: ·) := by
  have hhigh : isHighSurrogate n = false := by
    simp only [isHighSurrogate, Bool.and_eq_false_iff, decide_eq_false_iff_not]
    omega
  have hlow : isLowSurrogate n = false := by
    simp only [isLowSurrogate, Bool.and_eq_false_iff, decide_eq_false_iff_not]
    omega
  match pieces with
  | [] | .char _ :: _ | .codeUnit _ :: _ => simp [decode?, hhigh, hlow]

theorem pieces?_letter {e c : Char} (h : escaped? e = some c) (rest : List Char) :
    pieces? ('\\' :: e :: rest) =
      (pieces? rest).map fun (pieces, after) => (.char c :: pieces, after) := by
  have hu : e ≠ 'u' := by
    rintro rfl
    cases h
  rw [pieces?, h]
  · cases pieces? rest <;> rfl
  · simp [hu]

theorem pieces?_plain {c : Char} (hquote : c ≠ '"') (hbackslash : c ≠ '\\') (hc : 0x20 ≤ c.toNat)
    (rest : List Char) : pieces? (c :: rest) =
      (pieces? rest).map fun (pieces, after) => (.char c :: pieces, after) := by
  rw [pieces?, if_neg (by simp only [hbackslash, false_or]; omega)]
  · cases pieces? rest <;> rfl
  · exact hquote
  · simp [hbackslash]
  · simp [hbackslash]

/-- An escaped character is read as a piece that stands for it. -/
theorem exists_piece_of_escape (c : Char) : ∃ piece : Piece,
    (∀ rest, pieces? (escape c ++ rest) =
      (pieces? rest).map fun (pieces, after) => (piece :: pieces, after)) ∧
    ∀ pieces, decode? (piece :: pieces) = (decode? pieces).map (c :: ·) := by
  unfold escape
  split
  case h_8 hquote hbackslash _ _ _ _ _ =>
    by_cases hc : c.toNat < 0x20
    · refine ⟨.codeUnit c.toNat, fun rest => ?_, fun pieces => ?_⟩
      · rw [if_pos hc]
        simp only [List.cons_append, List.nil_append, pieces?, hex?_digitChar _ hc]
        cases pieces? rest <;> rfl
      · rw [decode?_codeUnit (by omega), Char.ofNat_toNat]
    · refine ⟨.char c, fun rest => ?_, fun pieces => rfl⟩
      rw [if_neg hc]
      exact pieces?_plain hquote hbackslash (by omega) rest
  -- The characters with an escape of one letter.
  all_goals exact ⟨.char _, fun rest => pieces?_letter rfl rest, fun pieces => rfl⟩

/-- A written text is read up to its closing quote. -/
theorem exists_pieces_of_escaped (text after : List Char) : ∃ pieces,
    pieces? (text.flatMap escape ++ '"' :: after) = some (pieces, after) ∧
      decode? pieces = some text := by
  induction text with
  | nil => exact ⟨[], by simp [pieces?], rfl⟩
  | cons c text ih =>
    obtain ⟨pieces, hpieces, hdecode⟩ := ih
    obtain ⟨piece, hread, hpiece⟩ := exists_piece_of_escape c
    refine ⟨piece :: pieces, ?_, ?_⟩
    · rw [List.flatMap_cons, List.append_assoc, hread, hpieces]
      rfl
    · rw [hpiece, hdecode]
      rfl

/-! ### Tokens -/

/-- The text is read as the tokens, whatever follows it. -/
def Spells (text : List Char) (tokens : List Token) : Prop :=
  ∀ rest, tokens? (text ++ rest) = (tokens? rest).map (tokens ++ ·)

namespace Spells

variable {text text' : List Char} {tokens tokens' : List Token}

theorem nil : Spells [] [] := by
  intro rest
  simp

theorem append (h : Spells text tokens) (h' : Spells text' tokens') :
    Spells (text ++ text') (tokens ++ tokens') := by
  intro rest
  rw [List.append_assoc, h, h', Option.map_map]
  simp only [Function.comp_def, List.append_assoc]

theorem blanks (h : ∀ c ∈ text, isBlank c = true) : Spells text [] := by
  induction text with
  | nil => exact nil
  | cons c text ih =>
    intro rest
    obtain ⟨hc, htext⟩ := List.forall_mem_cons.mp h
    rw [List.cons_append, tokens?, if_pos hc]
    exact ih htext rest

theorem of_next? {c : Char} {token : Token} (hc : isBlank c = false)
    (h : ∀ rest, next? c (text ++ rest) = some (token, rest)) : Spells (c :: text) [token] := by
  intro rest
  rw [List.cons_append, tokens?, if_neg (by simp [hc])]
  split
  · next hnext =>
    rw [h] at hnext
    cases hnext
  · next hnext =>
    rw [h] at hnext
    cases hnext
    rfl

theorem quote (text : List Char) : Spells (quote text) [.string (some (String.ofList text))] := by
  refine of_next? rfl fun rest => ?_
  obtain ⟨pieces, hpieces, hdecode⟩ := exists_pieces_of_escaped text rest
  rw [List.append_eq, List.append_assoc, List.singleton_append]
  simp only [next?, hpieces, Option.map_some, hdecode]

theorem bool (b : Bool) : Spells (if b then "true" else "false").toList
    [if b then .true else .false] := by
  cases b <;> exact of_next? rfl fun rest => rfl

theorem all (h : Spells text tokens) : tokens? text = some tokens := by
  have hall := h []
  rwa [List.append_nil, tokens?, Option.map_some, List.append_nil] at hall

end Spells

/-! ### Values -/

/-- The tokens fill the place of a value, in whatever brackets it stands. -/
def IsValue (tokens : List Token) : Prop :=
  ∀ brackets rest,
    afterValue? .value brackets (tokens ++ rest) = afterValue? .afterValue brackets rest

namespace IsValue

theorem string (text : Option String) : IsValue [.string text] := by
  intro brackets rest
  rfl

theorem bool (b : Bool) : IsValue [if b then .true else .false] := by
  intro brackets rest
  cases b <;> rfl

variable {value : List Token} {values : List (List Token)}

theorem value? (h : IsValue value) (rest : List Token) :
    value? (value ++ rest) = some (value, rest) := by
  have hafter : afterValue? .value [] (value ++ rest) = some rest := by
    rw [h, afterValue?]
  simp [Json.value?, hafter]

/-- After the opening bracket the elements are read up to the closing one. -/
theorem afterValue?_elements (h : IsValue value) (hvalues : ∀ value ∈ values, IsValue value)
    (brackets : List Bracket) (rest : List Token) :
    afterValue? .value (.array :: brackets)
      ([.comma].intercalate (value :: values) ++ .closeBracket :: rest) =
        afterValue? .afterValue brackets rest := by
  induction values generalizing value with
  | nil =>
    rw [List.intercalate_singleton, h]
    simp [afterValue?]
  | cons next values ih =>
    obtain ⟨hnext, hvalues⟩ := List.forall_mem_cons.mp hvalues
    rw [List.intercalate_cons_cons, List.append_assoc, List.append_assoc, h]
    simpa [afterValue?] using ih hnext hvalues

theorem strings (texts : List String) : IsValue (.openBracket ::
    ([.comma].intercalate (texts.map fun text => [.string (some text)]) ++ [.closeBracket])) := by
  intro brackets rest
  cases texts with
  | nil => simp [afterValue?]
  | cons text texts =>
    have htexts : ∀ value ∈ texts.map fun text => [Token.string (some text)], IsValue value := by
      simpa using fun text _ => string (some text)
    have helements := afterValue?_elements (string (some text)) htexts brackets rest
    rw [List.cons_append, List.append_assoc, List.singleton_append, ← helements, List.map_cons]
    -- A string is no closing bracket, so the first element is read as any other.
    cases texts <;> simp [afterValue?]

end IsValue

section Readers

variable {tokens value rest : List Token}

theorem elementsBefore?_of_comma (h : value? tokens = some (value, .comma :: rest)) :
    elementsBefore? tokens = (elementsBefore? rest).map (value :: ·) := by
  rw [elementsBefore?]
  split <;> simp_all

theorem elementsBefore?_of_close (h : value? tokens = some (value, [.closeBracket])) :
    elementsBefore? tokens = some [value] := by
  rw [elementsBefore?]
  split <;> simp_all

theorem membersBefore?_of_comma (key : Option String)
    (h : value? tokens = some (value, .comma :: rest)) :
    membersBefore? (.string key :: .colon :: tokens) =
      (membersBefore? rest).map ((key, value) :: ·) := by
  rw [membersBefore?]
  split <;> simp_all

theorem membersBefore?_of_close (key : Option String)
    (h : value? tokens = some (value, [.closeBrace])) :
    membersBefore? (.string key :: .colon :: tokens) = some [(key, value)] := by
  rw [membersBefore?]
  split <;> simp_all

theorem elementsBefore?_separated {values : List (List Token)} (h : IsValue value)
    (hvalues : ∀ value ∈ values, IsValue value) :
    elementsBefore? ([.comma].intercalate (value :: values) ++ [.closeBracket]) =
      some (value :: values) := by
  induction values generalizing value with
  | nil =>
    rw [List.intercalate_singleton]
    exact elementsBefore?_of_close (h.value? _)
  | cons next values ih =>
    obtain ⟨hnext, hvalues⟩ := List.forall_mem_cons.mp hvalues
    rw [List.intercalate_cons_cons, List.append_assoc, List.append_assoc, List.singleton_append,
      elementsBefore?_of_comma (h.value? _), ih hnext hvalues]
    rfl

/-- The tokens of a member. -/
def memberTokens (member : String × List Token) : List Token :=
  .string (some member.1) :: .colon :: member.2

theorem membersBefore?_separated {member : String × List Token}
    {members : List (String × List Token)} (h : IsValue member.2)
    (hmembers : ∀ member ∈ members, IsValue member.2) :
    membersBefore? ([.comma].intercalate ((member :: members).map memberTokens) ++ [.closeBrace]) =
      some ((member :: members).map fun (key, value) => (some key, value)) := by
  induction members generalizing member with
  | nil =>
    rw [List.map_singleton, List.intercalate_singleton]
    exact membersBefore?_of_close (some member.1) (h.value? _)
  | cons next members ih =>
    obtain ⟨hnext, hmembers⟩ := List.forall_mem_cons.mp hmembers
    rw [List.map_cons, List.map_cons, List.intercalate_cons_cons, List.append_assoc,
      List.append_assoc, List.singleton_append, memberTokens, List.cons_append, List.cons_append,
      membersBefore?_of_comma (some member.1) (h.value? _), ← List.map_cons, ih hnext hmembers]
    rfl

end Readers

/-- What is undone for each member is undone for a list. -/
theorem mapM_map_eq_some {T U : Type} {f : T → U} {g : U → Option T} (h : ∀ x, g (f x) = some x)
    (xs : List T) : (xs.map f).mapM g = some xs := by
  induction xs with
  | nil => rfl
  | cons x xs ih => simp [List.mapM_cons, h, ih]

/-- A written array of strings is read. -/
theorem strings?_written (texts : List String) : strings? (.openBracket ::
    ([.comma].intercalate (texts.map fun text => [.string (some text)]) ++ [.closeBracket])) =
      some texts := by
  have helements : elements? (.openBracket ::
      ([.comma].intercalate (texts.map fun text => [.string (some text)]) ++ [.closeBracket])) =
        some (texts.map fun text => [.string (some text)]) := by
    cases texts with
    | nil => rfl
    | cons text texts =>
      have htexts : ∀ value ∈ texts.map fun text => [Token.string (some text)], IsValue value := by
        simpa using fun text _ => IsValue.string (some text)
      rw [List.map_cons, elements?]
      · exact elementsBefore?_separated (.string (some text)) htexts
      · cases texts <;> simp
  rw [strings?, helements]
  apply mapM_map_eq_some
  intro text
  rfl

/-- The members of a written object are found. -/
theorem members?_written {members : List (String × List Token)}
    (h : ∀ member ∈ members, IsValue member.2) : members? (.openBrace ::
      ([.comma].intercalate (members.map memberTokens) ++ [.closeBrace])) = some members := by
  cases members with
  | nil => rfl
  | cons member members =>
    obtain ⟨hmember, hmembers⟩ := List.forall_mem_cons.mp h
    have hbefore := membersBefore?_separated hmember hmembers
    rw [members?]
    · rw [hbefore]
      apply mapM_map_eq_some
      intro member
      rfl
    · cases members <;> simp [memberTokens]

end FuzzyInference.Json
