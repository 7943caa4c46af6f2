import FuzzyInference.Json.Quoted

/-!
The tokens of a JSON text. Blanks are the space, the tabulator and the two line ends. A string token
holds its text, if its escapes stand for one.
-/
namespace FuzzyInference.Json

inductive Token where
  | openBrace
  | closeBrace
  | openBracket
  | closeBracket
  | comma
  | colon
  | string (text : Option String)
  | number
  | true
  | false
  | null
  deriving DecidableEq

def isBlank (c : Char) : Bool := c = ' ' || c = '\t' || c = '\n' || c = '\r'

/-- What follows a sequence of at least one digit. -/
def digits? : List Char → Option (List Char)
  | [] => none
  | c :: rest => if c.isDigit then some (rest.dropWhile Char.isDigit) else none

/-- What follows the exponent of a number, if there is one. -/
def exponent? : List Char → Option (List Char)
  | [] => some []
  | c :: rest =>
    if c = 'e' ∨ c = 'E' then
      match rest with
      | [] => none
      | sign :: digits => digits? (if sign = '+' ∨ sign = '-' then digits else rest)
    else some (c :: rest)

/-- What follows the fraction and the exponent of a number, if there are any. -/
def fraction? : List Char → Option (List Char)
  | '.' :: rest => do exponent? (← digits? rest)
  | rest => exponent? rest

/-- What follows a number without its sign. A leading zero stands alone. -/
def unsigned? : List Char → Option (List Char)
  | '0' :: rest => fraction? rest
  | text => do fraction? (← digits? text)

/-- What follows the given word. -/
def after? : List Char → List Char → Option (List Char)
  | [], text => some text
  | c :: word, d :: text => if c = d then after? word text else none
  | _ :: _, [] => none

/-- The token that starts with `c`, and what follows it. -/
def next? (c : Char) (rest : List Char) : Option (Token × List Char) :=
  match c with
  | '\x7b' => some (.openBrace, rest)
  | '\x7d' => some (.closeBrace, rest)
  | '[' => some (.openBracket, rest)
  | ']' => some (.closeBracket, rest)
  | ',' => some (.comma, rest)
  | ':' => some (.colon, rest)
  | '"' => (pieces? rest).map fun (pieces, after) =>
      (.string ((decode? pieces).map String.ofList), after)
  | 't' => (after? ['r', 'u', 'e'] rest).map (.true, ·)
  | 'f' => (after? ['a', 'l', 's', 'e'] rest).map (.false, ·)
  | 'n' => (after? ['u', 'l', 'l'] rest).map (.null, ·)
  | '-' => (unsigned? rest).map (.number, ·)
  | c => (unsigned? (c :: rest)).map (.number, ·)

theorem length_digits? {text after : List Char} (h : digits? text = some after) :
    after.length < text.length := by
  cases text with
  | nil => simp [digits?] at h
  | cons c rest =>
    simp only [digits?, Option.ite_none_right_eq_some, Option.some.injEq] at h
    have := (List.dropWhile_suffix Char.isDigit (l := rest)).length_le
    simp only [← h.2, List.length_cons]; omega

theorem length_exponent? {text after : List Char} (h : exponent? text = some after) :
    after.length ≤ text.length := by
  unfold exponent? at h
  split at h
  · simp_all
  · split at h
    · split at h
      · simp at h
      · have := length_digits? h
        split at this <;> simp_all <;> omega
    · simp_all

theorem length_fraction? {text after : List Char} (h : fraction? text = some after) :
    after.length ≤ text.length := by
  unfold fraction? at h
  split at h
  · simp only [Option.bind_eq_bind, Option.bind_eq_some_iff] at h
    obtain ⟨r, hr, h⟩ := h
    have := length_digits? hr
    have := length_exponent? h
    simp only [List.length_cons]; omega
  · exact length_exponent? h

theorem length_unsigned? {text after : List Char} (h : unsigned? text = some after) :
    after.length < text.length := by
  unfold unsigned? at h
  split at h
  · have := length_fraction? h
    simp only [List.length_cons]; omega
  · simp only [Option.bind_eq_bind, Option.bind_eq_some_iff] at h
    obtain ⟨r, hr, h⟩ := h
    have := length_digits? hr
    have := length_fraction? h
    omega

theorem length_after? {word text after : List Char} (h : after? word text = some after) :
    after.length ≤ text.length := by
  fun_induction after? word text with
  | case1 => simp_all
  | case2 c word text ih =>
    have := ih h
    simp only [List.length_cons]; omega
  | case3 => simp at h
  | case4 => simp at h

theorem length_next? {c : Char} {rest after : List Char} {token : Token}
    (h : next? c rest = some (token, after)) : after.length ≤ rest.length := by
  have key {p : Token} {o : Option (List Char)} (h : o.map (p, ·) = some (token, after)) :
      o = some after := by
    simp only [Option.map_eq_some_iff, Prod.mk.injEq] at h
    obtain ⟨_, ho, _, rfl⟩ := h
    exact ho
  unfold next? at h
  split at h
  case h_7 =>
    simp only [Option.map_eq_some_iff, Prod.exists, Prod.mk.injEq] at h
    obtain ⟨_, _, hp, _, rfl⟩ := h
    exact Nat.le_of_lt (length_pieces? hp)
  case h_8 | h_9 | h_10 => exact length_after? (key h)
  case h_11 => exact Nat.le_of_lt (length_unsigned? (key h))
  case h_12 => exact Nat.le_of_lt_succ (length_unsigned? (key h))
  all_goals simp_all

/-- The tokens of a text. -/
def tokens? : List Char → Option (List Token)
  | [] => some []
  | c :: rest =>
    if isBlank c then tokens? rest
    else match _h : next? c rest with
      | none => none
      | some (token, after) => (tokens? after).map (token :: ·)
termination_by text => text.length
decreasing_by
  · simp
  · have := length_next? _h
    simp only [List.length_cons]; omega

end FuzzyInference.Json
