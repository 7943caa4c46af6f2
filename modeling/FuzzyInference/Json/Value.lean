import FuzzyInference.Json.Token

/-!
Values as the tokens they are written with. A value is found by following its brackets, however deep
they go; the elements of an array and the members of an object are the values between its brackets.
-/
namespace FuzzyInference.Json

inductive Bracket where
  | array
  | object
  deriving DecidableEq

/-- What may come next within a value. -/
inductive Place where
  | value
  /-- After `[`: a value or the end of the array. -/
  | firstElement
  /-- After an opening brace: a key or the end of the object. -/
  | firstKey
  | key
  | afterValue
  deriving DecidableEq

/-- What follows a value, given the brackets that are open in it from the innermost one. -/
def afterValue? : Place → List Bracket → List Token → Option (List Token)
  | .afterValue, [], rest => some rest
  | _, _, [] => none
  | .afterValue, .array :: brackets, token :: rest =>
    match token with
    | .comma => afterValue? .value (.array :: brackets) rest
    | .closeBracket => afterValue? .afterValue brackets rest
    | _ => none
  | .afterValue, .object :: brackets, token :: rest =>
    match token with
    | .comma => afterValue? .key (.object :: brackets) rest
    | .closeBrace => afterValue? .afterValue brackets rest
    | _ => none
  | .firstElement, _ :: brackets, .closeBracket :: rest => afterValue? .afterValue brackets rest
  | .firstKey, _ :: brackets, .closeBrace :: rest => afterValue? .afterValue brackets rest
  | .firstKey, brackets, .string _ :: .colon :: rest => afterValue? .value brackets rest
  | .key, brackets, .string _ :: .colon :: rest => afterValue? .value brackets rest
  | .firstKey, _, _ => none
  | .key, _, _ => none
  | _, brackets, token :: rest =>
    match token with
    | .openBracket => afterValue? .firstElement (.array :: brackets) rest
    | .openBrace => afterValue? .firstKey (.object :: brackets) rest
    | .string _ | .number | .true | .false | .null => afterValue? .afterValue brackets rest
    | _ => none

theorem length_afterValue? {place : Place} {brackets : List Bracket} {tokens rest : List Token}
    (h : afterValue? place brackets tokens = some rest) : rest.length ≤ tokens.length := by
  fun_induction afterValue? place brackets tokens
  case case1 =>
    obtain rfl := Option.some.inj h
    exact Nat.le_refl _
  -- The tokens end, or the next one does not fit its place.
  case case2 | case5 | case8 | case13 | case14 | case22 => cases h
  -- A key and its colon are read together.
  case case11 ih | case12 ih => exact Nat.le_trans (ih h) (Nat.le_add_right _ 2)
  all_goals
    next ih => exact Nat.le_succ_of_le (ih h)

/-- The tokens of the value at the front, and what follows it. -/
def value? (tokens : List Token) : Option (List Token × List Token) :=
  (afterValue? .value [] tokens).map fun rest => (tokens.take (tokens.length - rest.length), rest)

theorem length_value? {tokens value rest : List Token} (h : value? tokens = some (value, rest)) :
    rest.length ≤ tokens.length := by
  simp only [value?, Option.map_eq_some_iff, Prod.mk.injEq] at h
  obtain ⟨_, h, _, rfl⟩ := h
  exact length_afterValue? h

/-- The elements before the bracket that closes an array, if nothing follows it. -/
def elementsBefore? (tokens : List Token) : Option (List (List Token)) :=
  match _h : value? tokens with
  | some (value, .comma :: rest) => (elementsBefore? rest).map (value :: ·)
  | some (value, [.closeBracket]) => some [value]
  | _ => none
termination_by tokens.length
decreasing_by
  have := length_value? _h
  simp only [List.length_cons] at this; omega

/-- The members before the brace that closes an object, if nothing follows it. A key is absent if
its escapes stand for no text. -/
def membersBefore? (tokens : List Token) : Option (List (Option String × List Token)) :=
  match tokens with
  | .string key :: .colon :: rest =>
    match _h : value? rest with
    | some (value, .comma :: rest) => (membersBefore? rest).map ((key, value) :: ·)
    | some (value, [.closeBrace]) => some [(key, value)]
    | _ => none
  | _ => none
termination_by tokens.length
decreasing_by
  have := length_value? _h
  simp only [List.length_cons] at this ⊢; omega

/-- The elements of an array. -/
def elements? : List Token → Option (List (List Token))
  | [.openBracket, .closeBracket] => some []
  | .openBracket :: rest => elementsBefore? rest
  | _ => none

/-- The members of an object in their order, with the keys as texts. -/
def members? : List Token → Option (List (String × List Token))
  | [.openBrace, .closeBrace] => some []
  | .openBrace :: rest => do
    (← membersBefore? rest).mapM fun (key, value) => key.map (·, value)
  | _ => none

def string? : List Token → Option String
  | [.string text] => text
  | _ => none

def bool? : List Token → Option Bool
  | [.true] => some Bool.true
  | [.false] => some Bool.false
  | _ => none

/-- A string, or `null` for an absent one. -/
def optionalString? : List Token → Option (Option String)
  | [.null] => some none
  | value => (string? value).map some

def strings? (value : List Token) : Option (List String) := do
  (← elements? value).mapM string?

/-- The value of a key that may be left out and may not be repeated. -/
def field? {β : Type} (members : List (String × List Token)) (key : String) (default : Option β)
    (read? : List Token → Option β) : Option β :=
  match members.filter (·.1 = key) with
  | [] => default
  | [(_, value)] => read? value
  | _ => none

end FuzzyInference.Json
