import FuzzyInference.Definition
import FuzzyInference.Proofs.Json.Written

/-!
The JSON form of a definition is lossless. What is left out when a definition is written is what the
reader fills in: an empty description, and a component that is absent. All else is found again under
its key, since no key is written twice.
-/
namespace FuzzyInference.Definition

open Json

/-- What stands under a key. -/
inductive Member where
  | string (text : String)
  | bool (b : Bool)
  | strings (texts : List String)

namespace Member

def written : Member → List Char
  | string text => quote text.toList
  | bool b => (if b then "true" else "false").toList
  | strings texts => bracketed '[' ']' 2 (texts.map fun text => quote text.toList)

def tokens : Member → List Token
  | string text => [.string (some text)]
  | bool b => [if b then .true else .false]
  | strings texts => .openBracket ::
      ([.comma].intercalate (texts.map fun text => [.string (some text)]) ++ [.closeBracket])

theorem isValue : (m : Member) → IsValue m.tokens
  | string text => .string (some text)
  | bool b => .bool b
  | strings texts => .strings texts

end Member

/-- The keys in the order of the fields; one that is left out has no member. -/
def fields (d : Definition) : List (String × Option Member) :=
  [("name", some (.string d.name)),
   ("description", if d.description = "" then none else some (.string d.description)),
   ("enabled", some (.bool d.enabled)),
   ("conjunction", d.conjunction.map .string),
   ("disjunction", d.disjunction.map .string),
   ("implication", d.implication.map .string),
   ("activation", d.activation.map .string),
   ("rules", some (.strings d.rules))]

/-- The members that are there. -/
def present {T : Type} (fields : List (String × Option T)) : List (String × T) :=
  fields.filterMap fun (key, value) => value.map (key, ·)

/-- The members that are there, with the tokens of their values. -/
def tokenMembers (d : Definition) : List (String × List Token) :=
  (present d.fields).map fun (key, member) => (key, member.tokens)

theorem members_eq (d : Definition) :
    d.members = (present d.fields).map fun (key, member) => (key, member.written) := by
  obtain ⟨name, description, enabled, conjunction, disjunction, implication, activation, rules⟩ := d
  unfold members fields present
  by_cases hdescription : description = "" <;> cases conjunction <;> cases disjunction <;>
    cases implication <;> cases activation <;> simp [hdescription, Member.written]

/-! ### Written texts -/

theorem spells_margin {text : List Char} {tokens : List Token} (h : Spells text tokens) (n : Nat) :
    Spells ('\n' :: List.replicate n ' ' ++ text) tokens := by
  have hblank : ∀ c ∈ '\n' :: List.replicate n ' ', isBlank c = true := by
    intro c hc
    rcases List.mem_cons.mp hc with rfl | hc
    · rfl
    · rw [List.eq_of_mem_replicate hc]
      rfl
  exact (Spells.blanks hblank).append h

section Lists

variable {T : Type} {written : T → List Char} {tokens : T → List Token}

theorem spells_separated {xs : List T} (h : ∀ x ∈ xs, Spells (written x) (tokens x)) :
    Spells ([','].intercalate (xs.map written)) ([.comma].intercalate (xs.map tokens)) := by
  induction xs with
  | nil => exact .nil
  | cons x xs ih =>
    obtain ⟨hx, hxs⟩ := List.forall_mem_cons.mp h
    cases xs with
    | nil => simpa using hx
    | cons next xs =>
      have hcomma : Spells [','] [.comma] := .of_next? rfl fun rest => rfl
      rw [List.map_cons, List.map_cons, List.map_cons, List.map_cons, List.intercalate_cons_cons,
        List.intercalate_cons_cons]
      exact (hx.append hcomma).append (ih hxs)

/-- Values on lines of their own, with commas after all but the last and between brackets. -/
theorem spells_bracketed {before after : Char} {opening closing : Token} (n : Nat) {xs : List T}
    (hbefore : Spells [before] [opening]) (hafter : Spells [after] [closing])
    (h : ∀ x ∈ xs, Spells (written x) (tokens x)) :
    Spells (bracketed before after n (xs.map written))
      (opening :: ([.comma].intercalate (xs.map tokens) ++ [closing])) := by
  cases xs with
  | nil => exact hbefore.append hafter
  | cons x xs =>
    have hlines : Spells
        ([','].intercalate ((x :: xs).map fun x => '\n' :: List.replicate (n + 2) ' ' ++ written x))
        ([.comma].intercalate ((x :: xs).map tokens)) :=
      spells_separated fun x hx => spells_margin (h x hx) (n + 2)
    have hall := (hbefore.append hlines).append (spells_margin hafter n)
    simpa [bracketed, Function.comp_def] using hall

end Lists

theorem spells_string (text : String) : Spells (quote text.toList) [.string (some text)] := by
  have hquote := Spells.quote text.toList
  rwa [String.ofList_toList] at hquote

theorem Member.spells (m : Member) : Spells m.written m.tokens := by
  cases m with
  | string text => exact spells_string text
  | bool b => exact .bool b
  | strings texts =>
    have hopen : Spells ['['] [.openBracket] := .of_next? rfl fun rest => rfl
    have hclose : Spells [']'] [.closeBracket] := .of_next? rfl fun rest => rfl
    apply spells_bracketed 2 hopen hclose
    intro text _
    exact spells_string text

/-- The tokens of a written definition. -/
theorem tokens?_toJson (d : Definition) : tokens? d.toJson.toList =
    some (.openBrace :: ([.comma].intercalate (d.tokenMembers.map memberTokens) ++
      [.closeBrace])) := by
  have hmember : ∀ m ∈ present d.fields, Spells
      (quote m.1.toList ++ [':', ' '] ++ m.2.written) (memberTokens (m.1, m.2.tokens)) := by
    intro m _
    have hcolon : Spells [':'] [.colon] := .of_next? rfl fun rest => rfl
    have hspace : Spells [' '] [] := .blanks (by simp [isBlank])
    exact ((spells_string m.1).append (hcolon.append hspace)).append m.2.spells
  have hopen : Spells ['\x7b'] [.openBrace] := .of_next? rfl fun rest => rfl
  have hclose : Spells ['\x7d'] [.closeBrace] := .of_next? rfl fun rest => rfl
  rw [toJson, String.toList_ofList, members_eq, tokenMembers, List.map_map, List.map_map]
  exact (spells_bracketed 0 hopen hclose hmember).all

/-! ### Reading -/

/-- No key stands twice, so all that is found under a key is what was written there. -/
theorem filter_present {T : Type} {fields : List (String × Option T)} {key : String}
    {value : Option T} (hkeys : (fields.map Prod.fst).Nodup) (h : (key, value) ∈ fields) :
    (present fields).filter (·.1 = key) = (value.map (key, ·)).toList := by
  induction fields with
  | nil => cases h
  | cons field fields ih =>
    obtain ⟨hfresh, hrest⟩ := List.nodup_cons.mp hkeys
    have hcons : present (field :: fields) =
        (field.2.map (field.1, ·)).toList ++ present fields := by
      cases hfield : field.2 <;> simp [present, hfield]
    rw [hcons, List.filter_append]
    rcases List.mem_cons.mp h with rfl | hmem
    · have hothers : (present fields).filter (·.1 = key) = [] := by
        simp only [present, List.filter_eq_nil_iff, List.mem_filterMap, decide_eq_true_eq]
        rintro _ ⟨other, hother, heq⟩ rfl
        obtain ⟨_, -, rfl⟩ := Option.map_eq_some_iff.mp heq
        exact hfresh (List.mem_map.mpr ⟨other, hother, rfl⟩)
      rw [hothers, List.append_nil]
      cases value <;> simp
    · have hne : field.1 ≠ key := by
        rintro rfl
        exact hfresh (List.mem_map.mpr ⟨_, hmem, rfl⟩)
      rw [ih hrest hmem]
      cases hfield : field.2 <;> simp [hne]

/-- What is read under a key of a written definition. -/
theorem field?_tokenMembers {T : Type} {d : Definition} {key : String} {value : Option Member}
    (h : (key, value) ∈ d.fields) (default : Option T) (read? : List Token → Option T) :
    field? d.tokenMembers key default read? =
      (value.map fun member => read? member.tokens).getD default := by
  have hkeys : (d.fields.map Prod.fst).Nodup := by
    change keys.Nodup
    decide
  have hfilter : d.tokenMembers.filter (·.1 = key) =
      (value.map fun member => (key, member.tokens)).toList := by
    rw [tokenMembers, List.filter_map]
    change List.map _ ((present d.fields).filter (·.1 = key)) = _
    rw [filter_present hkeys h]
    cases value <;> rfl
  rw [field?, hfilter]
  cases value <;> rfl

/-- A component is found under its key, or taken for absent where the key is left out. -/
theorem field?_component {d : Definition} {key : String} {component : Option String}
    (h : (key, component.map .string) ∈ d.fields) :
    field? d.tokenMembers key (some none) optionalString? = some component := by
  rw [field?_tokenMembers h]
  cases component <;> rfl

theorem ofMembers?_tokenMembers (d : Definition) : ofMembers? d.tokenMembers = some d := by
  have hname : field? d.tokenMembers "name" none string? = some d.name :=
    field?_tokenMembers (show ("name", some (.string d.name)) ∈ d.fields by simp [fields]) ..
  have hdescription : field? d.tokenMembers "description" (some "") string? =
      some d.description := by
    rw [field?_tokenMembers (show ("description", if d.description = "" then none
      else some (.string d.description)) ∈ d.fields by simp [fields])]
    by_cases h : d.description = "" <;> simp [h, Member.tokens, string?]
  have henabled : field? d.tokenMembers "enabled" (some true) bool? = some d.enabled := by
    rw [field?_tokenMembers (show ("enabled", some (.bool d.enabled)) ∈ d.fields by simp [fields])]
    cases d.enabled <;> rfl
  have hrules : field? d.tokenMembers "rules" (some []) strings? = some d.rules := by
    rw [field?_tokenMembers (show ("rules", some (.strings d.rules)) ∈ d.fields by simp [fields])]
    exact strings?_written d.rules
  have hconjunction := field?_component
    (show ("conjunction", d.conjunction.map .string) ∈ d.fields by simp [fields])
  have hdisjunction := field?_component
    (show ("disjunction", d.disjunction.map .string) ∈ d.fields by simp [fields])
  have himplication := field?_component
    (show ("implication", d.implication.map .string) ∈ d.fields by simp [fields])
  have hactivation := field?_component
    (show ("activation", d.activation.map .string) ∈ d.fields by simp [fields])
  simp [ofMembers?, hname, hdescription, henabled, hconjunction, hdisjunction, himplication,
    hactivation, hrules]

/-- The text of a definition is an object of its members. -/
theorem exists_tokens?_toJson (d : Definition) :
    ∃ tokens, tokens? d.toJson.toList = some tokens ∧ members? tokens = some d.tokenMembers := by
  have hvalues : ∀ member ∈ d.tokenMembers, IsValue member.2 := by
    intro member hmember
    obtain ⟨m, -, rfl⟩ := List.mem_map.mp hmember
    exact m.2.isValue
  exact ⟨_, d.tokens?_toJson, members?_written hvalues⟩

/-- Every definition is read from the text it is written as. -/
theorem ofJson?_toJson (d : Definition) : ofJson? d.toJson = some d := by
  obtain ⟨tokens, htokens, hmembers⟩ := d.exists_tokens?_toJson
  have hdefinition := ofMembers?_tokenMembers d
  simp [ofJson?, htokens, hmembers, hdefinition]

end FuzzyInference.Definition
