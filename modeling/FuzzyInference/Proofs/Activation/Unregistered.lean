import FuzzyInference.Proofs.Activation.Printing

/-!
Names that a registry does not hold. A name alone is looked up, and so is the name of a strategy
that takes no parameters, before its parameters are refused. A strategy that takes parameters is
made from them without a look-up; so a registry that has lost such a name still gives the strategy
if parameters follow the name, and refuses it if none do.
-/
namespace FuzzyInference.Activation

variable {α : Type}

/-- The first word of a text of a strategy, empty if the text has no word. -/
def key (text : String) : String := (Text.words text).headD ""

/-- The words that follow the first word. -/
def arguments (text : String) : List String := (Text.words text).tail

variable [Scalar α] [NumberText α]

/-! ### Strategies with parameters -/

theorem mem_of_parameterLimit? {name : String} (h : parameterLimit? name ≠ none) :
    name ∈ ["First", "Last", "Threshold", "Highest", "Lowest"] := by
  unfold parameterLimit? at h
  split at h
  case h_6 => exact absurd rfl h
  all_goals simp

/-- A strategy with parameters does not depend on the registry. -/
theorem withParameters_eq {name : String} (h : parameterLimit? name ≠ none)
    (r r' : Registry (Activation α)) (words : List String) :
    withParameters r name words = withParameters r' name words := by
  have hname := mem_of_parameterLimit? h
  simp only [List.mem_cons, List.not_mem_nil, or_false] at hname
  obtain rfl | rfl | rfl | rfl | rfl := hname <;> rfl

/-- A name without parameters is looked up, whatever follows it. -/
theorem withParameters_of_not_contains {r : Registry (Activation α)} {name : String}
    (hlimit : parameterLimit? name = none) (h : r.contains name = false) (words : List String) :
    withParameters r name words = .error (.notRegistered r.name name) := by
  unfold withParameters
  dsimp only
  split
  case h_6 => rw [Registry.find_of_not_contains h]; rfl
  all_goals cases hlimit

theorem isSetting_of_parameter {β : Type} {name : String} {read? : String → Option β} {default : β}
    {word : Option String} {cause : Error}
    (h : parameter name read? default word = .error cause) :
    ∃ setting, cause = .invalidSetting setting := by
  cases word with
  | none => cases h
  | some word =>
    rw [parameter] at h
    split at h
    · cases h
    · exact ⟨_, (Except.error.inj h).symm⟩

/-- A strategy that takes parameters is refused for a parameter only. -/
theorem isSetting_of_withParameters {r : Registry (Activation α)} {name : String}
    {words : List String} {cause : Error} (hlimit : parameterLimit? name ≠ none)
    (h : withParameters r name words = .error cause) :
    ∃ setting, cause = .invalidSetting setting := by
  unfold withParameters at h
  dsimp only at h
  split at h
  case h_1 | h_2 | h_5 =>
    -- First, Last and Threshold have two parameters.
    obtain h | ⟨first, h⟩ := cause_of_bind_eq_error h
    · exact isSetting_of_parameter h
    obtain h | ⟨second, h⟩ := cause_of_bind_eq_error h
    · exact isSetting_of_parameter h
    · cases h
  case h_3 | h_4 =>
    -- Highest and Lowest have one parameter.
    obtain h | ⟨count, h⟩ := cause_of_bind_eq_error h
    · exact isSetting_of_parameter h
    · cases h
  case h_6 hfirst hlast hhighest hlowest hthreshold =>
    exact absurd (parameterLimit?.eq_6 _ hfirst hlast hthreshold hhighest hlowest) hlimit

/-! ### Texts -/

variable {r : Registry (Activation α)} {text : String}

theorem parse_of_no_arguments (h : arguments text = []) : parse r text = r.find (key text) := by
  unfold arguments at h
  unfold parse key
  match Text.words text, h with
  | [], _ => rfl
  | [name], _ => rfl

theorem parse_of_arguments (h : arguments text ≠ []) :
    parse r text = do
      let activation ← withParameters r (key text) (arguments text)
      if (parameterLimit? (key text)).any (· < (arguments text).length) then
        throw (.invalidSetting (.tooManyParameters (key text) (Text.unwords (arguments text))))
      return activation := by
  unfold arguments at h ⊢
  unfold parse key
  match Text.words text, h with
  | name :: word :: words, _ => rfl

/-- A text with parameters that its strategy takes is read alike with all registries. -/
theorem parse_eq_of_parameterLimit? (harguments : arguments text ≠ [])
    (hlimit : parameterLimit? (key text) ≠ none) (r' : Registry (Activation α)) :
    parse r text = parse r' text := by
  rw [parse_of_arguments harguments, parse_of_arguments harguments, withParameters_eq hlimit r r']

theorem isSetting_of_parse (harguments : arguments text ≠ [])
    (hlimit : parameterLimit? (key text) ≠ none) {cause : Error}
    (h : parse r text = .error cause) : ∃ setting, cause = .invalidSetting setting := by
  rw [parse_of_arguments harguments] at h
  obtain h | ⟨activation, h⟩ := cause_of_bind_eq_error h
  · exact isSetting_of_withParameters hlimit h
  · split at h
    · exact ⟨_, (Except.error.inj h).symm⟩
    · cases h

/-- A name that the registry does not hold is refused where it is looked up. -/
theorem parse_of_not_contains (h : r.contains (key text) = false)
    (hlookup : arguments text = [] ∨ parameterLimit? (key text) = none) :
    parse r text = .error (.notRegistered r.name (key text)) := by
  by_cases hnone : arguments text = []
  · rw [parse_of_no_arguments hnone]
    exact Registry.find_of_not_contains h
  · have hlimit := hlookup.resolve_left hnone
    rw [parse_of_arguments hnone, withParameters_of_not_contains hlimit h]
    rfl

/-- With a name that the registry does not hold, the error names the registry and the name exactly
if no parameters follow the name or its strategy takes none. Otherwise the text is read as with the
built-in registry, which asks for the parameters only. -/
theorem parse_unregistered (h : r.contains (key text) = false) :
    (parse r text = .error (.notRegistered r.name (key text)) ↔
        arguments text = [] ∨ parameterLimit? (key text) = none) ∧
      (arguments text ≠ [] → parameterLimit? (key text) ≠ none →
        parse r text = parse registry text) := by
  refine ⟨⟨fun hrefused => ?_, parse_of_not_contains h⟩, fun harguments hlimit =>
    parse_eq_of_parameterLimit? harguments hlimit registry⟩
  by_contra hread
  rw [not_or] at hread
  obtain ⟨setting, hsetting⟩ := isSetting_of_parse hread.1 hread.2 hrefused
  cases hsetting

/-- In a registry without the name "First" the name is refused, but not with a parameter. -/
theorem parse_unregistered_first :
    let remaining : Registry (Activation Float) := registry.deregister "First"
    parse remaining "First" = .error (.notRegistered "ActivationFactory" "First") ∧
      parse remaining "First 2" = parse registry "First 2" := by
  intro remaining
  have hname : remaining.contains (key "First") = false := by decide +kernel
  have htext : remaining.contains (key "First 2") = false := by decide +kernel
  constructor
  · exact (parse_unregistered hname).1.mpr (.inl (by decide +kernel))
  · exact (parse_unregistered htext).2 (by decide +kernel) (by decide +kernel)

/-- The name "First" is not refused with a parameter, although it is not registered. -/
theorem not_refused_of_deregister :
    let remaining : Registry (Activation Float) := registry.deregister "First"
    ¬ (remaining.contains (key "First 2") = false →
      parse remaining "First 2" = .error (.notRegistered remaining.name (key "First 2"))) := by
  intro remaining h
  have hrefused := h (by decide +kernel)
  have hread : (parse remaining "First 2").map Activation.text = .ok "First 2 0" := by
    decide +kernel
  rw [hrefused] at hread
  cases hread

end FuzzyInference.Activation
