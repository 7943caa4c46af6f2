import FuzzyInference.Proofs.Definition.Export
import FuzzyInference.Proofs.Loading.Causes

/-!
What building a definition reports. The components are looked up one after another, and the first
one that is refused is the error. The rules are all read, and those that cannot be read are the
error, in their order and with their positions. So an error names nothing that is right, and leaves
out nothing that is wrong but what comes after a component. Each rule that is reported has a message.
-/
namespace FuzzyInference.Definition

variable {α : Type}

/-! ### Components -/

theorem component_eq_ok_of_contains {T : Type} {r : Registry T} {key : Option String}
    (h : ∀ k ∈ key, r.contains k = true) : ∃ c, component r.find key = .ok c :=
  component_eq_ok_iff.mpr fun k hk => Registry.exists_find_of_contains (h k hk)

theorem component_of_error {T : Type} {find : String → Except Error T} {key : String}
    {cause : Error} (h : find key = .error cause) :
    component find (some key) = .error (.component cause) := by
  rw [component, h]
  rfl

variable [Scalar α] [NumberText α]

/-- Every component that the definition names is found. -/
structure Found (components : Components α) (d : Definition) : Prop where
  conjunction : ∀ key ∈ d.conjunction, components.tnorms.contains key = true
  disjunction : ∀ key ∈ d.disjunction, components.snorms.contains key = true
  implication : ∀ key ∈ d.implication, components.tnorms.contains key = true
  activation : ∀ text ∈ d.activation, ∃ a, Activation.parse components.activations text = .ok a

/-- The error is that of the first component that is refused. -/
inductive Refused (components : Components α) (d : Definition) : Error → Prop
  | conjunction {key : String} (hkey : d.conjunction = some key)
      (hrefused : components.tnorms.contains key = false) :
      Refused components d (.notRegistered components.tnorms.name key)
  | disjunction {key : String}
      (hconjunction : ∀ key ∈ d.conjunction, components.tnorms.contains key = true)
      (hkey : d.disjunction = some key) (hrefused : components.snorms.contains key = false) :
      Refused components d (.notRegistered components.snorms.name key)
  | implication {key : String}
      (hconjunction : ∀ key ∈ d.conjunction, components.tnorms.contains key = true)
      (hdisjunction : ∀ key ∈ d.disjunction, components.snorms.contains key = true)
      (hkey : d.implication = some key) (hrefused : components.tnorms.contains key = false) :
      Refused components d (.notRegistered components.tnorms.name key)
  | activation {text : String} {cause : Error}
      (hconjunction : ∀ key ∈ d.conjunction, components.tnorms.contains key = true)
      (hdisjunction : ∀ key ∈ d.disjunction, components.snorms.contains key = true)
      (himplication : ∀ key ∈ d.implication, components.tnorms.contains key = true)
      (htext : d.activation = some text)
      (hrefused : Activation.parse components.activations text = .error cause) :
      Refused components d cause

variable {components : Components α} {d : Definition}

omit [Scalar α] [NumberText α] in
theorem forall_or_exists_refused {T : Type} (r : Registry T) (key : Option String) :
    (∀ k ∈ key, r.contains k = true) ∨ ∃ k, key = some k ∧ r.contains k = false := by
  cases key with
  | none => exact .inl fun k hk => by cases hk
  | some k =>
    cases hk : r.contains k with
    | true => exact .inl fun k' hk' => by rw [← Option.some.inj hk', hk]
    | false => exact .inr ⟨k, rfl, hk⟩

theorem found_or_refused (components : Components α) (d : Definition) :
    d.Found components ∨ ∃ cause, d.Refused components cause := by
  obtain hconjunction | ⟨key, hkey, h⟩ := forall_or_exists_refused components.tnorms d.conjunction
  swap
  · exact .inr ⟨_, .conjunction hkey h⟩
  obtain hdisjunction | ⟨key, hkey, h⟩ := forall_or_exists_refused components.snorms d.disjunction
  swap
  · exact .inr ⟨_, .disjunction hconjunction hkey h⟩
  obtain himplication | ⟨key, hkey, h⟩ := forall_or_exists_refused components.tnorms d.implication
  swap
  · exact .inr ⟨_, .implication hconjunction hdisjunction hkey h⟩
  cases htext : d.activation with
  | none => exact .inl ⟨hconjunction, hdisjunction, himplication, by simp [htext]⟩
  | some text =>
    cases hparse : Activation.parse components.activations text with
    | ok a =>
      refine .inl ⟨hconjunction, hdisjunction, himplication, fun other hother => ?_⟩
      obtain rfl : text = other := Option.some.inj (htext.symm.trans hother)
      exact ⟨a, hparse⟩
    | error cause =>
      exact .inr ⟨cause, .activation hconjunction hdisjunction himplication htext hparse⟩

theorem Refused.build {cause : Error} (h : d.Refused components cause) :
    d.build components = .error (.component cause) := by
  cases h with
  | conjunction hkey hrefused =>
    rw [Definition.build, hkey, component_of_error (Registry.find_of_not_contains hrefused)]
    rfl
  | disjunction hconjunction hkey hrefused =>
    obtain ⟨c, hc⟩ := component_eq_ok_of_contains hconjunction
    rw [Definition.build, hc, hkey, component_of_error (Registry.find_of_not_contains hrefused)]
    rfl
  | implication hconjunction hdisjunction hkey hrefused =>
    obtain ⟨c, hc⟩ := component_eq_ok_of_contains hconjunction
    obtain ⟨s, hs⟩ := component_eq_ok_of_contains hdisjunction
    rw [Definition.build, hc, hs, hkey, component_of_error (Registry.find_of_not_contains hrefused)]
    rfl
  | activation hconjunction hdisjunction himplication htext hrefused =>
    obtain ⟨c, hc⟩ := component_eq_ok_of_contains hconjunction
    obtain ⟨s, hs⟩ := component_eq_ok_of_contains hdisjunction
    obtain ⟨i, hi⟩ := component_eq_ok_of_contains himplication
    rw [Definition.build, hc, hs, hi, htext, component_of_error hrefused]
    rfl

/-! ### Rules -/

/-- The rule texts that are no rules, from the first one on, if the positions start at `index`. -/
def failuresOf (α : Type) [Scalar α] [NumberText α] (index : Nat) (texts : List String) :
    List RuleFailure :=
  (texts.zipIdx index).filterMap fun p =>
    match Rule.parse (α := α) p.1 with
    | .ok _ => none
    | .error cause => some ⟨p.2, p.1, cause⟩

/-- The failures are those of the texts that are no rules, each with its position and its cause, in
the order of their positions. -/
structure Reports (α : Type) [Scalar α] [NumberText α] (texts : List String)
    (failures : List RuleFailure) : Prop where
  ascending : failures.Pairwise fun f f' => f.index < f'.index
  mem_iff : ∀ f, f ∈ failures ↔
    texts[f.index]? = some f.rule ∧ Rule.parse (α := α) f.rule = .error f.cause

theorem mem_failuresOf {texts : List String} {f : RuleFailure} :
    f ∈ failuresOf α 0 texts ↔
      texts[f.index]? = some f.rule ∧ Rule.parse (α := α) f.rule = .error f.cause := by
  simp only [failuresOf, List.mem_filterMap, List.mem_zipIdx_iff_getElem?]
  constructor
  · rintro ⟨⟨text, index⟩, hindex, hfailure⟩
    split at hfailure <;> cases hfailure
    next cause hparse => exact ⟨hindex, hparse⟩
  · rintro ⟨hindex, hparse⟩
    exact ⟨(f.rule, f.index), hindex, by rw [hparse]⟩

theorem reports_failuresOf (texts : List String) : Reports α texts (failuresOf α 0 texts) := by
  refine ⟨?_, fun f => mem_failuresOf⟩
  have hindices : texts.zipIdx.Pairwise fun p q => p.2 < q.2 := by
    rw [← List.pairwise_map (f := Prod.snd) (R := (· < ·)), List.zipIdx_map_snd]
    exact List.pairwise_lt_range' ..
  refine hindices.filterMap _ fun p q hpq f hf f' hf' => ?_
  split at hf <;> cases hf
  split at hf' <;> cases hf'
  exact hpq

theorem failuresOf_eq_nil_iff {texts : List String} :
    failuresOf α 0 texts = [] ↔ ∀ text ∈ texts, ∃ r : Rule α, Rule.parse text = .ok r := by
  rw [List.eq_nil_iff_forall_not_mem]
  simp only [mem_failuresOf, not_and]
  constructor
  · intro h text htext
    obtain ⟨index, hindex⟩ := List.mem_iff_getElem?.mp htext
    cases hparse : Rule.parse (α := α) text with
    | ok r => exact ⟨r, rfl⟩
    | error cause => exact absurd hparse (h ⟨index, text, cause⟩ hindex)
  · intro h f hindex herror
    obtain ⟨r, hparse⟩ := h f.rule (List.mem_of_getElem? hindex)
    cases herror.symm.trans hparse

/-- There is one report only. -/
theorem Reports.eq {texts : List String} {failures failures' : List RuleFailure}
    (h : Reports α texts failures) (h' : Reports α texts failures') : failures = failures' := by
  have hnodup : ∀ {failures}, Reports α texts failures → failures.Nodup := fun h =>
    h.ascending.imp fun hlt heq => Nat.ne_of_lt hlt (congrArg RuleFailure.index heq)
  have hperm : failures.Perm failures' := by
    rw [List.perm_ext_iff_of_nodup (hnodup h) (hnodup h')]
    exact fun f => (h.mem_iff f).trans (h'.mem_iff f).symm
  exact hperm.eq_of_pairwise (fun f f' _ _ hlt hlt' => absurd hlt (Nat.lt_asymm hlt'))
    h.ascending h'.ascending

theorem Reports.shown {texts : List String} {failures : List RuleFailure}
    (h : Reports α texts failures) (name : String) :
    failures.Forall₂ RuleFailure.ShownBy (BlockError.rules name failures).messages :=
  RuleFailure.shownBy_messages name fun f hf => Rule.isOfText_of_parse ((h.mem_iff f).mp hf).2

/-- Reading rule texts gives the rules, or the report of those that are none. -/
theorem rulesFrom_cases (index : Nat) (texts : List String) :
    (∃ rules : List (Rule α), rulesFrom index texts = .ok rules ∧ failuresOf α index texts = []) ∨
      (rulesFrom (α := α) index texts = .error (failuresOf α index texts) ∧
        failuresOf α index texts ≠ []) := by
  induction texts generalizing index with
  | nil => exact .inl ⟨[], rfl, rfl⟩
  | cons text texts ih =>
    have hfailures : failuresOf α index (text :: texts) =
        match Rule.parse (α := α) text with
        | .ok _ => failuresOf α (index + 1) texts
        | .error cause => ⟨index, text, cause⟩ :: failuresOf α (index + 1) texts := by
      rw [failuresOf, List.zipIdx_cons, List.filterMap_cons]
      cases Rule.parse (α := α) text <;> rfl
    rw [hfailures, rulesFrom]
    cases Rule.parse (α := α) text with
    | ok rule =>
      obtain ⟨rules, hrules, hnone⟩ | ⟨hrules, hsome⟩ := ih (index + 1)
      · exact .inl ⟨rule :: rules, by rw [hrules], hnone⟩
      · exact .inr ⟨by rw [hrules], hsome⟩
    | error cause =>
      obtain ⟨rules, hrules, hnone⟩ | ⟨hrules, hsome⟩ := ih (index + 1)
      · exact .inr ⟨by rw [hrules, hnone], List.cons_ne_nil _ _⟩
      · exact .inr ⟨by rw [hrules], List.cons_ne_nil _ _⟩

/-! ### Blocks -/

/-- The block has what the definition says, and for each text the rule that it is read as. No rule
is loaded. -/
structure BuiltTo (components : Components α) (d : Definition) (b : Block α) : Prop where
  name : b.name = d.name
  description : b.description = d.description
  enabled : b.enabled = d.enabled
  conjunction : component components.tnorms.find d.conjunction = .ok b.combinators.conjunction
  disjunction : component components.snorms.find d.disjunction = .ok b.combinators.disjunction
  implication : component components.tnorms.find d.implication = .ok b.combinators.implication
  activation :
    component (Activation.parse components.activations) d.activation = .ok b.activation
  rules : d.rules.Forall₂ (fun text r => Rule.parse text = .ok r) b.rules
  unloaded : ∀ r ∈ b.rules, r.antecedent.isLoaded = false ∧ r.consequent.isLoaded = false

theorem build_eq_ok_iff_builtTo {b : Block α} :
    d.build components = .ok b ↔ d.BuiltTo components b := by
  rw [build_eq_ok_iff]
  constructor
  · rintro ⟨hconjunction, hdisjunction, himplication, hactivation, hrules, hname, hdescription,
      henabled⟩
    refine ⟨hname, hdescription, henabled, hconjunction, hdisjunction, himplication, hactivation,
      rulesFrom_eq_ok_iff.mp hrules, fun r hr => ?_⟩
    obtain ⟨text, hparse⟩ := exists_parse_of_rulesFrom hrules r hr
    rw [(Rule.wellFormed_of_parse hparse).1]
    exact ⟨rfl, rfl⟩
  · intro h
    exact ⟨h.conjunction, h.disjunction, h.implication, h.activation,
      rulesFrom_eq_ok_iff.mpr h.rules, h.name, h.description, h.enabled⟩

/-- Where every component is found, only the rules decide. -/
theorem Found.build_cases (h : d.Found components) :
    (∃ b, d.build components = .ok b ∧ failuresOf α 0 d.rules = []) ∨
      (d.build components = .error (.rules d.name (failuresOf α 0 d.rules)) ∧
        failuresOf α 0 d.rules ≠ []) := by
  obtain ⟨conjunction, hconjunction⟩ := component_eq_ok_of_contains h.conjunction
  obtain ⟨disjunction, hdisjunction⟩ := component_eq_ok_of_contains h.disjunction
  obtain ⟨implication, himplication⟩ := component_eq_ok_of_contains h.implication
  obtain ⟨activation, hactivation⟩ := component_eq_ok_iff.mpr h.activation
  rw [Definition.build, hconjunction, hdisjunction, himplication, hactivation]
  obtain ⟨rules, hrules, hnone⟩ | ⟨hrules, hsome⟩ := rulesFrom_cases (α := α) 0 d.rules
  · exact .inl ⟨_, by rw [hrules]; rfl, hnone⟩
  · exact .inr ⟨by rw [hrules]; rfl, hsome⟩

theorem build_cases (components : Components α) (d : Definition) :
    (d.Found components ∧ failuresOf α 0 d.rules = [] ∧ ∃ b, d.build components = .ok b) ∨
      (∃ cause, d.Refused components cause ∧ d.build components = .error (.component cause)) ∨
      (d.Found components ∧ failuresOf α 0 d.rules ≠ [] ∧
        d.build components = .error (.rules d.name (failuresOf α 0 d.rules))) := by
  obtain hfound | ⟨cause, hrefused⟩ := found_or_refused components d
  · obtain ⟨b, hbuild, hnone⟩ | ⟨hbuild, hsome⟩ := hfound.build_cases
    · exact .inl ⟨hfound, hnone, b, hbuild⟩
    · exact .inr (.inr ⟨hfound, hsome, hbuild⟩)
  · exact .inr (.inl ⟨cause, hrefused, hrefused.build⟩)

/-- A block is built exactly if every component is found and every rule text can be read. -/
theorem exists_build_iff : (∃ b, d.build components = .ok b) ↔
    d.Found components ∧ ∀ text ∈ d.rules, ∃ r : Rule α, Rule.parse text = .ok r := by
  rw [← failuresOf_eq_nil_iff]
  constructor
  · rintro ⟨b, hb⟩
    obtain ⟨hfound, hnone, -⟩ | ⟨cause, -, hbuild⟩ | ⟨-, -, hbuild⟩ := build_cases components d
    · exact ⟨hfound, hnone⟩
    · cases hb.symm.trans hbuild
    · cases hb.symm.trans hbuild
  · rintro ⟨hfound, hnone⟩
    obtain ⟨b, hbuild, -⟩ | ⟨-, hsome⟩ := hfound.build_cases
    · exact ⟨b, hbuild⟩
    · exact absurd hnone hsome

/-- The error is that of a component exactly if it is the first one that is refused. -/
theorem build_eq_component_iff {cause : Error} :
    d.build components = .error (.component cause) ↔ d.Refused components cause := by
  refine ⟨fun h => ?_, Refused.build⟩
  obtain ⟨-, -, b, hb⟩ | ⟨other, hrefused, hbuild⟩ | ⟨-, -, hbuild⟩ := build_cases components d
  · cases h.symm.trans hb
  · cases h.symm.trans hbuild
    exact hrefused
  · cases h.symm.trans hbuild

/-- The error is that of rules exactly if every component is found and it reports the rule texts
that cannot be read. -/
theorem build_eq_rules_iff {name : String} {failures : List RuleFailure} :
    d.build components = .error (.rules name failures) ↔
      d.Found components ∧ failures ≠ [] ∧ Reports α d.rules failures ∧ name = d.name := by
  constructor
  · intro h
    obtain ⟨-, -, b, hb⟩ | ⟨cause, -, hbuild⟩ | ⟨hfound, hsome, hbuild⟩ := build_cases components d
    · cases h.symm.trans hb
    · cases h.symm.trans hbuild
    · cases h.symm.trans hbuild
      exact ⟨hfound, hsome, reports_failuresOf d.rules, rfl⟩
  · rintro ⟨hfound, hne, hreports, rfl⟩
    rw [hreports.eq (reports_failuresOf d.rules)] at hne ⊢
    obtain ⟨b, -, hnone⟩ | ⟨hbuild, -⟩ := hfound.build_cases
    · exact absurd hnone hne
    · exact hbuild

/-- Building a definition succeeds exactly if every component is found and every rule text can be
read, and the block then has what the definition says. The error is that of the first component that
is refused; if none is, it is the report of all rule texts that cannot be read, and its messages
show these one by one. -/
theorem build_reports (components : Components α) (d : Definition) :
    ((∃ b, d.build components = .ok b) ↔
      d.Found components ∧ ∀ text ∈ d.rules, ∃ r : Rule α, Rule.parse text = .ok r) ∧
    (∀ b, d.build components = .ok b ↔ d.BuiltTo components b) ∧
    (∀ cause, d.build components = .error (.component cause) ↔ d.Refused components cause) ∧
    (∀ name failures, d.build components = .error (.rules name failures) ↔
      d.Found components ∧ failures ≠ [] ∧ Reports α d.rules failures ∧ name = d.name) ∧
    ∀ name failures, d.build components = .error (.rules name failures) →
      failures.Forall₂ RuleFailure.ShownBy (BlockError.rules name failures).messages := by
  refine ⟨exists_build_iff, fun b => ?_, fun cause => ?_, fun name failures => ?_,
    fun name failures h => ?_⟩
  · exact build_eq_ok_iff_builtTo
  · exact build_eq_component_iff
  · exact build_eq_rules_iff
  · exact (build_eq_rules_iff.mp h).2.2.1.shown name

/-- Rules are read only if there is a component for every key, and then all of them. -/
example :
    let texts := ["heat is high then fan is fast", "if heat is high then fan is fast",
      "if heat is high then fan is fast with"]
    let built (d : Definition) := (d.build .builtin).map fun b : Block Float => b.rules.length
    built { name := "broken", disjunction := some "Minimum", rules := texts } =
        .error (.component (.notRegistered "SNormFactory" "Minimum")) ∧
      built { name := "broken", conjunction := some "Minimum", rules := texts } =
        .error (.rules "broken"
          [⟨0, "heat is high then fan is fast", .ruleText (.missingKeyword .ifWord)⟩,
            ⟨2, "if heat is high then fan is fast with", .ruleText .missingWeight⟩]) := by
  decide +kernel

end FuzzyInference.Definition
