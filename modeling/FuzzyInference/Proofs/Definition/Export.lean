import FuzzyInference.Definition
import FuzzyInference.Proofs.Activation.Printing
import FuzzyInference.Proofs.Rule.Lifecycle

/-!
Exporting a block and building it again. Components are found by their own names, strategies and
rules are read from their own texts; so the definition of a block is built to that block, but for
the flags of its rules, which no definition has: all rules that are built are enabled.
-/
namespace FuzzyInference

/-! ### Parts -/

namespace Definition

variable {T : Type} {find : String → Except Error T}

theorem component_map {name : T → String} {c : Option T} (h : ∀ x ∈ c, find (name x) = .ok x) :
    component find (c.map name) = .ok c := by
  cases c with
  | none => rfl
  | some x =>
    rw [Option.map_some, component, h x rfl]
    rfl

/-- What is built for a key is found under it, and nothing is built for no key. -/
theorem component_cases {key : Option String} {c : Option T} (h : component find key = .ok c) :
    (key = none ∧ c = none) ∨ ∃ k x, key = some k ∧ c = some x ∧ find k = .ok x := by
  cases key with
  | none => exact Or.inl ⟨rfl, (Except.ok.inj h).symm⟩
  | some k =>
    rw [component] at h
    cases hfind : find k with
    | error cause =>
      rw [hfind] at h
      cases h
    | ok x =>
      rw [hfind] at h
      exact Or.inr ⟨k, x, rfl, (Except.ok.inj h).symm, hfind⟩

theorem component_eq_ok_iff {key : Option String} :
    (∃ c, component find key = .ok c) ↔ ∀ k ∈ key, ∃ x, find k = .ok x := by
  cases key with
  | none => simp [component]
  | some k => cases hfind : find k <;> simp [component, hfind, Except.map, Except.mapError]

/-- Where components are found by their names, the name of what was built for a key is that key. -/
theorem component_names (name : T → String) (hname : ∀ {k x}, find k = .ok x → name x = k)
    {key : Option String} {c : Option T} (h : component find key = .ok c) :
    c.map name = key ∧ ∀ x ∈ c, find (name x) = .ok x := by
  obtain ⟨rfl, rfl⟩ | ⟨k, x, rfl, rfl, hfind⟩ := component_cases h
  · exact ⟨rfl, fun x hx => by cases hx⟩
  · refine ⟨congrArg some (hname hfind), fun y hy => ?_⟩
    obtain rfl := Option.some.inj hy
    rw [hname hfind]
    exact hfind

variable {α : Type}

theorem component_tnorm [Scalar α] {key : Option String} {c : Option (TNorm α)}
    (h : component TNorm.registry.find key = .ok c) :
    c.map TNorm.name = key ∧ ∀ norm ∈ c, TNorm.registry.find norm.name = .ok norm :=
  component_names TNorm.name (fun h => (Registry.name_of_find TNorm.name h).2) h

theorem component_snorm [Scalar α] {key : Option String} {c : Option (SNorm α)}
    (h : component SNorm.registry.find key = .ok c) :
    c.map SNorm.name = key ∧ ∀ norm ∈ c, SNorm.registry.find norm.name = .ok norm :=
  component_names SNorm.name (fun h => (Registry.name_of_find SNorm.name h).2) h

variable [Scalar α] [NumberText α]

theorem component_activation (hback : ∀ x : α, Text.ReadsBack x) {text : Option String}
    {c : Option (Activation α)}
    (h : component (Activation.parse Activation.registry) text = .ok c) :
    ∀ a ∈ c, Activation.parse Activation.registry a.text = .ok a := by
  intro a ha
  obtain ⟨-, rfl⟩ | ⟨k, x, -, rfl, hparse⟩ := component_cases h
  · cases ha
  · obtain rfl := Option.some.inj ha
    exact Activation.parse_text_of_parse hback hparse

theorem rulesFrom_map {f : Rule α → Rule α} {rules : List (Rule α)}
    (h : ∀ r ∈ rules, Rule.parse r.text = .ok (f r)) (index : Nat) :
    rulesFrom index (rules.map Rule.text) = .ok (rules.map f) := by
  induction rules generalizing index with
  | nil => rfl
  | cons r rules ih =>
    obtain ⟨hr, hrules⟩ := List.forall_mem_cons.mp h
    rw [List.map_cons, rulesFrom, hr, ih hrules]
    rfl

theorem rulesFrom_cons_eq_ok_iff {index : Nat} {text : String} {texts : List String}
    {rules : List (Rule α)} :
    rulesFrom index (text :: texts) = .ok rules ↔
      ∃ r rest, Rule.parse text = .ok r ∧ rulesFrom (index + 1) texts = .ok rest ∧
        rules = r :: rest := by
  rw [rulesFrom]
  cases Rule.parse (α := α) text with
  | error cause => cases rulesFrom (α := α) (index + 1) texts <;> simp
  | ok r => cases rulesFrom (α := α) (index + 1) texts <;> simp [eq_comm]

theorem rulesFrom_eq_ok_iff {index : Nat} {texts : List String} {rules : List (Rule α)} :
    rulesFrom index texts = .ok rules ↔
      texts.Forall₂ (fun text r => Rule.parse text = .ok r) rules := by
  induction texts generalizing index rules with
  | nil => simp [rulesFrom, eq_comm]
  | cons text texts ih =>
    rw [rulesFrom_cons_eq_ok_iff, List.forall₂_cons_left_iff]
    simp only [ih]

/-- Every rule that is built was read from a text. -/
theorem exists_parse_of_rulesFrom {texts : List String} {index : Nat} {rules : List (Rule α)}
    (h : rulesFrom index texts = .ok rules) : ∀ r ∈ rules, ∃ text, Rule.parse text = .ok r := by
  have hread := rulesFrom_eq_ok_iff.mp h
  clear h
  induction hread with
  | nil => exact List.forall_mem_nil _
  | cons hparse _ ih => exact List.forall_mem_cons.mpr ⟨⟨_, hparse⟩, ih⟩

theorem build_eq_ok_iff {components : Components α} {d : Definition} {b : Block α} :
    d.build components = .ok b ↔
      component components.tnorms.find d.conjunction = .ok b.combinators.conjunction ∧
      component components.snorms.find d.disjunction = .ok b.combinators.disjunction ∧
      component components.tnorms.find d.implication = .ok b.combinators.implication ∧
      component (Activation.parse components.activations) d.activation = .ok b.activation ∧
      rulesFrom 0 d.rules = .ok b.rules ∧
      b.name = d.name ∧ b.description = d.description ∧ b.enabled = d.enabled := by
  constructor
  · intro h
    obtain ⟨conjunction, hconjunction, h⟩ := exists_of_bind_eq_ok h
    obtain ⟨disjunction, hdisjunction, h⟩ := exists_of_bind_eq_ok h
    obtain ⟨implication, himplication, h⟩ := exists_of_bind_eq_ok h
    obtain ⟨activation, hactivation, h⟩ := exists_of_bind_eq_ok h
    obtain ⟨rules, hrules, h⟩ := exists_of_bind_eq_ok h
    obtain rfl := Except.ok.inj h
    exact ⟨hconjunction, hdisjunction, himplication, hactivation, eq_ok_of_mapError hrules, rfl,
      rfl, rfl⟩
  · rintro ⟨hconjunction, hdisjunction, himplication, hactivation, hrules, hname, hdescription,
      henabled⟩
    simp only [build, hconjunction, hdisjunction, himplication, hactivation, hrules, ← hname,
      ← hdescription, ← henabled]
    rfl

end Definition

/-! ### Blocks -/

def Rule.enable {α : Type} (r : Rule α) : Rule α := { r with enabled := true }

variable {α : Type} [Scalar α] [NumberText α]

/-- A rule with the parts of a text that is read, and a flag that no text has. -/
def Rule.AsRead (r : Rule α) : Prop :=
  ∃ t : RuleText α, ∃ enabled, t.WellFormed ∧ r = { ofText t with enabled }

theorem Rule.asRead_of_parse {text : String} {r : Rule α} (h : parse text = .ok r) :
    r.AsRead ∧ r.enabled = true := by
  obtain ⟨heq, hwellFormed⟩ := wellFormed_of_parse h
  have henabled : r.enabled = true := by
    rw [heq]
    rfl
  exact ⟨⟨r.toText, true, hwellFormed, heq⟩, henabled⟩

namespace Block

/-- The block has built-in components only, and rules as they were read. -/
structure Exportable (b : Block α) : Prop where
  conjunction : ∀ norm ∈ b.combinators.conjunction, TNorm.registry.find norm.name = .ok norm
  disjunction : ∀ norm ∈ b.combinators.disjunction, SNorm.registry.find norm.name = .ok norm
  implication : ∀ norm ∈ b.combinators.implication, TNorm.registry.find norm.name = .ok norm
  activation : ∀ a ∈ b.activation, Activation.parse Activation.registry a.text = .ok a
  rules : ∀ r ∈ b.rules, r.AsRead

/-- The block with all rules enabled. -/
def enableRules (b : Block α) : Block α :=
  { b with rules := b.rules.map Rule.enable }

omit [Scalar α] [NumberText α] in
theorem enableRules_of_enabled {b : Block α} (h : ∀ r ∈ b.rules, r.enabled = true) :
    b.enableRules = b := by
  have hrules : b.rules.map Rule.enable = b.rules := by
    conv_rhs => rw [← List.map_id b.rules]
    apply List.map_congr_left
    intro r hr
    rw [Rule.enable, ← h r hr]
    rfl
  rw [enableRules, hrules]

end Block

namespace Definition

/-- The definition of an exportable block is built to the block with all rules enabled. -/
theorem build_of_exportable (hback : ∀ x : α, Text.ReadsBack x)
    (hone : ∀ {x : α}, Scalar.eq x Scalar.one = true → x = Scalar.one) {b : Block α}
    (h : b.Exportable) : (ofBlock b).build .builtin = .ok b.enableRules := by
  have hconjunction := component_map h.conjunction
  have hdisjunction := component_map h.disjunction
  have himplication := component_map h.implication
  have hactivation := component_map h.activation
  have hparse : ∀ r ∈ b.rules, Rule.parse r.text = .ok r.enable := by
    intro r hr
    obtain ⟨t, enabled, ht, rfl⟩ := h.rules r hr
    exact Rule.parse_of_wellFormed ht (hback _) hone
  have hrules := rulesFrom_map hparse 0
  simp only [build, ofBlock, Components.builtin, hconjunction, hdisjunction, himplication,
    hactivation, hrules]
  rfl

/-- Whatever is built has the parts that its definition names, and can be exported. -/
theorem exportable_of_build (hback : ∀ x : α, Text.ReadsBack x) {d : Definition} {b : Block α}
    (h : d.build .builtin = .ok b) :
    { ofBlock b with activation := d.activation, rules := d.rules } = d ∧
      b.Exportable ∧ b.enableRules = b := by
  obtain ⟨hconjunction, hdisjunction, himplication, hactivation, hrules, hname, hdescription,
    henabled⟩ := build_eq_ok_iff.mp h
  obtain ⟨hconjunction, hconjunctions⟩ := component_tnorm hconjunction
  obtain ⟨hdisjunction, hdisjunctions⟩ := component_snorm hdisjunction
  obtain ⟨himplication, himplications⟩ := component_tnorm himplication
  have hactivations := component_activation hback hactivation
  have hrules : ∀ r ∈ b.rules, r.AsRead ∧ r.enabled = true := by
    intro r hr
    obtain ⟨text, hparse⟩ := exists_parse_of_rulesFrom hrules r hr
    exact Rule.asRead_of_parse hparse
  refine ⟨?_, ⟨hconjunctions, hdisjunctions, himplications, hactivations, fun r hr =>
    (hrules r hr).1⟩, Block.enableRules_of_enabled fun r hr => (hrules r hr).2⟩
  rw [ofBlock, hconjunction, hdisjunction, himplication, hname, hdescription, henabled]

/-- A block that was built is built again from its own definition, which differs from the first one
at most in the texts of the strategy and of the rules. -/
theorem build_ofBlock {d : Definition} {b : Block Float} (h : d.build .builtin = .ok b) :
    (ofBlock b).name = d.name ∧ (ofBlock b).description = d.description ∧
      (ofBlock b).enabled = d.enabled ∧ (ofBlock b).conjunction = d.conjunction ∧
      (ofBlock b).disjunction = d.disjunction ∧ (ofBlock b).implication = d.implication ∧
      (ofBlock b).build .builtin = .ok b := by
  obtain ⟨hd, hexportable, henabled⟩ := exportable_of_build Binary64.readsBack h
  have hbuild := build_of_exportable Binary64.readsBack Binary64.eq_one hexportable
  rw [henabled] at hbuild
  rw [← hd]
  exact ⟨rfl, rfl, rfl, rfl, rfl, rfl, hbuild⟩

/-- A definition with much that is left out or need not be there. -/
def looseDefinition : Definition where
  name := "speed"
  enabled := false
  conjunction := some "Minimum"
  activation := some "  First\t+02 "
  rules := ["if heat is  high then fan is fast with 1.0", "if x then y with 1e-3 # rarely"]

/-- The texts are written out in full and without what is not needed. -/
theorem build_ofBlock_looseDefinition : ∃ b : Block Float,
    looseDefinition.build .builtin = .ok b ∧
      ofBlock b = { looseDefinition with
        activation := some "First 2 0"
        rules := ["if heat is high then fan is fast", "if x then y with 0.001"] } ∧
      (ofBlock b).build .builtin = .ok b := by
  have hexport : (looseDefinition.build .builtin).map (ofBlock (α := Float)) =
      .ok { looseDefinition with
        activation := some "First 2 0"
        rules := ["if heat is high then fan is fast", "if x then y with 0.001"] } := by
    decide +kernel
  obtain ⟨b, hbuild, htexts⟩ := exists_of_map_eq_ok hexport
  obtain ⟨-, -, -, -, -, -, hagain⟩ := build_ofBlock hbuild
  exact ⟨b, hbuild, htexts, hagain⟩

end Definition

end FuzzyInference
