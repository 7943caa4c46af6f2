import FuzzyInference.Proofs.Definition.Report

/-!
Keys of exported norms. A block holds norms and not the keys that they were found under, and its
definition has the names of the norms. So a key is kept exactly if it is the name of the norm that
it finds, as it is for the built-in norms; and a block is built again from its definition exactly if
its norms are registered under their names, whatever has been registered or removed before.
-/
namespace FuzzyInference

/-! ### Registries -/

namespace Registry

variable {T : Type}

theorem find_eq_ok_iff {r : Registry T} {key : String} {component : T} :
    r.find key = .ok component ↔ r.get? key = some component := by
  unfold find
  cases r.get? key <;> simp

inductive Change (T : Type) where
  | register (key : String) (component : T)
  | deregister (key : String)

def change (r : Registry T) : Change T → Registry T
  | .register key component => r.register key component
  | .deregister key => r.deregister key

/-- Every component is registered under its own name only. -/
def IsNamed (name : T → String) (r : Registry T) : Prop :=
  ∀ {key : String} {component : T}, r.find key = .ok component → name component = key

/-- The change registers nothing under another name. -/
def Change.IsNamed (name : T → String) : Change T → Prop
  | register key component => name component = key
  | deregister _ => True

theorem isNamed_change {name : T → String} {r : Registry T} (h : r.IsNamed name) {c : Change T}
    (hc : c.IsNamed name) : (r.change c).IsNamed name := by
  intro key component hfind
  rw [find_eq_ok_iff] at hfind
  cases c with
  | register newKey new =>
    rw [change, get?_register] at hfind
    split at hfind
    · next hkey =>
      cases hfind
      rw [hkey]
      exact hc
    · exact h (find_eq_ok_iff.mpr hfind)
  | deregister removed =>
    rw [change, get?_deregister] at hfind
    split at hfind
    · cases hfind
    · exact h (find_eq_ok_iff.mpr hfind)

end Registry

/-! ### Components -/

namespace Components

variable {α : Type}

/-- A change of one of the registries of norms. -/
inductive NormChange (α : Type) where
  | tnorm (change : Registry.Change (TNorm α))
  | snorm (change : Registry.Change (SNorm α))

def change (cs : Components α) : NormChange α → Components α
  | .tnorm c => { cs with tnorms := cs.tnorms.change c }
  | .snorm c => { cs with snorms := cs.snorms.change c }

/-- The built-in components after some changes of their norms. -/
def changed [Scalar α] (changes : List (NormChange α)) : Components α :=
  changes.foldl change builtin

def NormChange.IsNamed : NormChange α → Prop
  | tnorm c => c.IsNamed TNorm.name
  | snorm c => c.IsNamed SNorm.name

/-- Every norm is registered under its own name only. -/
structure IsNamed (cs : Components α) : Prop where
  tnorms : cs.tnorms.IsNamed TNorm.name
  snorms : cs.snorms.IsNamed SNorm.name

theorem isNamed_builtin [Scalar α] : (builtin : Components α).IsNamed where
  tnorms h := (Registry.name_of_find TNorm.name h).2
  snorms h := (Registry.name_of_find SNorm.name h).2

theorem isNamed_change {cs : Components α} (h : cs.IsNamed) {c : NormChange α} (hc : c.IsNamed) :
    (cs.change c).IsNamed := by
  cases c with
  | tnorm c => exact ⟨Registry.isNamed_change h.tnorms hc, h.snorms⟩
  | snorm c => exact ⟨h.tnorms, Registry.isNamed_change h.snorms hc⟩

theorem isNamed_foldl {cs : Components α} (h : cs.IsNamed) {changes : List (NormChange α)}
    (hchanges : ∀ c ∈ changes, c.IsNamed) : (changes.foldl change cs).IsNamed := by
  induction changes generalizing cs with
  | nil => exact h
  | cons c changes ih =>
    obtain ⟨hc, hchanges⟩ := List.forall_mem_cons.mp hchanges
    exact ih (isNamed_change h hc) hchanges

theorem activations_foldl (cs : Components α) (changes : List (NormChange α)) :
    (changes.foldl change cs).activations = cs.activations := by
  induction changes generalizing cs with
  | nil => rfl
  | cons c changes ih =>
    rw [List.foldl_cons, ih]
    cases c <;> rfl

end Components

/-! ### Definitions -/

namespace Definition

/-- What is built for a key has the key as its name exactly if all that the key finds has. -/
theorem component_name_eq_iff {T : Type} {find : String → Except Error T} (name : T → String)
    {key : Option String} {c : Option T} (h : component find key = .ok c) :
    c.map name = key ↔ ∀ k ∈ key, ∀ x, find k = .ok x → name x = k := by
  obtain ⟨rfl, rfl⟩ | ⟨k, x, rfl, rfl, hfind⟩ := component_cases h
  · simp
  · simp [hfind]

theorem component_map_iff {T : Type} {find : String → Except Error T} {name : T → String}
    {c : Option T} : component find (c.map name) = .ok c ↔ ∀ x ∈ c, find (name x) = .ok x := by
  refine ⟨fun h x hx => ?_, component_map⟩
  obtain ⟨-, rfl⟩ | ⟨k, y, hk, rfl, hfind⟩ := component_cases h
  · cases hx
  · obtain rfl := Option.some.inj hx
    obtain rfl := Option.some.inj hk
    exact hfind

/-- The definitions refer to norms by the same keys. -/
structure SameKeys (d d' : Definition) : Prop where
  conjunction : d.conjunction = d'.conjunction
  disjunction : d.disjunction = d'.disjunction
  implication : d.implication = d'.implication

variable {α : Type}

/-- Each key of the definition is the name of the norm that it finds. -/
structure NamesNorms (cs : Components α) (d : Definition) : Prop where
  conjunction : ∀ key ∈ d.conjunction, ∀ norm, cs.tnorms.find key = .ok norm → norm.name = key
  disjunction : ∀ key ∈ d.disjunction, ∀ norm, cs.snorms.find key = .ok norm → norm.name = key
  implication : ∀ key ∈ d.implication, ∀ norm, cs.tnorms.find key = .ok norm → norm.name = key

end Definition

/-- Each norm of the block is registered under its name. -/
structure Block.NormsRegistered {α : Type} (cs : Components α) (b : Block α) : Prop where
  conjunction : ∀ norm ∈ b.combinators.conjunction, cs.tnorms.find norm.name = .ok norm
  disjunction : ∀ norm ∈ b.combinators.disjunction, cs.snorms.find norm.name = .ok norm
  implication : ∀ norm ∈ b.combinators.implication, cs.tnorms.find norm.name = .ok norm

namespace Definition

variable {α : Type} [Scalar α] [NumberText α] {cs : Components α} {d : Definition} {b : Block α}

theorem sameKeys_ofBlock_iff (h : d.build cs = .ok b) :
    (ofBlock b).SameKeys d ↔ d.NamesNorms cs := by
  obtain ⟨hconjunction, hdisjunction, himplication, -⟩ := build_eq_ok_iff.mp h
  have hconjunction := component_name_eq_iff TNorm.name hconjunction
  have hdisjunction := component_name_eq_iff SNorm.name hdisjunction
  have himplication := component_name_eq_iff TNorm.name himplication
  constructor
  · rintro ⟨hc, hd, hi⟩
    exact ⟨hconjunction.mp hc, hdisjunction.mp hd, himplication.mp hi⟩
  · rintro ⟨hc, hd, hi⟩
    exact ⟨hconjunction.mpr hc, hdisjunction.mpr hd, himplication.mpr hi⟩

/-- A norm that was found under its name is registered under it. -/
theorem normsRegistered_of_sameKeys (h : d.build cs = .ok b) (hkeys : (ofBlock b).SameKeys d) :
    b.NormsRegistered cs := by
  obtain ⟨hconjunction, hdisjunction, himplication, -⟩ := build_eq_ok_iff.mp h
  rw [← hkeys.conjunction] at hconjunction
  rw [← hkeys.disjunction] at hdisjunction
  rw [← hkeys.implication] at himplication
  exact ⟨component_map_iff.mp hconjunction, component_map_iff.mp hdisjunction,
    component_map_iff.mp himplication⟩

/-- With the built-in strategies all but the norms of a block that was built is built again. -/
theorem build_ofBlock_iff (hback : ∀ x : α, Text.ReadsBack x)
    (hone : ∀ {x : α}, Scalar.eq x Scalar.one = true → x = Scalar.one)
    (hactivations : cs.activations = Activation.registry) (h : d.build cs = .ok b) :
    (ofBlock b).build cs = .ok b ↔ b.NormsRegistered cs := by
  obtain ⟨-, -, -, hactivation, hrules, -⟩ := build_eq_ok_iff.mp h
  have hactivation : component (Activation.parse cs.activations) (b.activation.map Activation.text) =
      .ok b.activation := by
    rw [hactivations] at hactivation ⊢
    exact component_map (component_activation hback hactivation)
  have hparse : ∀ r ∈ b.rules, Rule.parse r.text = .ok (id r) := by
    intro r hr
    obtain ⟨text, hread⟩ := exists_parse_of_rulesFrom hrules r hr
    obtain ⟨hr, hwellFormed⟩ := Rule.wellFormed_of_parse hread
    rw [id, Rule.parse_of_wellFormed hwellFormed (hback _) hone, ← hr]
  have hrules : rulesFrom 0 (b.rules.map Rule.text) = .ok b.rules := by
    rw [rulesFrom_map hparse, List.map_id]
  rw [build_eq_ok_iff]
  constructor
  · rintro ⟨hconjunction, hdisjunction, himplication, -⟩
    exact ⟨component_map_iff.mp hconjunction, component_map_iff.mp hdisjunction,
      component_map_iff.mp himplication⟩
  · rintro ⟨hconjunction, hdisjunction, himplication⟩
    exact ⟨component_map hconjunction, component_map hdisjunction, component_map himplication,
      hactivation, hrules, rfl, rfl, rfl⟩

/-- Whatever norms have been registered and removed, those of the user among them, the definition of
a block that was built has the same keys as the first one exactly if each of these is the name of
the norm that it finds, as it is if norms are registered under their names only. The block is built
again from its definition exactly if each of its norms is registered under its name, as it is if the
keys are the same. -/
theorem keys_ofBlock {changes : List (Components.NormChange Float)} {d : Definition}
    {b : Block Float} (h : d.build (.changed changes) = .ok b) :
    ((ofBlock b).SameKeys d ↔ d.NamesNorms (Components.changed changes)) ∧
      ((∀ c ∈ changes, c.IsNamed) → (ofBlock b).SameKeys d) ∧
      ((ofBlock b).build (.changed changes) = .ok b ↔
        b.NormsRegistered (Components.changed changes)) ∧
      ((ofBlock b).SameKeys d → (ofBlock b).build (.changed changes) = .ok b) := by
  have hkeys := sameKeys_ofBlock_iff h
  have hbuild := build_ofBlock_iff Binary64.readsBack Binary64.eq_one
    (Components.activations_foldl .builtin changes) h
  refine ⟨hkeys, fun hnamed => hkeys.mpr ?_, hbuild, fun hsame => ?_⟩
  · obtain ⟨htnorms, hsnorms⟩ := Components.isNamed_foldl Components.isNamed_builtin hnamed
    exact ⟨fun _ _ _ hfind => htnorms hfind, fun _ _ _ hfind => hsnorms hfind,
      fun _ _ _ hfind => htnorms hfind⟩
  · exact hbuild.mpr (normsRegistered_of_sameKeys h hsame)

/-- A definition with a minimum under another key, and with a mean. -/
def bothDefinition : Definition where
  name := "careful"
  conjunction := some "Both"
  disjunction := some "Mean"
  rules := ["if heat is high or rain is strong then roof is shut with 0.5"]

/-- An operator of the user's own. -/
def mean : SNorm Float := .custom "Mean" fun _ a b => (a + b) * Scalar.half

/-- The minimum is registered twice, the mean is under its name, and the maximum is not used. -/
def bothChanges : List (Components.NormChange Float) :=
  [.tnorm (.register "Both" .minimum), .snorm (.register "Mean" mean),
   .snorm (.deregister "Maximum")]

/-- One of the keys is not kept, but the block is built again. -/
theorem keys_ofBlock_both : ∃ b : Block Float,
    bothDefinition.build (.changed bothChanges) = .ok b ∧ b.combinators.disjunction = some mean ∧
      ¬ (ofBlock b).SameKeys bothDefinition ∧
      (ofBlock b).build (.changed bothChanges) = .ok b := by
  have hnames : (bothDefinition.build (.changed bothChanges)).map (fun b =>
      (ofBlock b).conjunction) = .ok (some "Minimum") := by
    decide +kernel
  obtain ⟨b, hbuild, hminimum⟩ := exists_of_map_eq_ok hnames
  obtain ⟨hconjunction, hdisjunction, himplication, -⟩ := build_eq_ok_iff.mp hbuild
  obtain ⟨-, -, hagain, -⟩ := keys_ofBlock hbuild
  have hboth : b.combinators.conjunction = some .minimum := (Except.ok.inj hconjunction).symm
  have hmean : b.combinators.disjunction = some mean := (Except.ok.inj hdisjunction).symm
  have hnone : b.combinators.implication = none := (Except.ok.inj himplication).symm
  refine ⟨b, hbuild, hmean, fun hsame => ?_, hagain.mpr ⟨?_, ?_, ?_⟩⟩
  · have hkey := hminimum.symm.trans hsame.conjunction
    exact absurd hkey (by decide)
  · rw [hboth]
    rintro _ ⟨⟩
    rfl
  · rw [hmean]
    rintro _ ⟨⟩
    rfl
  · rw [hnone]
    exact fun _ hnorm => absurd hnorm (Option.not_mem_none _)

def productDefinition : Definition where
  name := "custom"
  conjunction := some "Product"

/-- The built-in components with a formula that is registered as "Product". -/
def withProduct (product : NormFormula Float) : Components Float :=
  .changed [.tnorm (.register "Product" (.formula product))]

theorem get?_withProduct (product : NormFormula Float) (key : String) :
    (withProduct product).tnorms.get? key =
      if key = "Product" then some (.formula product) else TNorm.registry.get? key :=
  Registry.get?_register _ _ _ _

/-- The name of a formula is not the key that it is registered under. -/
theorem not_sameKeys_product : ∃ (product : NormFormula Float) (b : Block Float),
    NormFormula.parse "a * b" = .ok product ∧
      productDefinition.build (withProduct product) = .ok b ∧
      ¬ (ofBlock b).SameKeys productDefinition ∧
      (ofBlock b).build (withProduct product) =
        .error (.component (.notRegistered "TNormFactory" "NormFunction")) := by
  have hformula : (NormFormula.parse (α := Float) "a * b").map (fun n => n.formula.text) =
      .ok "a * b" := by
    decide +kernel
  obtain ⟨product, hproduct, -⟩ := exists_of_map_eq_ok hformula
  let b : Block Float :=
    { name := "custom", combinators := { conjunction := some (.formula product) } }
  have hfind : (withProduct product).tnorms.find "Product" = .ok (.formula product) := by
    rw [Registry.find_eq_ok_iff, get?_withProduct, if_pos rfl]
  have hbuild : productDefinition.build (withProduct product) = .ok b := by
    rw [build_eq_ok_iff]
    refine ⟨?_, rfl, rfl, rfl, rfl, rfl, rfl, rfl⟩
    rw [productDefinition, component, hfind]
    rfl
  have hrefused : (withProduct product).tnorms.contains "NormFunction" = false := by
    rw [Registry.contains, get?_withProduct, if_neg (by decide)]
    rfl
  refine ⟨product, b, hproduct, hbuild, fun hsame => ?_, ?_⟩
  · have hkeys : some "NormFunction" = some "Product" := hsame.conjunction
    exact absurd hkeys (by decide)
  · exact (Refused.conjunction rfl hrefused).build

end Definition

end FuzzyInference
