import FuzzyInference.Proofs.Consequent.Conclusions
import FuzzyInference.Proofs.Cycle.History
import FuzzyInference.Proofs.Definition.Export
import FuzzyInference.Proofs.Loading.Resolved

/-!
Loading a definition is all or nothing. In place, a block is made beside the engine: its components
are looked up, its rules are read, and they are loaded one after another. Any of these steps may end
with an error, and none of them touches the engine; the last step, which does, cannot fail.
-/
namespace FuzzyInference

variable {α : Type}

/-! ### Blocks with all rules loaded -/

section Loaded

variable [Scalar α] [NumberText α]

namespace Block

theorem failuresFrom_eq_nil_iff {index : Nat} {loads : List (Outcome (Rule α) Error)} :
    failuresFrom index loads = [] ↔ ∀ loaded ∈ loads, loaded.error = none := by
  induction loads generalizing index with
  | nil => simp [failuresFrom]
  | cons loaded rest ih =>
    rw [failuresFrom]
    cases herror : loaded.error <;> simp [herror, ih]

/-- The block with its rules loaded, if all of them can be. -/
def loaded (vars : Variables α) (b : Block α) : Except BlockError (Block α) :=
  match b.load vars with
  | ⟨loaded, none⟩ => .ok loaded
  | ⟨_, some error⟩ => .error error

theorem loaded_eq_ok_iff {vars : Variables α} {b b' : Block α} :
    b.loaded vars = .ok b' ↔ (∀ r ∈ b.rules, (r.load vars).error = none) ∧
      b' = { b with rules := b.rules.map fun r => (r.load vars).state } := by
  have hfailures : failuresFrom 0 (b.rules.map (Rule.load vars)) = [] ↔
      ∀ r ∈ b.rules, (r.load vars).error = none := by
    rw [failuresFrom_eq_nil_iff, List.forall_mem_map]
  rw [← hfailures]
  simp only [loaded, load, List.map_map, Function.comp_def]
  cases failuresFrom 0 (b.rules.map (Rule.load vars)) with
  | nil => exact ⟨fun h => ⟨rfl, (Except.ok.inj h).symm⟩, fun h => congrArg Except.ok h.2.symm⟩
  | cons failure failures =>
    constructor
    · intro h
      cases h
    · intro h
      exact absurd h.1 (List.cons_ne_nil _ _)

end Block

/-- The block of a definition with its rules loaded. -/
def Definition.buildLoaded (components : Components α) (vars : Variables α) (d : Definition) :
    Except BlockError (Block α) :=
  d.build components >>= fun b => b.loaded vars

theorem Engine.loadDefinition_eq_map (components : Components α) (d : Definition)
    (e : Engine α) :
    e.loadDefinition components d = (d.buildLoaded components e.vars).map e.addBlock := by
  unfold Engine.loadDefinition Definition.buildLoaded Block.loaded
  cases d.build components with
  | error error => rfl
  | ok b =>
    simp only [bind, Except.bind]
    cases b.load e.vars with
    | mk loaded error => cases error <;> rfl

end Loaded

/-! ### The steps -/

namespace Engine.InPlace

/-- Steps on an engine and on the block that is made beside it. -/
abbrev Steps (α β : Type) : Type := EStateM BlockError (Engine α × Block α) β

def modifyBlock (change : Block α → Block α) : Steps α Unit :=
  modify fun (e, b) => (e, change b)

def ofHeader (d : Definition) : Block α :=
  { name := d.name, description := d.description, enabled := d.enabled }

def setConjunction (c : Option (TNorm α)) (b : Block α) : Block α :=
  { b with combinators := { b.combinators with conjunction := c } }

def setDisjunction (c : Option (SNorm α)) (b : Block α) : Block α :=
  { b with combinators := { b.combinators with disjunction := c } }

def setImplication (c : Option (TNorm α)) (b : Block α) : Block α :=
  { b with combinators := { b.combinators with implication := c } }

def setActivation (activation : Option (Activation α)) (b : Block α) : Block α :=
  { b with activation }

/-- Looks up the component of a key that may be absent, and puts it into the block. -/
def construct {T : Type} (find : String → Except Error T) (put : Option T → Block α → Block α)
    (key : Option String) : Steps α Unit :=
  match Definition.component find key with
  | .ok component => modifyBlock (put component)
  | .error error => throw error

/-- Ends with the failures that have been noted, if there are any. -/
def check (name : String) (failures : List RuleFailure) : Steps α Unit :=
  if failures = [] then pure () else throw (.rules name failures)

variable [Scalar α] [NumberText α]

/-- Reads rule texts from a position on. Each rule that can be read is added to the block at once,
and the others are noted. -/
def readRules : Nat → List String → Steps α (List RuleFailure)
  | _, [] => return []
  | index, text :: rest =>
    match Rule.parse text with
    | .ok rule => do
      modifyBlock (·.addRule rule)
      readRules (index + 1) rest
    | .error cause => return ⟨index, text, cause⟩ :: (← readRules (index + 1) rest)

/-- Loads the rule at a position in its place, and notes it if that fails. -/
def loadAt (index : Nat) : Steps α (List RuleFailure) := do
  let (e, b) ← get
  match b.rules[index]? with
  | none => return []
  | some rule =>
    let loaded := rule.load e.vars
    modifyBlock fun b => { b with rules := b.rules.set index loaded.state }
    return loaded.error.toList.map (⟨index, loaded.state.text, ·⟩)

/-- Loads so many rules of the block from a position on, and notes those that fail. -/
def loadRules : Nat → Nat → Steps α (List RuleFailure)
  | _, 0 => return []
  | index, count + 1 => return (← loadAt index) ++ (← loadRules (index + 1) count)

/-- Reads all rule texts, and ends with the failures if there are any. -/
def readAll (name : String) (texts : List String) : Steps α Unit := do
  check name (← readRules 0 texts)

/-- Makes the block of a definition, with its rules not loaded. -/
def build (components : Components α) (d : Definition) : Steps α Unit := do
  modifyBlock fun _ => ofHeader d
  construct components.tnorms.find setConjunction d.conjunction
  construct components.snorms.find setDisjunction d.disjunction
  construct components.tnorms.find setImplication d.implication
  construct (Activation.parse components.activations) setActivation d.activation
  readAll d.name d.rules

def load : Steps α Unit := do
  let (_, b) ← get
  check b.name (← loadRules 0 b.rules.length)

/-- Makes the block, loads its rules, and adds it to the engine. -/
def loadDefinition (components : Components α) (d : Definition) : Steps α Unit := do
  build components d
  load
  modify fun (e, b) => (e.addBlock b, b)

/-- What the steps leave of an engine. The block beside it is forgotten. -/
def outcome (components : Components α) (d : Definition) (e : Engine α) :
    Outcome (Engine α) BlockError :=
  match (loadDefinition components d).run (e, { name := "" }) with
  | .ok _ (e, _) => ⟨e, none⟩
  | .error error (e, _) => ⟨e, some error⟩

/-! ### What they leave -/

omit [Scalar α] [NumberText α] in
theorem run_check (name : String) (failures : List RuleFailure) (s : Engine α × Block α) :
    (check name failures).run s =
      if failures = [] then .ok () s else .error (.rules name failures) s := by
  unfold check
  split <;> rfl

theorem run_readRules (index : Nat) (texts : List String) (e : Engine α) (b : Block α) :
    ∃ rules failures,
      (readRules index texts).run (e, b) = .ok failures (e, { b with rules := b.rules ++ rules }) ∧
        Definition.rulesFrom index texts = if failures = [] then .ok rules else .error failures := by
  induction texts generalizing index b with
  | nil => exact ⟨[], [], by simp [readRules], rfl⟩
  | cons text texts ih =>
    cases hparse : Rule.parse (α := α) text with
    | ok rule =>
      obtain ⟨rules, failures, hrun, hrules⟩ := ih (index + 1) (b.addRule rule)
      refine ⟨rule :: rules, failures, ?_, ?_⟩
      · simp only [readRules, hparse, EStateM.run_bind, modifyBlock, EStateM.run_modify, hrun]
        simp [Block.addRule]
      · rw [Definition.rulesFrom, hparse, hrules]
        cases failures <;> rfl
    | error cause =>
      obtain ⟨rules, failures, hrun, hrules⟩ := ih (index + 1) b
      refine ⟨rules, ⟨index, text, cause⟩ :: failures, ?_, ?_⟩
      · simp only [readRules, hparse, EStateM.run_bind, hrun, EStateM.run_pure]
      · rw [Definition.rulesFrom, hparse, hrules]
        cases failures <;> rfl

theorem run_loadAt (index : Nat) (e : Engine α) {b : Block α} {rule : Rule α}
    (h : b.rules[index]? = some rule) :
    (loadAt index).run (e, b) =
      .ok ((rule.load e.vars).error.toList.map (⟨index, (rule.load e.vars).state.text, ·⟩))
        (e, { b with rules := b.rules.set index (rule.load e.vars).state }) := by
  rw [loadAt, EStateM.run_bind, EStateM.run_get]
  dsimp only
  rw [h]
  rfl

/-- While rules are loaded, those before a position have been loaded and the others have not. -/
theorem run_loadRules (e : Engine α) (b : Block α) (done todo : List (Rule α)) :
    (loadRules done.length todo.length).run (e, { b with rules := done ++ todo }) =
      .ok (Block.failuresFrom done.length (todo.map (Rule.load e.vars)))
        (e, { b with rules := done ++ (todo.map (Rule.load e.vars)).map Outcome.state }) := by
  induction todo generalizing done with
  | nil => rfl
  | cons rule rest ih =>
    have hrule : (done ++ rule :: rest)[done.length]? = some rule := by simp
    have hset : (done ++ rule :: rest).set done.length (rule.load e.vars).state =
        done ++ [(rule.load e.vars).state] ++ rest := by simp
    have hloaded := run_loadAt done.length e (b := { b with rules := done ++ rule :: rest }) hrule
    have hrest := ih (done ++ [(rule.load e.vars).state])
    rw [List.length_append, List.length_singleton, ← hset] at hrest
    simp only [List.length_cons, loadRules, EStateM.run_bind, hloaded, hrest, EStateM.run_pure,
      List.map_cons, Block.failuresFrom, List.append_assoc]
    cases (rule.load e.vars).error <;> rfl

/-- The steps leave the engine as it is. They make the resulting block out of the one they are
given; if there is none, they end with the error, and the block may be anything. -/
def Leaves (steps : Steps α Unit) (e : Engine α) (b : Block α) :
    Except BlockError (Block α) → Prop
  | .ok b' => steps.run (e, b) = .ok () (e, b')
  | .error error => ∃ b', steps.run (e, b) = .error error (e, b')

section Leaves

omit [Scalar α] [NumberText α]

variable {e : Engine α} {b : Block α}

theorem leaves_modifyBlock (change : Block α → Block α) :
    Leaves (modifyBlock change) e b (.ok (change b)) :=
  rfl

theorem Leaves.bind {steps rest : Steps α Unit} {result : Except BlockError (Block α)}
    {next : Block α → Except BlockError (Block α)} (hsteps : Leaves steps e b result)
    (hrest : ∀ b', Leaves rest e b' (next b')) :
    Leaves (steps >>= fun _ => rest) e b (result >>= next) := by
  cases result with
  | error error =>
    obtain ⟨b', hrun⟩ := hsteps
    exact ⟨b', by simp only [EStateM.run_bind, hrun]⟩
  | ok b' =>
    have hrun : (steps >>= fun _ => rest).run (e, b) = rest.run (e, b') := by
      simp only [EStateM.run_bind, show steps.run (e, b) = _ from hsteps]
    have hnext := hrest b'
    show Leaves _ e b (next b')
    unfold Leaves at hnext ⊢
    rw [hrun]
    exact hnext

theorem leaves_construct {T : Type} (find : String → Except Error T)
    (put : Option T → Block α → Block α) (key : Option String) :
    Leaves (construct find put key) e b ((Definition.component find key).map (put · b)) := by
  unfold construct
  cases Definition.component find key with
  | error error => exact ⟨b, rfl⟩
  | ok component => rfl

end Leaves

theorem leaves_readAll (name : String) (texts : List String) (e : Engine α) (b : Block α) :
    Leaves (readAll name texts) e b
      (((Definition.rulesFrom 0 texts).mapError (.rules name)).map
        fun rules => { b with rules := b.rules ++ rules }) := by
  obtain ⟨rules, failures, hrun, hrules⟩ := run_readRules 0 texts e b
  have hsteps : (readAll name texts).run (e, b) =
      (check name failures).run (e, { b with rules := b.rules ++ rules }) := by
    simp only [readAll, EStateM.run_bind, hrun]
  rw [hrules]
  cases failures with
  | nil => exact hsteps
  | cons failure failures => exact ⟨_, hsteps⟩

theorem leaves_build (components : Components α) (d : Definition) (e : Engine α) (b : Block α) :
    Leaves (build components d) e b (d.build components) := by
  have hsteps := (leaves_modifyBlock (e := e) (b := b) fun _ => ofHeader d).bind fun b =>
    (leaves_construct components.tnorms.find setConjunction d.conjunction).bind fun b =>
    (leaves_construct components.snorms.find setDisjunction d.disjunction).bind fun b =>
    (leaves_construct components.tnorms.find setImplication d.implication).bind fun b =>
    (leaves_construct (Activation.parse components.activations) setActivation
      d.activation).bind fun b => leaves_readAll d.name d.rules e b
  refine (congrArg (Leaves (build components d) e b) ?_).mpr hsteps
  unfold Definition.build
  cases Definition.component components.tnorms.find d.conjunction with
  | error error => rfl
  | ok conjunction =>
  cases Definition.component components.snorms.find d.disjunction with
  | error error => rfl
  | ok disjunction =>
  cases Definition.component components.tnorms.find d.implication with
  | error error => rfl
  | ok implication =>
  cases Definition.component (Activation.parse components.activations) d.activation with
  | error error => rfl
  | ok activation =>
  cases (Definition.rulesFrom (α := α) 0 d.rules) <;> rfl

theorem run_load (e : Engine α) (b : Block α) :
    load.run (e, b) =
      match b.load e.vars with
      | ⟨loaded, none⟩ => .ok () (e, loaded)
      | ⟨loaded, some error⟩ => .error error (e, loaded) := by
  have hload := run_loadRules e b [] b.rules
  simp only [List.length_nil, List.nil_append] at hload
  simp only [load, EStateM.run_bind, EStateM.run_get, hload, run_check, Block.load]
  cases Block.failuresFrom 0 (b.rules.map (Rule.load e.vars)) <;> rfl

theorem leaves_load (e : Engine α) (b : Block α) : Leaves load e b (b.loaded e.vars) := by
  unfold Leaves Block.loaded
  rw [run_load]
  cases hload : b.load e.vars with
  | mk loaded error =>
    cases error with
    | none => rfl
    | some error => exact ⟨loaded, rfl⟩

/-- The engine is not touched before the block is complete. -/
theorem outcome_eq (components : Components α) (d : Definition) (e : Engine α) :
    outcome components d e =
      match e.loadDefinition components d with
      | .ok e' => ⟨e', none⟩
      | .error error => ⟨e, some error⟩ := by
  have hsteps : Leaves (build components d >>= fun _ => load) e { name := "" }
      (d.buildLoaded components e.vars) :=
    (leaves_build components d e _).bind fun b => leaves_load e b
  rw [loadDefinition_eq_map]
  simp only [outcome, loadDefinition, ← bind_assoc]
  cases hresult : d.buildLoaded components e.vars with
  | ok b =>
    rw [hresult] at hsteps
    have hrun : (build components d >>= fun _ => load).run (e, { name := "" }) = .ok () (e, b) :=
      hsteps
    simp only [EStateM.run_bind _ (fun _ => modify _), hrun]
    rfl
  | error error =>
    rw [hresult] at hsteps
    obtain ⟨b, hrun⟩ := hsteps
    simp only [EStateM.run_bind _ (fun _ => modify _), hrun]
    rfl

end Engine.InPlace

/-! ### What is accepted, and what is added -/

variable [Scalar α] [NumberText α]

/-- The rule is what a text is read to, loaded from the variables. It has not been in a cycle. -/
structure Rule.LoadedFrom (vars : Variables α) (text : String) (r : Rule α) : Prop where
  read : ∃ r₀, Rule.parse text = .ok r₀ ∧ r₀.load vars = ⟨r, none⟩
  isLoaded : r.isLoaded = true
  enabled : r.enabled = true
  degree : r.degree = Scalar.zero
  triggered : r.triggered = false
  resolved : r.Resolved vars

theorem Rule.loadedFrom_of_load {vars : Variables α} {text : String} {r₀ r : Rule α}
    (hparse : parse text = .ok r₀) (hload : r₀.load vars = ⟨r, none⟩) : r.LoadedFrom vars text := by
  have hresolved := r₀.resolved_load vars
  rw [hload] at hresolved
  obtain ⟨hread, -⟩ := wellFormed_of_parse hparse
  obtain ⟨e, ps, -, -, rfl⟩ := exists_of_resolve (resolve_of_load hload)
  have hstate : (r₀.enabled, r₀.degree, r₀.triggered) = (true, Scalar.zero, false) := by
    rw [hread]
    rfl
  simp only [Prod.mk.injEq] at hstate
  obtain ⟨henabled, hdegree, htriggered⟩ := hstate
  exact ⟨⟨r₀, hparse, hload⟩, rfl, henabled, hdegree, htriggered, hresolved⟩

namespace Definition

/-- Every component is found, and every rule can be read and then loaded. -/
structure Loadable (components : Components α) (vars : Variables α) (d : Definition) : Prop where
  conjunction : ∀ key ∈ d.conjunction, ∃ norm, components.tnorms.find key = .ok norm
  disjunction : ∀ key ∈ d.disjunction, ∃ norm, components.snorms.find key = .ok norm
  implication : ∀ key ∈ d.implication, ∃ norm, components.tnorms.find key = .ok norm
  activation : ∀ text ∈ d.activation, ∃ a, Activation.parse components.activations text = .ok a
  rules : ∀ text ∈ d.rules, ∃ r, Rule.parse text = .ok r ∧ (r.load vars).error = none

/-- The block has what the definition says, and for each text a rule that is loaded from it. -/
structure LoadedTo (components : Components α) (vars : Variables α) (d : Definition)
    (b : Block α) : Prop where
  name : b.name = d.name
  description : b.description = d.description
  enabled : b.enabled = d.enabled
  conjunction : component components.tnorms.find d.conjunction = .ok b.combinators.conjunction
  disjunction : component components.snorms.find d.disjunction = .ok b.combinators.disjunction
  implication : component components.tnorms.find d.implication = .ok b.combinators.implication
  activation :
    component (Activation.parse components.activations) d.activation = .ok b.activation
  rules : d.rules.Forall₂ (Rule.LoadedFrom vars) b.rules

variable {components : Components α} {vars : Variables α} {d : Definition} {b : Block α}

theorem forall₂_map_load {texts : List String} {rules : List (Rule α)}
    (hrules : texts.Forall₂ (fun text r => Rule.parse text = .ok r) rules)
    (hload : ∀ r ∈ rules, (r.load vars).error = none) :
    texts.Forall₂ (Rule.LoadedFrom vars) (rules.map fun r => (r.load vars).state) := by
  induction hrules with
  | nil => exact .nil
  | @cons text r texts rules hparse _ ih =>
    obtain ⟨hr, hrest⟩ := List.forall_mem_cons.mp hload
    have hr : r.load vars = ⟨(r.load vars).state, none⟩ := by rw [← hr]
    exact .cons (Rule.loadedFrom_of_load hparse hr) (ih hrest)

theorem loadedTo_of_buildLoaded (h : d.buildLoaded components vars = .ok b) :
    d.LoadedTo components vars b := by
  obtain ⟨built, hbuild, hloaded⟩ := exists_of_bind_eq_ok h
  obtain ⟨hload, rfl⟩ := Block.loaded_eq_ok_iff.mp hloaded
  obtain ⟨hconjunction, hdisjunction, himplication, hactivation, hrules, hname, hdescription,
    henabled⟩ := build_eq_ok_iff.mp hbuild
  have hrules := forall₂_map_load (rulesFrom_eq_ok_iff.mp hrules) hload
  exact ⟨hname, hdescription, henabled, hconjunction, hdisjunction, himplication, hactivation,
    hrules⟩

theorem loadable_of_loadedTo (h : d.LoadedTo components vars b) : d.Loadable components vars where
  conjunction := component_eq_ok_iff.mp ⟨_, h.conjunction⟩
  disjunction := component_eq_ok_iff.mp ⟨_, h.disjunction⟩
  implication := component_eq_ok_iff.mp ⟨_, h.implication⟩
  activation := component_eq_ok_iff.mp ⟨_, h.activation⟩
  rules := by
    intro text htext
    obtain ⟨r, -, hr⟩ := exists_of_forall₂ h.rules text htext
    obtain ⟨r₀, hparse, hload⟩ := hr.read
    exact ⟨r₀, hparse, by rw [hload]⟩

theorem exists_forall₂_parse {texts : List String}
    (h : ∀ text ∈ texts, ∃ r, Rule.parse text = .ok r ∧ (r.load vars).error = none) :
    ∃ rules, texts.Forall₂ (fun text r => Rule.parse text = .ok r) rules ∧
      ∀ r ∈ rules, (r.load vars).error = none := by
  induction texts with
  | nil => exact ⟨[], .nil, List.forall_mem_nil _⟩
  | cons text texts ih =>
    obtain ⟨⟨r, hparse, hload⟩, hrest⟩ := List.forall_mem_cons.mp h
    obtain ⟨rules, hrules, hloads⟩ := ih hrest
    exact ⟨r :: rules, .cons hparse hrules, List.forall_mem_cons.mpr ⟨hload, hloads⟩⟩

theorem Loadable.exists_buildLoaded (h : d.Loadable components vars) :
    ∃ b, d.buildLoaded components vars = .ok b := by
  obtain ⟨conjunction, hconjunction⟩ := component_eq_ok_iff.mpr h.conjunction
  obtain ⟨disjunction, hdisjunction⟩ := component_eq_ok_iff.mpr h.disjunction
  obtain ⟨implication, himplication⟩ := component_eq_ok_iff.mpr h.implication
  obtain ⟨activation, hactivation⟩ := component_eq_ok_iff.mpr h.activation
  obtain ⟨rules, hrules, hload⟩ := exists_forall₂_parse h.rules
  have hbuild : d.build components = .ok {
      name := d.name, description := d.description, enabled := d.enabled
      combinators := { conjunction, disjunction, implication }, activation, rules } :=
    build_eq_ok_iff.mpr ⟨hconjunction, hdisjunction, himplication, hactivation,
      rulesFrom_eq_ok_iff.mpr hrules, rfl, rfl, rfl⟩
  rw [buildLoaded, hbuild]
  exact ⟨_, Block.loaded_eq_ok_iff.mpr ⟨hload, rfl⟩⟩

end Definition

/-- Loading a definition either fails and leaves the engine, as it was, or adds one block after the
others, with what the definition says and all rules loaded. It fails unless every component is found
and every rule can be read and loaded. -/
theorem Engine.loadDefinition_allOrNothing (components : Components α) (d : Definition)
    (e : Engine α) :
    (∃ error, e.loadDefinition components d = .error error ∧
        InPlace.outcome components d e = ⟨e, some error⟩ ∧ ¬ d.Loadable components e.vars) ∨
      ∃ b, e.loadDefinition components d = .ok { e with blocks := e.blocks ++ [b] } ∧
        InPlace.outcome components d e = ⟨{ e with blocks := e.blocks ++ [b] }, none⟩ ∧
        d.LoadedTo components e.vars b ∧ d.Loadable components e.vars := by
  rw [InPlace.outcome_eq, loadDefinition_eq_map]
  cases hresult : d.buildLoaded components e.vars with
  | error error =>
    refine Or.inl ⟨error, rfl, rfl, fun hloadable => ?_⟩
    obtain ⟨b, hb⟩ := hloadable.exists_buildLoaded
    cases hresult.symm.trans hb
  | ok b =>
    have hloaded := Definition.loadedTo_of_buildLoaded hresult
    exact Or.inr ⟨b, rfl, rfl, hloaded, Definition.loadable_of_loadedTo hloaded⟩

/-- The second rule is the one that stops the first one from being added. -/
example :
    let texts := ["if heat is high then fan is fast", "if heat is high then fan is quiet"]
    let loaded := Engine.InPlace.outcome .builtin { name := "more", rules := texts } Engine.fan
    loaded.state.blocks.map Block.name = ["speed"] ∧
      loaded.error = some (.rules "more" [⟨1, "if heat is high then fan is quiet",
        .unresolved .termName "quiet"⟩]) := by
  decide +kernel

end FuzzyInference
