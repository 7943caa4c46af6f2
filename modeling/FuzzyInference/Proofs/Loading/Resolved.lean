import FuzzyInference.Proofs.Cycle.Frame

/-!
Rules that hold what their texts stand for. Loading makes them so, and they stay so as long as the
names of variables, terms and hedges do: neither the values of inputs nor the conclusions of a cycle
matter to what a text stands for.
-/
namespace FuzzyInference

variable {α κ : Type}

/-! ### Names -/

/-- The catalogues resolve all names alike. -/
structure SameNames [Catalogue κ α] (catalogue catalogue' : κ) : Prop where
  findVariable : Catalogue.findVariable? catalogue = Catalogue.findVariable? catalogue'
  findTerm : Catalogue.findTerm? catalogue = Catalogue.findTerm? catalogue'
  findHedge : Catalogue.findHedge? catalogue = Catalogue.findHedge? catalogue'

namespace SameNames

variable [Catalogue κ α] {catalogue catalogue' : κ}

theorem accept (h : SameNames catalogue catalogue') :
    Draft.accept (α := α) catalogue = Draft.accept catalogue' := by
  funext clause word d
  cases d <;> simp only [Draft.accept, h.findVariable, h.findTerm, h.findHedge]

theorem parse (h : SameNames catalogue catalogue') :
    Expression.parse (α := α) catalogue = Expression.parse catalogue' := by
  have hpush : Expression.Progress.push (α := α) catalogue =
      Expression.Progress.push catalogue' := by
    funext s item
    cases item <;> simp only [Expression.Progress.push, h.accept]
  funext text
  simp only [Expression.parse, hpush]

theorem conclusionsFrom (h : SameNames catalogue catalogue') (text : String)
    (place : Proposition.Place α) (words : List String) :
    Proposition.conclusionsFrom catalogue text place words =
      Proposition.conclusionsFrom catalogue' text place words := by
  induction words generalizing place with
  | nil => cases place <;> simp only [Proposition.conclusionsFrom]
  | cons word rest ih =>
    cases place with
    | after => simp only [Proposition.conclusionsFrom, ih]
    | within d => simp only [Proposition.conclusionsFrom, h.accept, ih]

theorem parseConclusions (h : SameNames catalogue catalogue') :
    Proposition.parseConclusions (α := α) catalogue = Proposition.parseConclusions catalogue' :=
  funext fun text => h.conclusionsFrom text _ _

end SameNames

/-- What the variables contribute to the meaning of texts. -/
def Variables.signature (vs : Variables α) :
    List (String × List (Term α)) × List (String × List (Term α)) × List (Hedge α) :=
  (vs.inputs.map fun v => (v.name, v.terms), vs.outputs.map fun v => (v.name, v.terms), vs.hedges)

namespace Variables

variable {vs vs' : Variables α}

theorem findVariable?_eq_of_signature (h : vs.signature = vs'.signature) :
    vs.findVariable? = vs'.findVariable? := by
  obtain ⟨hinputs, hrest⟩ := Prod.mk.inj h
  obtain ⟨houtputs, -⟩ := Prod.mk.inj hrest
  funext name
  have hinput := congrArg (List.findIdx? fun p => p.1 = name) hinputs
  have houtput := congrArg (List.findIdx? fun p => p.1 = name) houtputs
  simp only [List.findIdx?_map, Function.comp_def] at hinput houtput
  simp only [findVariable?, inputIndex?, outputIndex?, hinput, houtput]

theorem findTerm?_eq_of_signature (h : vs.signature = vs'.signature) :
    vs.findTerm? = vs'.findTerm? := by
  obtain ⟨hinputs, hrest⟩ := Prod.mk.inj h
  obtain ⟨houtputs, -⟩ := Prod.mk.inj hrest
  funext id name
  have hinput := congrArg (fun ps => ps[id.index]?.map Prod.snd) hinputs
  have houtput := congrArg (fun ps => ps[id.index]?.map Prod.snd) houtputs
  simp only [List.getElem?_map, Option.map_map, Function.comp_def] at hinput houtput
  have hterms : vs.terms id = vs'.terms id := by
    unfold Variables.terms
    cases id.role with
    | input => exact congrArg (Option.getD · []) hinput
    | output => exact congrArg (Option.getD · []) houtput
  simp only [findTerm?, hterms]

variable [Scalar α]

theorem sameNames_of_signature (h : vs.signature = vs'.signature) : SameNames vs vs' where
  findVariable := findVariable?_eq_of_signature h
  findTerm := findTerm?_eq_of_signature h
  findHedge := by
    obtain ⟨-, hrest⟩ := Prod.mk.inj h
    obtain ⟨-, hhedges⟩ := Prod.mk.inj hrest
    funext name
    exact congrArg (List.find? fun hedge => hedge.name = name) hhedges

omit [Scalar α] in
theorem signature_clearOutputs (vs : Variables α) : vs.clearOutputs.signature = vs.signature := by
  simp only [signature, clearOutputs, List.map_map]
  rfl

theorem signature_of_setInputValue {name : String} {value : α}
    (h : vs.setInputValue name value = .ok vs') : vs'.signature = vs.signature := by
  unfold setInputValue modifyInput? at h
  cases hindex : vs.inputIndex? name with
  | none =>
    rw [hindex] at h
    cases h
  | some index =>
    rw [hindex] at h
    cases h
    have hvalue : ∀ v : InputVariable α,
        ((v.setValue value).name, (v.setValue value).terms) = (v.name, v.terms) := fun _ => rfl
    have hinputs : (vs.inputs.modify index (·.setValue value)).map (fun v => (v.name, v.terms)) =
        vs.inputs.map fun v => (v.name, v.terms) := map_modify_of_eq hvalue vs.inputs index
    simp only [signature, hinputs]

end Variables

/-! ### Rules -/

/-- What is loaded of the rule is what its texts stand for in the catalogue. -/
structure Rule.Resolved [Catalogue κ α] (catalogue : κ) (r : Rule α) : Prop where
  antecedent : ∀ e ∈ r.antecedent.expression,
    Expression.parse catalogue r.antecedent.text = .ok e
  consequent : ∀ ps ∈ r.consequent.conclusions,
    Proposition.parseConclusions catalogue r.consequent.text = .ok ps

variable [Scalar α]

namespace Rule

variable [Catalogue κ α] {catalogue catalogue' : κ} {r r' : Rule α}

omit [Scalar α] in
theorem Resolved.of_sameNames (h : r.Resolved catalogue) (hnames : SameNames catalogue catalogue') :
    r.Resolved catalogue' :=
  ⟨hnames.parse ▸ h.antecedent, hnames.parseConclusions ▸ h.consequent⟩

omit [Scalar α] in
theorem Resolved.of_clauses (h : r.Resolved catalogue) (hante : r'.antecedent = r.antecedent)
    (hcons : r'.consequent = r.consequent) : r'.Resolved catalogue :=
  ⟨hante ▸ h.antecedent, hcons ▸ h.consequent⟩

theorem resolve_of_load {loaded : Rule α}
    (h : r.load catalogue = ⟨loaded, none⟩) : r.resolve catalogue = .ok loaded := by
  unfold load at h
  split at h
  · next heq =>
    cases h
    exact heq
  · cases h

/-- Loading a rule resolves it, also where it fails and leaves the rule unloaded. -/
theorem resolved_load (catalogue : κ) (r : Rule α) :
    (r.load catalogue).state.Resolved catalogue := by
  unfold load
  cases hresolve : r.resolve catalogue with
  | error cause => exact ⟨by simp [unload, Antecedent.unload], by simp [unload, Consequent.unload]⟩
  | ok loaded =>
    obtain ⟨e, ps, hexpression, hconclusions, rfl⟩ := exists_of_resolve hresolve
    exact ⟨by simpa using hexpression, by simpa using hconclusions⟩

end Rule

/-! ### Engines -/

namespace Engine

/-- Of every rule, what is loaded is what its texts stand for in the variables of the engine. -/
def Resolved (e : Engine α) : Prop := ∀ b ∈ e.blocks, ∀ r ∈ b.rules, r.Resolved e.vars

variable {e e' : Engine α}

theorem resolved_restart_iff : e.restart.Resolved ↔ e.Resolved := by
  have hnames := Variables.sameNames_of_signature e.vars.signature_clearOutputs
  have hnames' := Variables.sameNames_of_signature e.vars.signature_clearOutputs.symm
  simp only [Resolved, restart, Block.deactivate, List.forall_mem_map]
  refine ⟨fun h b hb r hr => ?_, fun h b hb r hr => ?_⟩
  · exact ((h b hb r hr).of_sameNames hnames).of_clauses rfl rfl
  · exact ((h b hb r hr).of_sameNames hnames').of_clauses rfl rfl

theorem Resolved.setInputValue {name : String} {value : α} (h : e.Resolved)
    (hset : e.setInputValue name value = .ok e') : e'.Resolved := by
  unfold Engine.setInputValue at hset
  cases hvars : e.vars.setInputValue name value with
  | error cause =>
    rw [hvars] at hset
    cases hset
  | ok vars =>
    rw [hvars] at hset
    cases hset
    have hnames := Variables.sameNames_of_signature
      (Variables.signature_of_setInputValue hvars).symm
    exact fun b hb r hr => (h b hb r hr).of_sameNames hnames

variable [NumberText α]

theorem Resolved.process (h : e.Resolved) (ε : α) : (e.process ε).state.Resolved := by
  rw [← resolved_restart_iff, restart_process, resolved_restart_iff]
  exact h

/-- Loading all rules anew resolves them, whatever they held before and whether it fails or not. -/
theorem resolved_load (e : Engine α) : e.load.state.Resolved := by
  simp only [Resolved, load, List.map_map, List.forall_mem_map, Function.comp_apply, Block.reload,
    Block.load]
  exact fun b _ r _ => r.resolved_load e.vars

theorem Resolved.loadDefinition {components : Components α} {d : Definition} (h : e.Resolved)
    (hload : e.loadDefinition components d = .ok e') : e'.Resolved := by
  unfold Engine.loadDefinition at hload
  obtain ⟨block, -, hload⟩ := exists_of_bind_eq_ok hload
  cases hblock : block.load e.vars with
  | mk loaded error =>
    have hstate : loaded = (block.load e.vars).state := by rw [hblock]
    rw [hblock] at hload
    cases error with
    | some error => cases hload
    | none =>
      cases hload
      simp only [Resolved, addBlock, List.forall_mem_append, List.forall_mem_singleton]
      refine ⟨h, ?_⟩
      rw [hstate]
      simp only [Block.load, List.map_map, List.forall_mem_map, Function.comp_apply]
      exact fun r _ => r.resolved_load e.vars

end Engine

end FuzzyInference
