import FuzzyInference.Proofs.Cycle.History
import FuzzyInference.Proofs.Definition.Export
import FuzzyInference.Proofs.Definition.Lossless

/-!
Rebuilding a block that was edited. What a block is edited with can be exported again, so the block
that is rebuilt from its exported text is the edited block, but for the flags of its rules: a rule
that was disabled is enabled again. Cycles of the two blocks differ only where such a rule counts.
-/
namespace FuzzyInference

variable {α κ : Type}

namespace Block

/-! ### Edits -/

/-- The edits of a block that was built. Components are given by their keys, or by none. -/
inductive Edit (α : Type) where
  | setEnabled (enabled : Bool)
  | setRuleEnabled (index : Nat) (enabled : Bool)
  | setRuleWeight (index : Nat) (weight : α)
  | addRule (text : String)
  | removeRule (index : Nat)
  | setConjunction (key : Option String)
  | setDisjunction (key : Option String)
  | setImplication (key : Option String)
  | setActivation (text : Option String)

variable [Scalar α] [NumberText α]

/-- The block with a component that is set, or the block as it was if there is no such component. -/
def withComponent {T : Type} (b : Block α) (set : Option T → Block α) :
    Except BlockError (Option T) → Block α
  | .ok component => set component
  | .error _ => b

/-- The block after an edit; one that fails changes nothing. -/
def edit (b : Block α) : Edit α → Block α
  | .setEnabled enabled => { b with enabled }
  | .setRuleEnabled index enabled =>
    { b with rules := b.rules.modify index (·.apply (.setEnabled enabled)) }
  | .setRuleWeight index weight =>
    { b with rules := b.rules.modify index (·.apply (.setWeight weight)) }
  | .addRule text =>
    match Rule.parse text with
    | .ok rule => b.addRule rule
    | .error _ => b
  | .removeRule index => ((b.removeRule? index).map Prod.snd).getD b
  | .setConjunction key =>
    b.withComponent (fun c => { b with combinators := { b.combinators with conjunction := c } })
      (Definition.component TNorm.registry.find key)
  | .setDisjunction key =>
    b.withComponent (fun c => { b with combinators := { b.combinators with disjunction := c } })
      (Definition.component SNorm.registry.find key)
  | .setImplication key =>
    b.withComponent (fun c => { b with combinators := { b.combinators with implication := c } })
      (Definition.component TNorm.registry.find key)
  | .setActivation text =>
    b.withComponent (fun activation => { b with activation })
      (Definition.component (Activation.parse Activation.registry) text)

theorem asRead_setEnabled {r : Rule α} (h : r.AsRead) (enabled : Bool) :
    (r.apply (.setEnabled enabled)).AsRead := by
  obtain ⟨t, _, ht, rfl⟩ := h
  exact ⟨t, enabled, ht, rfl⟩

theorem asRead_setWeight {r : Rule α} (h : r.AsRead) (weight : α) :
    (r.apply (.setWeight weight)).AsRead := by
  obtain ⟨t, enabled, ht, rfl⟩ := h
  by_cases hweight : RuleText.isWeight weight = true
  · refine ⟨{ t with weight }, enabled, ⟨ht.antecedent, ht.consequent, hweight⟩, ?_⟩
    rw [Rule.apply, Rule.setWeight, if_pos hweight]
    rfl
  · rw [Rule.apply, Rule.setWeight, if_neg hweight]
    exact ⟨t, enabled, ht, rfl⟩

theorem exportable_withComponent {T : Type} {b : Block α} {set : Option T → Block α}
    {result : Except BlockError (Option T)} (h : b.Exportable)
    (hset : ∀ c, result = .ok c → (set c).Exportable) :
    (b.withComponent set result).Exportable := by
  cases result with
  | ok c => exact hset c rfl
  | error cause => exact h

/-- An edit leaves a block that can be exported. -/
theorem exportable_edit (hback : ∀ x : α, Text.ReadsBack x) {b : Block α} (h : b.Exportable)
    (e : Edit α) : (b.edit e).Exportable := by
  cases e with
  | setEnabled enabled => exact { h with }
  | setRuleEnabled index enabled =>
    have hrules := forall_mem_modify h.rules (fun _ hr => asRead_setEnabled hr enabled) index
    exact { h with rules := hrules }
  | setRuleWeight index weight =>
    have hrules := forall_mem_modify h.rules (fun _ hr => asRead_setWeight hr weight) index
    exact { h with rules := hrules }
  | addRule text =>
    rw [edit]
    split
    · next rule hparse =>
      refine { h with rules := fun r hr => ?_ }
      rcases List.mem_append.mp hr with hr | hr
      · exact h.rules r hr
      · obtain rfl := List.mem_singleton.mp hr
        exact (Rule.asRead_of_parse hparse).1
    · exact h
  | removeRule index =>
    rw [edit, removeRule?]
    cases b.rules[index]? with
    | none => exact h
    | some rule => exact { h with rules := fun r hr => h.rules r (List.mem_of_mem_eraseIdx hr) }
  | setConjunction key =>
    apply exportable_withComponent h
    intro c hc
    exact { h with conjunction := (Definition.component_tnorm hc).2 }
  | setDisjunction key =>
    apply exportable_withComponent h
    intro c hc
    exact { h with disjunction := (Definition.component_snorm hc).2 }
  | setImplication key =>
    apply exportable_withComponent h
    intro c hc
    exact { h with implication := (Definition.component_tnorm hc).2 }
  | setActivation text =>
    apply exportable_withComponent h
    intro c hc
    exact { h with activation := Definition.component_activation hback hc }

theorem exportable_edits (hback : ∀ x : α, Text.ReadsBack x) {b : Block α} (h : b.Exportable)
    (edits : List (Edit α)) : (edits.foldl edit b).Exportable := by
  induction edits generalizing b with
  | nil => exact h
  | cons e edits ih => exact ih (exportable_edit hback h e)

/-! ### Cycles -/

/-- What can be seen of a block that is loaded from one catalogue and run in another: the errors of
both, the catalogue afterwards, and the degree and the flag of each rule. -/
structure Cycle (κ α : Type) where
  loadError : Option BlockError
  error : Option Error
  catalogue : κ
  rules : List (α × Bool)

section Cycle

variable [Catalogue κ α]

def cycle (ε : α) (names catalogue : κ) (b : Block α) : Cycle κ α :=
  let loaded := b.load names
  let run := loaded.state.run ε catalogue
  ⟨loaded.error, run.error, run.state.2, run.state.1.rules.map fun r => (r.degree, r.triggered)⟩

omit [NumberText α] in
/-- A rule is loaded without regard to its flag. -/
theorem load_enable (names : κ) (r : Rule α) :
    r.enable.load names = (r.load names).map Rule.enable := by
  have hresolve : r.enable.resolve names = (r.resolve names).map Rule.enable := by
    simp only [Rule.resolve, Rule.enable]
    cases r.antecedent.load names with
    | error cause => rfl
    | ok antecedent => cases r.consequent.load names <;> rfl
  rw [Rule.load, Rule.load, hresolve]
  cases r.resolve names <;> rfl

theorem failuresFrom_map_enable (index : Nat) (loads : List (Outcome (Rule α) Error)) :
    failuresFrom index (loads.map (Outcome.map Rule.enable)) = failuresFrom index loads := by
  induction loads generalizing index with
  | nil => rfl
  | cons loaded rest ih =>
    rw [List.map_cons, failuresFrom, failuresFrom, ih]
    rfl

theorem load_enableRules (names : κ) (b : Block α) :
    b.enableRules.load names = (b.load names).map enableRules := by
  have hloads : b.enableRules.rules.map (Rule.load names) =
      (b.rules.map (Rule.load names)).map (Outcome.map Rule.enable) := by
    simp only [enableRules, List.map_map]
    exact List.map_congr_left fun r _ => load_enable names r
  have hfailures := failuresFrom_map_enable 0 (b.rules.map (Rule.load names))
  rw [← hloads] at hfailures
  have hstates : (b.enableRules.rules.map (Rule.load names)).map Outcome.state =
      ((b.rules.map (Rule.load names)).map Outcome.state).map Rule.enable := by
    simp only [hloads, List.map_map]
    rfl
  simp only [load, hfailures, hstates]
  rfl

/-- In a disabled block the flags of the rules do not count. -/
theorem cycle_enableRules (ε : α) (names catalogue : κ) {b : Block α}
    (h : b.enabled = true → ∀ r ∈ b.rules, r.enabled = true) :
    b.enableRules.cycle ε names catalogue = b.cycle ε names catalogue := by
  cases henabled : b.enabled with
  | true => rw [enableRules_of_enabled (h henabled)]
  | false =>
    have hrun : ∀ loaded : Block α, loaded.enabled = false →
        loaded.run ε catalogue = ⟨(loaded, catalogue), none⟩ := by
      intro loaded hdisabled
      simp [run, hdisabled]
    have hloaded : (b.load names).state.enabled = false := henabled
    have henable : (b.load names).state.enableRules.enabled = false := henabled
    simp only [cycle, load_enableRules, Outcome.map, hrun _ hloaded, hrun _ henable]
    simp only [enableRules, List.map_map]
    rfl

end Cycle

end Block

namespace Definition

/-- An exportable block is rebuilt from the text of its definition, with all rules enabled. -/
theorem exists_rebuilt {b : Block Float} (h : b.Exportable) :
    ∃ exported, ofJson? (ofBlock b).toJson = some exported ∧
      exported.build .builtin = .ok b.enableRules := by
  obtain ⟨tokens, htokens, hmembers⟩ := (ofBlock b).exists_tokens?_toJson
  have hread : ofJson? (ofBlock b).toJson = some (ofBlock b) := by
    simp [ofJson?, htokens, hmembers, ofMembers?_tokenMembers]
  exact ⟨ofBlock b, hread, build_of_exportable Binary64.readsBack Binary64.eq_one h⟩

/-- An edited block is rebuilt from the text of its definition with all of its rules enabled. Unless
that enables a rule of an enabled block, both blocks have the same cycles. -/
theorem rebuild_edited {d : Definition} {b : Block Float} (h : d.build .builtin = .ok b)
    (edits : List (Block.Edit Float)) :
    ∃ exported rebuilt, ofJson? (ofBlock (edits.foldl Block.edit b)).toJson = some exported ∧
      exported.build .builtin = .ok rebuilt ∧
      rebuilt = (edits.foldl Block.edit b).enableRules ∧
      (((edits.foldl Block.edit b).enabled = true →
          ∀ r ∈ (edits.foldl Block.edit b).rules, r.enabled = true) →
        ∀ {κ : Type} [Catalogue κ Float] (ε : Float) (names catalogue : κ),
          rebuilt.cycle ε names catalogue =
            (edits.foldl Block.edit b).cycle ε names catalogue) := by
  obtain ⟨-, hexportable, -⟩ := exportable_of_build Binary64.readsBack h
  have hedited := Block.exportable_edits Binary64.readsBack hexportable edits
  obtain ⟨exported, hexported, hrebuilt⟩ := exists_rebuilt hedited
  refine ⟨exported, _, hexported, hrebuilt, rfl, ?_⟩
  intro hflags κ _ ε names catalogue
  exact Block.cycle_enableRules ε names catalogue hflags

/-- The block of a fan that runs fast when it is hot. -/
def fanDefinition : Definition where
  name := "speed"
  rules := ["if heat is high then fan is fast"]

/-- There is no rule to remove at the last position. -/
def fanEdits : List (Block.Edit Float) :=
  [.addRule "if heat is high then fan is fast with 0.5", .setRuleWeight 0 0.25,
   .setActivation (some "Highest 2"), .removeRule 7]

/-- A second rule, another weight and a strategy are rebuilt. -/
theorem rebuild_edited_fanDefinition :
    ∃ b : Block Float, fanDefinition.build .builtin = .ok b ∧
      (fanEdits.foldl Block.edit b).rules.map (fun r => (r.weight, r.enabled)) =
        [(0.25, true), (0.5, true)] ∧
      ∃ exported rebuilt, ofJson? (ofBlock (fanEdits.foldl Block.edit b)).toJson = some exported ∧
        exported.build .builtin = .ok rebuilt ∧
        ∀ (ε : Float) (names catalogue : Variables Float),
          rebuilt.cycle ε names catalogue =
            (fanEdits.foldl Block.edit b).cycle ε names catalogue := by
  have hkernel : (fanDefinition.build .builtin).map (fun b =>
      (fanEdits.foldl Block.edit b).rules.map fun r => (r.weight, r.enabled)) =
        .ok [(0.25, true), (0.5, true)] := by
    decide +kernel
  obtain ⟨b, hbuild, hrules⟩ := exists_of_map_eq_ok hkernel
  have hflags : ∀ r ∈ (fanEdits.foldl Block.edit b).rules, r.enabled = true := by
    intro r hr
    have hmem : (r.weight, r.enabled) ∈ [(0.25, true), (0.5, true)] := by
      rw [← hrules]
      exact List.mem_map_of_mem hr
    simp only [List.mem_cons, List.not_mem_nil, or_false, Prod.mk.injEq] at hmem
    rcases hmem with ⟨-, h⟩ | ⟨-, h⟩ <;> exact h
  obtain ⟨exported, rebuilt, hexported, hrebuilt, -, hcycles⟩ := rebuild_edited hbuild fanEdits
  exact ⟨b, hbuild, hrules, exported, rebuilt, hexported, hrebuilt, hcycles fun _ => hflags⟩

/-- The rules that a cycle triggers. -/
def triggers (b : Block Float) : List Bool :=
  (b.cycle Binary64.defaultTolerance Engine.fan.vars Engine.fan.vars).rules.map Prod.snd

/-- A disabled rule is triggered after the block has been rebuilt. -/
theorem triggers_rebuilt_disabled :
    ∃ (b : Block Float) (exported : Definition) (rebuilt : Block Float),
      fanDefinition.build .builtin = .ok b ∧
      ofJson? (ofBlock (b.edit (.setRuleEnabled 0 false))).toJson = some exported ∧
      exported.build .builtin = .ok rebuilt ∧
      triggers (b.edit (.setRuleEnabled 0 false)) = [false] ∧ triggers rebuilt = [true] := by
  have hkernel : (fanDefinition.build .builtin).map (fun b =>
      (triggers (b.edit (.setRuleEnabled 0 false)),
        triggers (b.edit (.setRuleEnabled 0 false)).enableRules)) = .ok ([false], [true]) := by
    decide +kernel
  obtain ⟨b, hbuild, htriggers⟩ := exists_of_map_eq_ok hkernel
  obtain ⟨hdisabled, henabled⟩ := Prod.mk.inj htriggers
  obtain ⟨-, hexportable, -⟩ := exportable_of_build Binary64.readsBack hbuild
  obtain ⟨exported, hexported, hrebuilt⟩ := exists_rebuilt
    (Block.exportable_edit Binary64.readsBack hexportable (.setRuleEnabled 0 false))
  exact ⟨b, exported, _, hbuild, hexported, hrebuilt, hdisabled, henabled⟩

end Definition

end FuzzyInference
