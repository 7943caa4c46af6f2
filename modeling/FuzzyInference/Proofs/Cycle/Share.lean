import FuzzyInference.Proofs.Cycle.History
import FuzzyInference.Proofs.Cycle.Selection

/-!
Cycles that share. A proportional strategy divides the degrees of the enabled rules by their sum
and then triggers these rules. Whether a rule has something to conclude is judged by its share, so a
rule with a positive degree may end up without a conclusion next to rules with far greater ones.
-/
namespace FuzzyInference

variable {α κ : Type} [Scalar α] [Catalogue κ α] {ε : α} {cs : Combinators α} {catalogue : κ}

namespace Rule

/-- The rule can be activated, and its degree then is the weighted one of its antecedent. -/
structure ActivatesTo (ε : α) (cs : Combinators α) (catalogue : κ) (r : Rule α) (degree : α) :
    Prop where
  isLoaded : r.isLoaded = true
  degree : ∃ x, r.antecedent.degree ε cs catalogue = .ok x ∧ degree = r.weight * x

/-- The rule as it is activated with the degree that is given for it. -/
def activated (raw : Rule α → α) (r : Rule α) : Rule α :=
  if r.enabled then { r.deactivate with degree := raw r } else r.deactivate

/-- The rule with its share of a sum, triggered if the share is positive. -/
def shared (ε : α) (raw : Rule α → α) (sum : α) (r : Rule α) : Rule α :=
  if r.enabled then
    { r with degree := raw r / sum, triggered := Tolerance.gt ε (raw r / sum) Scalar.zero }
  else r.deactivate

theorem enabled_activated (raw : Rule α → α) (r : Rule α) :
    (r.activated raw).enabled = r.enabled := by
  unfold activated
  split <;> rfl

theorem ActivatesTo.activate [NumberText α] {r : Rule α} {degree : α}
    (h : r.ActivatesTo ε cs catalogue degree) :
    r.deactivate.activate ε cs catalogue = .ok { r.deactivate with degree } := by
  obtain ⟨hloaded, x, hx, rfl⟩ := h
  have hloaded : r.deactivate.isLoaded = true := hloaded
  have hx : r.deactivate.antecedent.degree ε cs catalogue = .ok x := hx
  rw [Rule.activate, hloaded, hx]
  rfl

theorem renew_eq_activated [NumberText α] {raw : Rule α → α} {r : Rule α}
    (h : r.enabled = true → r.ActivatesTo ε cs catalogue (raw r)) :
    r.renew ε cs catalogue = .ok (r.activated raw) := by
  unfold renew activated
  by_cases henabled : r.enabled = true
  · rw [if_pos henabled, if_pos henabled]
    exact (h henabled).activate
  · rw [if_neg henabled, if_neg henabled]

end Rule

/-! ### Sums and shares -/

namespace Run

variable {rules renewed : List (Rule α)}

omit [Scalar α] [Catalogue κ α] in
theorem map_snd_degrees (rules : List (Rule α)) :
    (degrees rules).map Prod.snd = (rules.filter Rule.enabled).map Rule.degree := by
  have hfilter : (rules.zipIdx.map Prod.fst).filter Rule.enabled =
      (rules.zipIdx.filter fun p => p.1.enabled).map Prod.fst := List.filter_map
  rw [List.zipIdx_map_fst] at hfilter
  rw [hfilter, degrees, List.map_map, List.map_map]
  rfl

/-- The sum of degrees that the enabled rules are divided by. -/
def sum (raw : Rule α → α) (rules : List (Rule α)) : α :=
  ((rules.filter Rule.enabled).map raw).foldl (· + ·) Scalar.zero

omit [Catalogue κ α] in
theorem foldl_degrees_activated (raw : Rule α → α) (rules : List (Rule α)) :
    (degrees (rules.map (Rule.activated raw))).foldl (fun sum p => sum + p.2) Scalar.zero =
      sum raw rules := by
  have hfilter : (rules.map (Rule.activated raw)).filter Rule.enabled =
      (rules.filter Rule.enabled).map (Rule.activated raw) := by
    rw [List.filter_map]
    refine congrArg (List.map (Rule.activated raw)) (List.filter_congr fun r _ => ?_)
    exact r.enabled_activated raw
  have hdegree : ∀ r ∈ rules.filter Rule.enabled, (r.activated raw).degree = raw r := by
    intro r hr
    have henabled : r.enabled = true := (List.mem_filter.mp hr).2
    rw [Rule.activated, if_pos henabled]
  have hraw : (degrees (rules.map (Rule.activated raw))).map Prod.snd =
      (rules.filter Rule.enabled).map raw := by
    rw [map_snd_degrees, hfilter, List.map_map]
    exact List.map_congr_left hdegree
  rw [sum, ← hraw, List.foldl_map]

omit [Catalogue κ α] in
/-- Sharing keeps every rule at its position, and whether it is enabled. -/
theorem getElem?_share {i : Nat} {r : Rule α} (h : (share ε renewed)[i]? = some r) :
    ∃ r₀, renewed[i]? = some r₀ ∧ r₀.enabled = r.enabled := by
  simp only [share] at h
  split at h
  · rw [List.getElem?_map] at h
    obtain ⟨r₀, hr₀, rfl⟩ := Option.map_eq_some_iff.mp h
    refine ⟨r₀, hr₀, ?_⟩
    split <;> rfl
  · exact ⟨r, h, rfl⟩

end Run

/-! ### Proportional runs -/

variable [NumberText α] {rules renewed : List (Rule α)}

/-- A proportional run triggers the enabled rules whose shares are positive. -/
theorem Activation.run_proportional (h : Run.renewAll ε cs catalogue rules = ⟨renewed, none⟩) :
    let marked := (Run.share ε renewed).map (Rule.marked ε fun _ => true)
    (proportional : Activation α).run ε cs rules catalogue =
      ⟨marked, writeAll ε cs.implication (marked.filter Rule.triggered) catalogue, none⟩ := by
  intro marked
  have hselect : ∀ (i : Nat) (r : Rule α), (Run.share ε renewed)[i]? = some r →
      r.fires ε = true → (i ∈ (Run.degrees renewed).map Prod.fst ↔ true = true) := by
    intro i r hr hfires
    obtain ⟨r₀, hr₀, henabled⟩ := Run.getElem?_share hr
    rw [Rule.fires, Bool.and_eq_true, ← henabled] at hfires
    refine iff_of_true (List.mem_map.mpr ⟨(i, r₀.degree), ?_, rfl⟩) rfl
    exact Run.mem_degrees.mpr ⟨r₀, hr₀, hfires.1, rfl⟩
  have hlength : (Run.share ε renewed).length = renewed.length := by
    simpa using congrArg List.length (Run.deactivate_share ε renewed)
  have hsublist := Run.degrees_sublist renewed
  rw [← hlength] at hsublist
  have hunmarked : ∀ r ∈ Run.share ε renewed, r.triggered = false :=
    Run.triggered_share (Run.triggered_of_renewAll h)
  have herror := error_run_of_isTwoPhase .proportional (congrArg Outcome.error h)
  simp only [run, Run.twoPhase, h] at herror ⊢
  have hrules : _ = marked := Run.rules_triggerAt herror hselect
  have hcatalogue := Run.catalogue_of_sublist hsublist hunmarked herror
  rw [hrules] at hcatalogue
  rw [← hcatalogue, ← hrules, ← herror]

omit [NumberText α] in
theorem Rule.marked_share {raw : Rule α → α} {sum : α} (r : Rule α) :
    (if (r.activated raw).enabled then
        { r.activated raw with degree := (r.activated raw).degree / sum }
      else r.activated raw).marked ε (fun _ => true) = r.shared ε raw sum := by
  by_cases henabled : r.enabled = true
  · by_cases hpositive : Tolerance.gt ε (raw r / sum) Scalar.zero = true
    · simp [marked, fires, activated, shared, deactivate, henabled, hpositive]
    · simp [marked, fires, activated, shared, deactivate, henabled, hpositive]
  · simp [marked, fires, activated, shared, henabled]

/-- Where the degrees have a positive sum, a proportional cycle leaves every enabled rule with its
share of it, and triggered if the share is positive; the others are deactivated. The catalogue takes
the conclusions of the triggered rules. -/
theorem Block.run_eq_shared {b : Block α} (henabled : b.enabled = true)
    (hactivation : b.activation = some .proportional) {raw : Rule α → α}
    (hraw : ∀ r ∈ b.rules, r.enabled = true →
      r.ActivatesTo ε b.combinators catalogue (raw r))
    (hsum : Tolerance.gt ε (Run.sum raw b.rules) Scalar.zero = true) :
    let rules := b.rules.map (Rule.shared ε raw (Run.sum raw b.rules))
    b.run ε catalogue = ⟨({ b with rules },
      writeAll ε b.combinators.implication (rules.filter Rule.triggered) catalogue), none⟩ := by
  intro rules
  have hrenewed : Run.renewAll ε b.combinators catalogue b.rules =
      ⟨b.rules.map (Rule.activated raw), none⟩ := by
    refine Run.renewAll_of_forall₂ (List.forall₂_map_right_iff.mpr ?_)
    exact List.forall₂_same.mpr fun r hr => Rule.renew_eq_activated (hraw r hr)
  have hshare : (Run.share ε (b.rules.map (Rule.activated raw))).map
      (Rule.marked ε fun _ => true) = rules := by
    simp only [Run.share, Run.foldl_degrees_activated, hsum, if_true, List.map_map]
    exact List.map_congr_left fun r _ => r.marked_share
  have hrun := Activation.run_proportional hrenewed
  rw [hshare] at hrun
  rw [Block.run_of_enabled henabled, hactivation, Option.getD_some, hrun]

/-- Two rules with the same antecedent, one of them with four million times the weight. -/
def Block.trickle : Block Float where
  name := "speed"
  activation := some .proportional
  rules := [{ Engine.fanRule with weight := 4000000 }, Engine.fanRule]

def Block.rawTrickle (r : Rule Float) : Float :=
  r.weight * Engine.fan.vars.membership ⟨.input, 0⟩ ⟨0⟩

theorem Block.activatesTo_trickle : ∀ r ∈ trickle.rules, r.enabled = true →
    r.ActivatesTo Binary64.defaultTolerance trickle.combinators Engine.fan.vars (rawTrickle r) := by
  intro r hr _
  rcases List.mem_pair.mp hr with rfl | rfl
  · exact ⟨rfl, _, rfl, rfl⟩
  · exact ⟨rfl, _, rfl, rfl⟩

/-- The light rule gets its share, which is not positive. -/
theorem Block.run_eq_shared_trickle :
    Tolerance.gt Binary64.defaultTolerance (Run.sum rawTrickle trickle.rules) Scalar.zero = true ∧
      (trickle.run Binary64.defaultTolerance Engine.fan.vars).state.1.rules =
        trickle.rules.map (Rule.shared Binary64.defaultTolerance rawTrickle
          (Run.sum rawTrickle trickle.rules)) ∧
      (trickle.run Binary64.defaultTolerance Engine.fan.vars).error = none := by
  have hsum : Tolerance.gt Binary64.defaultTolerance (Run.sum rawTrickle trickle.rules)
    Scalar.zero = true := by decide +kernel
  have hrun := run_eq_shared rfl rfl activatesTo_trickle hsum
  rw [hrun]
  exact ⟨hsum, rfl, rfl⟩

/-- A positive degree alone does not get a rule triggered. -/
theorem Block.not_triggered_of_positive : ¬ ∀ (b : Block Float) (raw : Rule Float → Float),
    b.enabled = true → b.activation = some .proportional →
    (∀ r ∈ b.rules, r.enabled = true →
      r.ActivatesTo Binary64.defaultTolerance b.combinators Engine.fan.vars (raw r)) →
    Tolerance.gt Binary64.defaultTolerance (Run.sum raw b.rules) Scalar.zero = true →
    ∀ (i : Nat) (r r' : Rule Float), b.rules[i]? = some r → r.enabled = true →
      Tolerance.gt Binary64.defaultTolerance (raw r) Scalar.zero = true →
      (b.run Binary64.defaultTolerance Engine.fan.vars).state.1.rules[i]? = some r' →
      r'.triggered = true := by
  intro h
  have hsum : Tolerance.gt Binary64.defaultTolerance (Run.sum rawTrickle trickle.rules)
    Scalar.zero = true := by decide +kernel
  have hpositive : Tolerance.gt Binary64.defaultTolerance (rawTrickle Engine.fanRule)
    Scalar.zero = true := by decide +kernel
  have hfinal : (trickle.run Binary64.defaultTolerance Engine.fan.vars).state.1.rules[1]?.map
    Rule.triggered = some false := by decide +kernel
  obtain ⟨r', hr', hnot⟩ := Option.map_eq_some_iff.mp hfinal
  have htriggered := h trickle rawTrickle rfl rfl activatesTo_trickle hsum 1 Engine.fanRule r' rfl
    rfl hpositive hr'
  rw [hnot] at htriggered
  cases htriggered

end FuzzyInference
