import FuzzyInference.Proofs.Binary64.Text
import FuzzyInference.Proofs.Cycle.Ranking
import FuzzyInference.Proofs.Cycle.Received

/-!
Rules in another order. In a cycle of two phases every rule is activated in the catalogue that the
cycle finds, so the position of a rule has no part in its degree. Where the strategy selects by
degree and no two candidates are as good as each other, it has no part in the selection either.
-/
namespace FuzzyInference

/-! ### Other orders -/

section Positions

variable {T U : Type}

/-- The members of a list at some positions. -/
def membersAt (positions : List Nat) (xs : List T) : List T := positions.filterMap (xs[·]?)

theorem membersAt_map (positions : List Nat) (f : T → U) (xs : List T) :
    membersAt positions (xs.map f) = (membersAt positions xs).map f := by
  simp only [membersAt, List.getElem?_map, List.map_filterMap]

theorem perm_membersAt {order : List Nat} {xs : List T} (h : order.Perm (List.range xs.length)) :
    (membersAt order xs).Perm xs := by
  have hperm := h.filterMap (xs[·]?)
  rwa [filterMap_range_getElem?] at hperm

theorem forall₂_membersAt {R : T → U → Prop} {xs : List T} {ys : List U}
    (h : List.Forall₂ R xs ys) (positions : List Nat) :
    List.Forall₂ R (membersAt positions xs) (membersAt positions ys) := by
  obtain ⟨hlength, hat⟩ := List.forall₂_iff_get.mp h
  induction positions with
  | nil => exact .nil
  | cons i rest ih =>
    simp only [membersAt, List.filterMap_cons]
    by_cases hi : i < xs.length
    · rw [List.getElem?_eq_getElem hi, List.getElem?_eq_getElem (hlength ▸ hi)]
      exact .cons (hat i hi (hlength ▸ hi)) ih
    · have hi' : ¬ i < ys.length := by omega
      rw [List.getElem?_eq_none (Nat.le_of_not_lt hi), List.getElem?_eq_none (Nat.le_of_not_lt hi')]
      exact ih

/-- Lists with the same members are the same once they are sorted, if no two members rank alike. -/
theorem mergeSort_eq_of_perm {le : T → T → Bool}
    (htrans : ∀ a b c, le a b = true → le b c = true → le a c = true)
    (htotal : ∀ a b, (le a b || le b a) = true) {xs ys : List T} (h : xs.Perm ys)
    (hantisymm : ∀ a ∈ xs, ∀ b ∈ xs, le a b = true → le b a = true → a = b) :
    xs.mergeSort le = ys.mergeSort le := by
  refine List.Perm.eq_of_pairwise ?_ (List.pairwise_mergeSort htrans htotal xs)
    (List.pairwise_mergeSort htrans htotal ys)
    ((List.mergeSort_perm xs le).trans (h.trans (List.mergeSort_perm ys le).symm))
  intro a b ha hb
  exact hantisymm a (List.mem_mergeSort.mp ha) b (h.mem_iff.mpr (List.mem_mergeSort.mp hb))

end Positions

/-- Numbers that are the same if neither of them comes before the other one. -/
class LinearlyRanked (α : Type) [Scalar α] : Prop extends Ranked α where
  totalLe_antisymm : ∀ a b : α, Scalar.totalLe a b = true → Scalar.totalLe b a = true → a = b

theorem Binary64.place_inj {x y : Float} (h : place x = place y) : x = y := by
  have hsame : isNegative x = isNegative y ∧ magnitude x = magnitude y := by
    unfold place at h
    cases hx : isNegative x <;> cases hy : isNegative y <;> simp [hx, hy] at h ⊢ <;> omega
  rw [← ofMagnitude_magnitude x, ← ofMagnitude_magnitude y, hsame.1, hsame.2]

instance : LinearlyRanked Float where
  totalLe_antisymm a b hab hba := by
    simp only [Scalar.totalLe, decide_eq_true_eq] at hab hba
    have hplace : Binary64.place a = Binary64.place b := by omega
    exact Binary64.place_inj hplace

theorem Activation.Ranks.antisymm {α : Type} [Scalar α] [LinearlyRanked α]
    {activation : Activation α} {count : Nat} {before : α → α → Bool}
    (h : activation.Ranks count before) {a b : α} (hab : before a b = true)
    (hba : before b a = true) : a = b := by
  cases h with
  | highest count => exact LinearlyRanked.totalLe_antisymm a b hba hab
  | lowest count => exact LinearlyRanked.totalLe_antisymm a b hab hba

/-! ### Both phases -/

section Phases

variable {α κ : Type} [Scalar α] [NumberText α] [Catalogue κ α] {ε : α} {cs : Combinators α}
  {catalogue : κ} {rules renewed : List (Rule α)}

/-- The degree that the rule gets in the catalogue, if it is positive. -/
def Rule.positiveDegree? (ε : α) (cs : Combinators α) (catalogue : κ) (r : Rule α) : Option α :=
  match r.renew ε cs catalogue with
  | .ok renewed => if renewed.fires ε then some renewed.degree else none
  | .error _ => none

namespace Run

theorem filterMap_positiveDegree?
    (h : List.Forall₂ (fun r r' => r.renew ε cs catalogue = .ok r') rules renewed) :
    rules.filterMap (Rule.positiveDegree? ε cs catalogue) = positiveDegrees ε renewed := by
  induction h with
  | nil => rfl
  | @cons r r' rest rest' hrenew _ ih =>
    simp only [positiveDegrees] at ih ⊢
    by_cases hfires : r'.fires ε = true
    · have hsome : r.positiveDegree? ε cs catalogue = some r'.degree := by
        simp only [Rule.positiveDegree?, hrenew, hfires, if_true]
      rw [List.filterMap_cons_some hsome, List.filter_cons_of_pos hfires, List.map_cons, ih]
    · have hnone : r.positiveDegree? ε cs catalogue = none := by
        simp only [Rule.positiveDegree?, hrenew, hfires, Bool.false_eq_true, if_false]
      rw [List.filterMap_cons_none hnone, List.filter_cons_of_neg hfires, ih]

/-- Rules in another order are renewed as they would be otherwise. -/
theorem renewAll_membersAt (h : renewAll ε cs catalogue rules = ⟨renewed, none⟩)
    (positions : List Nat) :
    renewAll ε cs catalogue (membersAt positions rules) = ⟨membersAt positions renewed, none⟩ := by
  have hall := forall₂_renewAll (congrArg Outcome.error h)
  rw [h] at hall
  exact renewAll_of_forall₂ (forall₂_membersAt hall positions)

omit [NumberText α]

variable {before : α → α → Bool} {count : Nat}

/-- The best ones among some degrees. -/
def best (before : α → α → Bool) (count : Nat) (degrees : List α) : List α :=
  (degrees.mergeSort before).take count

theorem map_snd_ranking (ε : α) (before : α → α → Bool) (rules : List (Rule α)) :
    (ranking ε before rules).map Prod.snd = (positiveDegrees ε rules).mergeSort before := by
  rw [ranking, ← map_snd_candidates]
  exact List.map_mergeSort fun _ _ _ _ => rfl

theorem eq_of_degree_eq {chosen : α → Bool} (hnodup : (positiveDegrees ε rules).Nodup)
    (hrules : ∀ r ∈ rules, r.triggered = false) {a b : Rule α}
    (ha : a ∈ (rules.map (Rule.marked ε chosen)).filter Rule.triggered)
    (hb : b ∈ (rules.map (Rule.marked ε chosen)).filter Rule.triggered)
    (h : a.degree = b.degree) : a = b := by
  have hcandidate : ∀ c ∈ (rules.map (Rule.marked ε chosen)).filter Rule.triggered,
      ∃ r ∈ rules.filter (Rule.fires ε), r.marked ε chosen = c := by
    intro c hc
    obtain ⟨hmem, htriggered⟩ := List.mem_filter.mp hc
    obtain ⟨r, hr, rfl⟩ := List.mem_map.mp hmem
    rw [Rule.triggered_marked ε chosen (hrules r hr), Bool.and_eq_true] at htriggered
    exact ⟨r, List.mem_filter.mpr ⟨hr, htriggered.1⟩, rfl⟩
  obtain ⟨r, hr, rfl⟩ := hcandidate a ha
  obtain ⟨s, hs, rfl⟩ := hcandidate b hb
  rw [Rule.degree_marked, Rule.degree_marked] at h
  rw [List.inj_on_of_nodup_map hnodup hr hs h]

/-- Where no two candidates have the same degree, a candidate is selected by its degree. -/
theorem mem_ranked_iff (hnodup : (positiveDegrees ε rules).Nodup) {i : Nat} {r : Rule α}
    (hr : rules[i]? = some r) (hfires : r.fires ε = true) :
    i ∈ ranked ε before count (degrees rules) ↔
      r.degree ∈ best before count (positiveDegrees ε rules) := by
  have hbest : best before count (positiveDegrees ε rules) =
      ((ranking ε before rules).take count).map Prod.snd := by
    rw [List.map_take, map_snd_ranking, best]
  rw [hbest]
  constructor
  · intro hi
    obtain ⟨r', hr', -, hmem⟩ := exists_of_mem_ranked hi
    obtain rfl := Option.some.inj (hr.symm.trans hr')
    exact List.mem_map_of_mem hmem
  · intro hdegree
    obtain ⟨⟨j, degree⟩, hmem, hsame⟩ := List.mem_map.mp hdegree
    have hi : (i, r.degree) ∈ ranking ε before rules := mem_ranking.mpr ⟨r, hr, hfires, rfl⟩
    have hkeys : ((ranking ε before rules).map Prod.snd).Nodup := by
      rw [map_snd_ranking]
      exact (List.mergeSort_perm _ before).nodup_iff.mpr hnodup
    have heq := List.inj_on_of_nodup_map hkeys (List.mem_of_mem_take hmem) hi hsame
    rw [ranked_degrees]
    exact List.mem_map.mpr ⟨_, hmem, congrArg Prod.fst heq⟩

end Run

namespace Activation.Ranks

variable {activation : Activation α} {count : Nat} {before : α → α → Bool}

/-- Where no two candidates have the same degree, those with the best degrees are triggered, in the
order of their degrees. -/
theorem run_of_nodup [Ranked α] (h : activation.Ranks count before)
    (hrenewed : Run.renewAll ε cs catalogue rules = ⟨renewed, none⟩)
    (hnodup : (Run.positiveDegrees ε renewed).Nodup) {chosen : α → Bool}
    (hchosen : ∀ degree, chosen degree = true ↔
      degree ∈ Run.best before count (Run.positiveDegrees ε renewed)) :
    let marked := renewed.map (Rule.marked ε chosen)
    activation.run ε cs rules catalogue =
      ⟨marked, writeAll ε cs.implication
        ((marked.filter Rule.triggered).mergeSort fun r s => before r.degree s.degree) catalogue,
        none⟩ := by
  intro marked
  obtain ⟨htrans, htotal⟩ := h.order
  have hselect : ∀ (i : Nat) (r : Rule α), renewed[i]? = some r → r.fires ε = true →
      (i ∈ Run.ranked ε before count (Run.degrees renewed) ↔ chosen r.degree = true) := by
    intro i r hr hfires
    rw [hchosen]
    exact Run.mem_ranked_iff hnodup hr hfires
  have herror := error_run_of_isTwoPhase h.isTwoPhase (congrArg Outcome.error hrenewed)
  rw [h.run_eq] at herror ⊢
  simp only [Run.twoPhase, hrenewed, id] at herror ⊢
  have hrules : _ = marked := Run.rules_triggerAt herror hselect
  have hcatalogue := Run.catalogue_of_ranked htrans htotal (Run.triggered_of_renewAll hrenewed)
    herror
  rw [hrules] at hcatalogue
  rw [← hcatalogue, ← hrules, ← herror]

/-- Such a cycle leaves the same catalogue if the rules come in another order. -/
theorem run_membersAt [LinearlyRanked α] (h : activation.Ranks count before)
    (hrenewed : Run.renewAll ε cs catalogue rules = ⟨renewed, none⟩)
    (hnodup : (Run.positiveDegrees ε renewed).Nodup) {order : List Nat}
    (horder : order.Perm (List.range renewed.length)) :
    let run := activation.run ε cs rules catalogue
    run.error = none ∧ activation.run ε cs (membersAt order rules) catalogue =
      ⟨membersAt order run.rules, run.catalogue, none⟩ := by
  classical
  intro run
  obtain ⟨htrans, htotal⟩ := h.order
  have hdegrees : (Run.positiveDegrees ε renewed).Perm
      (Run.positiveDegrees ε (membersAt order renewed)) :=
    ((perm_membersAt horder).symm.filter _).map Rule.degree
  have hbest : Run.best before count (Run.positiveDegrees ε renewed) =
      Run.best before count (Run.positiveDegrees ε (membersAt order renewed)) := by
    have hsorted := mergeSort_eq_of_perm htrans htotal hdegrees fun _ _ _ _ => h.antisymm
    rw [Run.best, Run.best, hsorted]
  -- Both cycles choose the same degrees, and with them the same rules.
  let chosen (degree : α) : Bool :=
    decide (degree ∈ Run.best before count (Run.positiveDegrees ε renewed))
  let marked := renewed.map (Rule.marked ε chosen)
  have hchosen : ∀ degree, chosen degree = true ↔
      degree ∈ Run.best before count (Run.positiveDegrees ε renewed) :=
    fun _ => decide_eq_true_iff
  have hrun : run = _ := h.run_of_nodup hrenewed hnodup hchosen
  have hrun' := h.run_of_nodup (Run.renewAll_membersAt hrenewed order)
    (hdegrees.nodup_iff.mp hnodup) (hbest ▸ hchosen)
  rw [← membersAt_map] at hrun'
  have hmarked : order.Perm (List.range marked.length) := by
    rw [List.length_map]
    exact horder
  have hsorted := mergeSort_eq_of_perm
    (fun r s t : Rule α => htrans r.degree s.degree t.degree)
    (fun r s => htotal r.degree s.degree)
    ((perm_membersAt hmarked).symm.filter Rule.triggered)
    fun r hr s hs hrs hsr => Run.eq_of_degree_eq hnodup (Run.triggered_of_renewAll hrenewed)
      hr hs (h.antisymm hrs hsr)
  rw [hrun, hrun', hsorted]
  exact ⟨rfl, rfl⟩

end Activation.Ranks

end Phases

/-! ### Received conclusions -/

section Received

variable {α : Type} [Scalar α] {ε : α}

/-- From the first variables on, the output variables receive the same conclusions in the second and
the third ones, maybe in another order. -/
def Variables.ReceiveAlike (vs vs' vs'' : Variables α) : Prop :=
  ∀ (index : Nat) (v : OutputVariable α), vs.outputs[index]? = some v →
    ∃ entries entries', entries.Perm entries' ∧
      vs'.outputs[index]? = some (v.pushAll entries) ∧
      vs''.outputs[index]? = some (v.pushAll entries')

omit [Scalar α] in
theorem Conclusion.perm_entriesFor {conclusions conclusions' : List (Conclusion α)}
    (h : conclusions.Perm conclusions') (index : Nat) :
    (entriesFor index conclusions).Perm (entriesFor index conclusions') :=
  (h.filter _).map entry

theorem Variables.receiveAlike_writeAll {rules rules' : List (Rule α)} (h : rules.Perm rules')
    (ε : α) (implication : Option (TNorm α)) (vs : Variables α) :
    vs.ReceiveAlike (writeAll ε implication rules vs) (writeAll ε implication rules' vs) := by
  intro index v hv
  have hsame : ∀ id, vs.isEnabled id = vs.isEnabled id := fun _ => rfl
  have hdrawn := h.flatMap_right (Rule.drawn ε implication vs)
  refine ⟨_, _, Conclusion.perm_entriesFor hdrawn index, ?_, ?_⟩
  · rw [writeAll_eq_foldl hsame, getElem?_outputs_foldl, hv, Option.map_some]
  · rw [writeAll_eq_foldl hsame, getElem?_outputs_foldl, hv, Option.map_some]

variable [NumberText α]

/-- Under a threshold, rules in another order conclude the same, maybe in another order. -/
theorem Activation.run_threshold_membersAt (comparison : Comparison) (value : α)
    {cs : Combinators α} {vs : Variables α} {rules renewed : List (Rule α)}
    (hrenewed : Run.renewAll ε cs vs rules = ⟨renewed, none⟩) {order : List Nat}
    (horder : order.Perm (List.range renewed.length)) :
    let run := (threshold comparison value).run ε cs rules vs
    run.error = none ∧ ∃ vs', vs.ReceiveAlike run.catalogue vs' ∧
      (threshold comparison value).run ε cs (membersAt order rules) vs =
        ⟨membersAt order run.rules, vs', none⟩ := by
  intro run
  have hrun : run = _ := run_threshold comparison value hrenewed
  have hrun' := run_threshold comparison value (Run.renewAll_membersAt hrenewed order)
  rw [← membersAt_map] at hrun'
  let marked := renewed.map (Rule.marked ε (comparison.holds ε · value))
  have hmarked : order.Perm (List.range marked.length) := by
    rw [List.length_map]
    exact horder
  have htriggered := (perm_membersAt hmarked).symm.filter Rule.triggered
  rw [hrun, hrun']
  exact ⟨rfl, _, Variables.receiveAlike_writeAll htriggered ε cs.implication vs, rfl⟩

end Received

/-! ### Blocks -/

namespace Block

variable {α κ : Type} [Scalar α] [NumberText α] [Catalogue κ α] {ε : α}

omit [Scalar α] [NumberText α] in
/-- The block with its rules in another order. -/
def reorder (order : List Nat) (b : Block α) : Block α := { b with rules := membersAt order b.rules }

/-- From a catalogue on, the block and the one with its rules in another order end without an error,
and each rule gets the same degree and the same flag in both. What the blocks leave of the catalogue
is related. -/
structure IgnoresOrder (ε : α) (start : κ) (order : List Nat) (R : κ → κ → Prop) (b : Block α) :
    Prop where
  error : (b.run ε start).error = none
  error_reorder : ((b.reorder order).run ε start).error = none
  rules : ((b.reorder order).run ε start).state.1.rules =
    membersAt order (b.run ε start).state.1.rules
  catalogue : R (b.run ε start).state.2 ((b.reorder order).run ε start).state.2

/-- What the run of the rules does not tell apart, the block does not either. -/
theorem ignoresOrder_of_run {b : Block α} {start catalogue : κ} {order : List Nat}
    {R : κ → κ → Prop} (hstart : R start start) {activation : Activation α}
    (herror : (activation.run ε b.combinators b.rules start).error = none)
    (hrun : activation.run ε b.combinators (membersAt order b.rules) start =
      ⟨membersAt order (activation.run ε b.combinators b.rules start).rules, catalogue, none⟩)
    (hcatalogue : R (activation.run ε b.combinators b.rules start).catalogue catalogue) :
    IgnoresOrder ε start order R { b with activation := some activation } := by
  let before : Block α := { b with activation := some activation }
  let after := before.reorder order
  by_cases henabled : b.enabled = true
  · have hbefore := run_of_enabled (b := before) henabled ε start
    have hafter := run_of_enabled (b := after) henabled ε start
    simp only [before, after, reorder, Option.getD_some, hrun] at hbefore hafter
    constructor <;> simp only [reorder, hbefore, hafter]
    · exact herror
    · exact hcatalogue
  · have hdisabled : b.enabled = false := by simpa using henabled
    have hbefore := run_of_disabled (b := before) hdisabled ε start
    have hafter := run_of_disabled (b := after) hdisabled ε start
    simp only [before, after, reorder] at hbefore hafter
    constructor <;> simp only [reorder, hbefore, hafter]
    exact hstart

/-- If all enabled rules can be activated, the order of the rules is no matter for a threshold, but
for the order of the conclusions. It is no matter for the best rules if no two positive degrees are
the same, and then the conclusions come in the same order. -/
theorem ignoresOrder_of_activate [LinearlyRanked α] {b : Block α} {vs : Variables α}
    (h : ∀ r ∈ b.rules, r.enabled = true →
      ∃ r', r.deactivate.activate ε b.combinators vs = .ok r')
    {order : List Nat} (horder : order.Perm (List.range b.rules.length)) :
    (∀ (comparison : Comparison) (value : α), IgnoresOrder ε vs order vs.ReceiveAlike
      { b with activation := some (.threshold comparison value) }) ∧
    ((b.rules.filterMap (Rule.positiveDegree? ε b.combinators vs)).Nodup → ∀ count : Nat,
      IgnoresOrder ε vs order Eq { b with activation := some (.highest count) } ∧
        IgnoresOrder ε vs order Eq { b with activation := some (.lowest count) }) := by
  have hnone := Run.error_renewAll h
  have hall := Run.forall₂_renewAll hnone
  have hrenewed := Run.renewAll_of_forall₂ hall
  rw [hall.length_eq] at horder
  constructor
  · intro comparison value
    obtain ⟨herror, vs', hreceive, hrun⟩ :=
      Activation.run_threshold_membersAt comparison value hrenewed horder
    exact ignoresOrder_of_run (Variables.receiveAlike_writeAll (.refl []) ε none vs) herror hrun
      hreceive
  · intro hnodup count
    rw [Run.filterMap_positiveDegree? hall] at hnodup
    have hranks : ∀ {activation : Activation α} {before : α → α → Bool},
        activation.Ranks count before →
        IgnoresOrder ε vs order Eq { b with activation := some activation } := by
      intro activation before hranks
      obtain ⟨herror, hrun⟩ := hranks.run_membersAt hrenewed hnodup horder
      exact ignoresOrder_of_run rfl herror hrun rfl
    exact ⟨hranks (.highest count), hranks (.lowest count)⟩

/-- Three of the rules are candidates, and no two of them are as good as each other. -/
def airing : Block Float where
  name := "speed"
  rules := [
    { Engine.fanRule with weight := 0.5 },
    { Engine.fanRule with enabled := false, triggered := true },
    Engine.fanRule,
    { Engine.fanRule with weight := 0.25 }]

/-- The rules are taken from the last one to the first one. -/
theorem ignoresOrder_airing :
    let highest : Block Float := { airing with activation := some (.highest 2) }
    let threshold : Block Float := { airing with activation := some (.threshold .less 0.5) }
    (∀ r ∈ airing.rules, r.enabled = true → ∃ r',
      r.deactivate.activate Binary64.defaultTolerance airing.combinators Engine.fan.vars =
        .ok r') ∧
    [3, 2, 1, 0].Perm (List.range airing.rules.length) ∧
    (airing.rules.filterMap (Rule.positiveDegree? Binary64.defaultTolerance airing.combinators
      Engine.fan.vars)).Nodup ∧
    IgnoresOrder Binary64.defaultTolerance Engine.fan.vars [3, 2, 1, 0]
      Engine.fan.vars.ReceiveAlike threshold ∧
    IgnoresOrder Binary64.defaultTolerance Engine.fan.vars [3, 2, 1, 0] Eq highest ∧
    ((threshold.reorder [3, 2, 1, 0]).run Binary64.defaultTolerance
      Engine.fan.vars).state.1.rules.map Rule.triggered = [true, false, false, true] := by
  intro highest threshold
  have hactivate : ∀ r ∈ airing.rules, r.enabled = true → ∃ r',
      r.deactivate.activate Binary64.defaultTolerance airing.combinators Engine.fan.vars =
        .ok r' := by
    intro r hr henabled
    have hok : ∀ r ∈ airing.rules, (r.deactivate.activate Binary64.defaultTolerance
        airing.combinators Engine.fan.vars).isOk = true := by
      decide +kernel
    have hrule := hok r hr
    cases hresult : r.deactivate.activate Binary64.defaultTolerance airing.combinators
        Engine.fan.vars with
    | ok r' => exact ⟨r', rfl⟩
    | error cause =>
      rw [hresult] at hrule
      cases hrule
  have horder : [3, 2, 1, 0].Perm (List.range airing.rules.length) := by decide
  have hnodup : (airing.rules.filterMap (Rule.positiveDegree? Binary64.defaultTolerance
      airing.combinators Engine.fan.vars)).Nodup := by
    decide +kernel
  obtain ⟨hthreshold, hranks⟩ := ignoresOrder_of_activate hactivate horder
  exact ⟨hactivate, horder, hnodup, hthreshold .less 0.5, (hranks hnodup 2).1, by decide +kernel⟩

end Block

end FuzzyInference
