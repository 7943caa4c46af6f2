import FuzzyInference.Proofs.Cycle.Selection

/-!
Strategies that trigger the best rules. After the first phase every enabled rule has its degree, and
those with a positive one are candidates. They are ranked by degree, and by position where degrees
are equal, and the second phase triggers the front of this ranking, one rule after another.
-/
namespace FuzzyInference

/-! ### Rankings -/

section Ranks

variable {α : Type} {before : α → α → Bool}

/-- The first of two degrees with their positions is the better one, or is as good and has the
earlier position. -/
def Outranks (before : α → α → Bool) (a b : Nat × α) : Prop :=
  before a.2 b.2 = true ∧ (before b.2 a.2 = true → a.1 < b.1)

/-- Sorting by degree ranks degrees that come in the order of their positions. -/
theorem pairwise_outranks_mergeSort
    (htrans : ∀ a b c, before a b = true → before b c = true → before a c = true)
    (htotal : ∀ a b, (before a b || before b a) = true) {degrees : List (Nat × α)}
    (h : degrees.Pairwise fun a b => a.1 < b.1) :
    (degrees.mergeSort fun a b => before a.2 b.2).Pairwise (Outranks before) := by
  induction degrees with
  | nil => simp
  | cons a rest ih =>
    obtain ⟨hfirst, hrest⟩ := List.pairwise_cons.mp h
    obtain ⟨left, right, hcons, hsplit, hleft⟩ := List.mergeSort_cons
      (fun a b c : Nat × α => htrans a.2 b.2 c.2) (fun a b => htotal a.2 b.2) a rest
    have hsorted := List.pairwise_mergeSort
      (fun a b c : Nat × α => htrans a.2 b.2 c.2) (fun a b => htotal a.2 b.2) (a :: rest)
    rw [hcons] at hsorted ⊢
    have hranked := hsplit ▸ ih hrest
    obtain ⟨hleft', hright', hacross⟩ := List.pairwise_append.mp hranked
    have hmem : ∀ b ∈ right, b ∈ rest := by
      intro b hb
      have hb' : b ∈ left ++ right := List.mem_append_right left hb
      exact List.mem_mergeSort.mp (hsplit ▸ hb')
    have hafter : ∀ b ∈ right, Outranks before a b := by
      intro b hb
      obtain ⟨-, hsorted, -⟩ := List.pairwise_append.mp hsorted
      exact ⟨(List.pairwise_cons.mp hsorted).1 b hb, fun _ => hfirst b (hmem b hb)⟩
    have hbefore : ∀ b ∈ left, Outranks before b a := by
      intro b hb
      have hworse : before a.2 b.2 = false := by simpa using hleft b hb
      have hbetter := htotal b.2 a.2
      rw [hworse, Bool.or_false] at hbetter
      exact ⟨hbetter, fun hb => absurd (hb.symm.trans hworse) Bool.noConfusion⟩
    refine List.pairwise_append.mpr ⟨hleft', List.pairwise_cons.mpr ⟨hafter, hright'⟩, ?_⟩
    intro b hb c hc
    rcases List.mem_cons.mp hc with rfl | hc
    · exact hbefore b hb
    · exact hacross b hb c hc

theorem Run.pairwise_degrees (rules : List (Rule α)) :
    (degrees rules).Pairwise fun a b => a.1 < b.1 := by
  have hsorted := List.pairwise_lt_range.sublist (degrees_sublist rules)
  exact List.pairwise_map.mp hsorted

end Ranks

/-! ### Candidates -/

section Candidates

variable {α : Type} [Scalar α] {ε : α}

namespace Run

omit [Scalar α] in
theorem degrees_congr {rules rules' : List (Rule α)}
    (henabled : rules'.map Rule.enabled = rules.map Rule.enabled)
    (hdegree : rules'.map Rule.degree = rules.map Rule.degree) :
    degrees rules' = degrees rules := by
  have hview : ∀ rules : List (Rule α), degrees rules =
      (((rules.map Rule.enabled).zip (rules.map Rule.degree)).zipIdx.filter (·.1.1)).map
        fun p => (p.2, p.1.2) := by
    intro rules
    rw [List.zip_map', List.zipIdx_map, List.filter_map, List.map_map]
    rfl
  rw [hview, hview, henabled, hdegree]

/-- The positions of the enabled rules with a positive degree, and these degrees. -/
def candidates (ε : α) (rules : List (Rule α)) : List (Nat × α) :=
  (degrees rules).filter fun (_, degree) => Tolerance.gt ε degree Scalar.zero

theorem mem_candidates {rules : List (Rule α)} {index : Nat} {degree : α} :
    (index, degree) ∈ candidates ε rules ↔
      ∃ r, rules[index]? = some r ∧ r.fires ε = true ∧ r.degree = degree := by
  simp only [candidates, List.mem_filter, mem_degrees, Rule.fires, Bool.and_eq_true]
  constructor
  · rintro ⟨⟨r, hr, henabled, rfl⟩, hpositive⟩
    exact ⟨r, hr, ⟨henabled, hpositive⟩, rfl⟩
  · rintro ⟨r, hr, ⟨henabled, hpositive⟩, rfl⟩
    exact ⟨⟨r, hr, henabled, rfl⟩, hpositive⟩

/-- The positive degrees of the enabled ones among some rules. -/
def positiveDegrees (ε : α) (rules : List (Rule α)) : List α :=
  (rules.filter (Rule.fires ε)).map Rule.degree

theorem map_snd_candidates (ε : α) (rules : List (Rule α)) :
    (candidates ε rules).map Prod.snd = positiveDegrees ε rules := by
  have hfst : rules.zipIdx.map Prod.fst = rules := List.zipIdx_map_fst 0 rules
  conv_rhs => rw [← hfst]
  rw [candidates, degrees, positiveDegrees, List.filter_map, List.filter_filter, List.filter_map,
    List.map_map, List.map_map]
  refine congrArg (List.map _) (List.filter_congr fun p _ => ?_)
  simp [Rule.fires, Bool.and_comm]

theorem length_candidates (rules : List (Rule α)) :
    (candidates ε rules).length = rules.countP (Rule.fires ε) := by
  have hdegrees := congrArg List.length (map_snd_candidates ε rules)
  rwa [List.length_map, positiveDegrees, List.length_map, ← List.countP_eq_length_filter]
    at hdegrees

section Ranked

variable {before : α → α → Bool} {count : Nat} {rules : List (Rule α)}

/-- All candidates, the best one first. -/
def ranking (ε : α) (before : α → α → Bool) (rules : List (Rule α)) : List (Nat × α) :=
  (candidates ε rules).mergeSort fun a b => before a.2 b.2

theorem ranked_degrees (ε : α) (before : α → α → Bool) (count : Nat) (rules : List (Rule α)) :
    ranked ε before count (degrees rules) = ((ranking ε before rules).take count).map Prod.fst :=
  rfl

theorem mem_ranking {index : Nat} {degree : α} :
    (index, degree) ∈ ranking ε before rules ↔
      ∃ r, rules[index]? = some r ∧ r.fires ε = true ∧ r.degree = degree :=
  List.mem_mergeSort.trans mem_candidates

theorem pairwise_candidates : (candidates ε rules).Pairwise fun a b => a.1 < b.1 :=
  (pairwise_degrees rules).filter _

theorem nodup_ranked : (ranked ε before count (degrees rules)).Nodup := by
  have hcandidates : ((candidates ε rules).map Prod.fst).Nodup :=
    List.pairwise_map.mpr (pairwise_candidates.imp Nat.ne_of_lt)
  have hranking : ((ranking ε before rules).map Prod.fst).Nodup :=
    ((List.mergeSort_perm ..).map Prod.fst).nodup_iff.mpr hcandidates
  exact ((List.take_sublist count _).map Prod.fst).nodup hranking

theorem length_ranked : (ranked ε before count (degrees rules)).length =
    min count (rules.countP (Rule.fires ε)) := by
  rw [ranked_degrees, List.length_map, List.length_take, ranking, List.length_mergeSort,
    length_candidates]

theorem exists_of_mem_ranked {i : Nat} (h : i ∈ ranked ε before count (degrees rules)) :
    ∃ r, rules[i]? = some r ∧ r.fires ε = true ∧
      (i, r.degree) ∈ (ranking ε before rules).take count := by
  obtain ⟨⟨i, degree⟩, hmem, rfl⟩ := List.mem_map.mp h
  obtain ⟨r, hr, hfires, rfl⟩ := mem_ranking.mp (List.mem_of_mem_take hmem)
  exact ⟨r, hr, hfires, hmem⟩

variable (htrans : ∀ a b c, before a b = true → before b c = true → before a c = true)
  (htotal : ∀ a b, (before a b || before b a) = true)

include htrans htotal

theorem pairwise_ranking (ε : α) (rules : List (Rule α)) :
    (ranking ε before rules).Pairwise (Outranks before) :=
  pairwise_outranks_mergeSort htrans htotal pairwise_candidates

theorem pairwise_ranked : (ranked ε before count (degrees rules)).Pairwise fun i j =>
    ∀ r ∈ rules[i]?, ∀ s ∈ rules[j]?, Outranks before (i, r.degree) (j, s.degree) := by
  have hdegree : ∀ a ∈ (ranking ε before rules).take count, ∀ r ∈ rules[a.1]?,
      r.degree = a.2 := by
    intro a ha r hr
    obtain ⟨s, hs, -, hdegree⟩ := mem_ranking.mp (List.mem_of_mem_take ha)
    obtain rfl := Option.some.inj (hs.symm.trans hr)
    exact hdegree
  refine List.pairwise_map.mpr ?_
  have hranking := (pairwise_ranking htrans htotal ε rules).sublist (List.take_sublist count _)
  refine hranking.imp_of_mem ?_
  intro a b ha hb hab r hr s hs
  rw [hdegree a ha r hr, hdegree b hb s hs]
  exact hab

/-- What is selected ranks before the candidates that are not. -/
theorem outranks_of_ranked {i j : Nat} {r s : Rule α} (hr : rules[i]? = some r)
    (hs : rules[j]? = some s) (hi : i ∈ ranked ε before count (degrees rules))
    (hj : j ∉ ranked ε before count (degrees rules)) (hfires : s.fires ε = true) :
    Outranks before (i, r.degree) (j, s.degree) := by
  have hranking := pairwise_ranking htrans htotal ε rules
  have hsplit := List.take_append_drop count (ranking ε before rules)
  obtain ⟨r', hr', -, hfront⟩ := exists_of_mem_ranked hi
  obtain rfl := Option.some.inj (hr.symm.trans hr')
  have hback : (j, s.degree) ∈ (ranking ε before rules).drop count := by
    have hmem : (j, s.degree) ∈ ranking ε before rules :=
      mem_ranking.mpr ⟨s, hs, hfires, rfl⟩
    rw [← hsplit] at hmem
    rcases List.mem_append.mp hmem with hmem | hmem
    · exact absurd (List.mem_map_of_mem hmem) hj
    · exact hmem
  rw [← hsplit] at hranking
  exact (List.pairwise_append.mp hranking).2.2 _ hfront _ hback

end Ranked

end Run

/-- There are as many members of a kind as there are positions with such a member. -/
theorem countP_eq_length_of_positions {T : Type} {p : T → Bool} {xs : List T} {positions : List Nat}
    (hnodup : positions.Nodup) (h : ∀ i, i ∈ positions ↔ xs[i]?.any p = true) :
    xs.countP p = positions.length := by
  have hrange := filterMap_range_getElem? xs
  conv_lhs => rw [← hrange]
  rw [List.countP_filterMap, List.countP_eq_length_filter]
  refine List.Perm.length_eq ((List.perm_ext_iff_of_nodup ?_ hnodup).mpr fun i => ?_)
  · exact List.nodup_range.filter _
  · rw [h i, List.mem_filter, List.mem_range]
    by_cases hi : i < xs.length <;> simp [hi]

end Candidates

/-! ### Second phases -/

namespace Run

variable {α κ : Type} [Scalar α] [NumberText α] [Catalogue κ α] {ε : α}
  {implication : Option (TNorm α)}

theorem degrees_triggerAt (ε : α) (implication : Option (TNorm α)) (indices : List Nat)
    (rules : List (Rule α)) (catalogue : κ) :
    degrees (triggerAt ε implication indices rules catalogue).rules = degrees rules := by
  have henabled : (triggerAt ε implication indices rules catalogue).rules.map Rule.enabled =
      rules.map Rule.enabled := by
    have hkept := (over_triggerAt ε implication indices rules catalogue).rules
    simpa [Function.comp_def] using congrArg (List.map Rule.enabled) hkept
  exact degrees_congr henabled (degree_triggerAt ε implication indices rules catalogue)

section Firing

variable {indices : List Nat} {rules : List (Rule α)} {catalogue : κ}

/-- Where all selected rules have a positive degree, they are the ones that end up triggered. -/
theorem mem_iff_triggered
    (hfires : ∀ i ∈ indices, ∃ r, rules[i]? = some r ∧ r.fires ε = true)
    (hrules : ∀ r ∈ rules, r.triggered = false)
    (h : (triggerAt ε implication indices rules catalogue).error = none) (i : Nat) :
    i ∈ indices ↔
      (triggerAt ε implication indices rules catalogue).rules[i]?.any Rule.triggered = true := by
  constructor
  · intro hi
    obtain ⟨r, hr, hrfires⟩ := hfires i hi
    rw [getElem?_rules_triggerAt h, hr]
    simp [Rule.marked, hrfires, hi]
  · intro htriggered
    by_contra hi
    rw [getElem?_triggerAt ε implication hi] at htriggered
    obtain ⟨r, hr, hrtriggered⟩ := (Option.any_eq_true ..).mp htriggered
    exact Bool.false_ne_true ((hrules r (List.mem_of_getElem? hr)).symm.trans hrtriggered)

theorem catalogue_of_fires (hnodup : indices.Nodup)
    (hfires : ∀ i ∈ indices, ∃ r, rules[i]? = some r ∧ r.fires ε = true)
    (hrules : ∀ r ∈ rules, r.triggered = false)
    (h : (triggerAt ε implication indices rules catalogue).error = none) :
    (triggerAt ε implication indices rules catalogue).catalogue = writeAll ε implication
      (indices.filterMap ((triggerAt ε implication indices rules catalogue).rules[·]?))
      catalogue := by
  have hunmarked : ∀ i ∈ indices, ∀ r ∈ rules[i]?, r.triggered = false :=
    fun _ _ r hr => hrules r (List.mem_of_getElem? hr)
  rw [catalogue_triggerAt hnodup hunmarked h, List.filter_eq_self.mpr]
  intro r hr
  obtain ⟨i, hi, hri⟩ := List.mem_filterMap.mp hr
  have htriggered := (mem_iff_triggered hfires hrules h i).mp hi
  rwa [hri, Option.any_some] at htriggered

end Firing

end Run

/-! ### The best candidates -/

section Selection

variable {α κ : Type} [Scalar α] [NumberText α] [Catalogue κ α] {ε : α}

/-- The rule is enabled and has a positive degree in the catalogue. -/
def Rule.isCandidate (ε : α) (cs : Combinators α) (catalogue : κ) (r : Rule α) : Bool :=
  r.enabled && match r.antecedent.degree ε cs catalogue with
    | .ok degree => Tolerance.gt ε (r.weight * degree) Scalar.zero
    | .error _ => false

/-- What a cycle makes of a rule for which it finds the catalogue. -/
structure Rule.Judged (ε : α) (cs : Combinators α) (catalogue : κ) (r r' : Rule α) : Prop where
  kept : r'.deactivate = r.deactivate
  enabled : r.enabled = true → ∃ degree, r.antecedent.degree ε cs catalogue = .ok degree ∧
    r'.degree = r.weight * degree
  disabled : r.enabled = false → r'.degree = Scalar.zero
  triggered : r'.triggered = true → r.isCandidate ε cs catalogue = true

theorem Rule.fires_of_renew {cs : Combinators α} {catalogue : κ} {r r' : Rule α}
    (h : r.renew ε cs catalogue = .ok r') : r'.fires ε = r.isCandidate ε cs catalogue := by
  obtain ⟨hdisabled, rfl⟩ | ⟨henabled, -, degree, hdegree, rfl⟩ := renew_cases h
  · simp [fires, isCandidate, hdisabled]
  · simp [fires, isCandidate, henabled, hdegree]

omit [NumberText α] [Catalogue κ α] in
theorem Rule.fires_congr (ε : α) {r r' : Rule α} (hkept : r'.deactivate = r.deactivate)
    (hdegree : r'.degree = r.degree) : r'.fires ε = r.fires ε := by
  rw [fires, fires, ← r'.enabled_deactivate, hkept, enabled_deactivate, hdegree]

/-- A rule that has been renewed keeps its degree, and is triggered only if that is positive. -/
theorem Rule.judged_of_renew {cs : Combinators α} {catalogue : κ} {r renewed r' : Rule α}
    (h : r.renew ε cs catalogue = .ok renewed) (hkept : r'.deactivate = renewed.deactivate)
    (hdegree : r'.degree = renewed.degree)
    (htriggered : r'.triggered = true → renewed.fires ε = true) : r.Judged ε cs catalogue r' := by
  refine ⟨hkept.trans (deactivate_of_renew h), fun henabled => ?_, fun hdisabled => ?_, ?_⟩
  · obtain ⟨hdisabled, -⟩ | ⟨-, -, degree, hantecedent, rfl⟩ := renew_cases h
    · cases hdisabled.symm.trans henabled
    · exact ⟨degree, hantecedent, hdegree⟩
  · obtain ⟨-, rfl⟩ | ⟨henabled, -⟩ := renew_cases h
    · exact hdegree
    · cases hdisabled.symm.trans henabled
  · rw [← fires_of_renew h]
    exact htriggered

/-- A cycle that starts with some rules in a catalogue triggers the `count` best candidates under an
order of degrees, and they write their conclusions in the order of their ranks. -/
structure SelectsBest (ε : α) (cs : Combinators α) (before : α → α → Bool) (count : Nat)
    (rules : List (Rule α)) (catalogue : κ) (rules' : List (Rule α)) (catalogue' : κ) : Prop where
  length : rules'.length = rules.length
  judged : ∀ (i : Nat) (r r' : Rule α), rules[i]? = some r → rules'[i]? = some r' →
    r.Judged ε cs catalogue r'
  number : rules'.countP Rule.triggered =
    min count (rules.countP (Rule.isCandidate ε cs catalogue))
  best : ∀ (i j : Nat) (r s s' : Rule α), rules'[i]? = some r → r.triggered = true →
    rules[j]? = some s → s.isCandidate ε cs catalogue = true →
    rules'[j]? = some s' → s'.triggered = false → Outranks before (i, r.degree) (j, s'.degree)
  written : ∃ order : List Nat, (∀ i : Nat, i ∈ order ↔ rules'[i]?.any Rule.triggered = true) ∧
    (order.Pairwise fun i j => ∀ r ∈ rules'[i]?, ∀ s ∈ rules'[j]?,
      Outranks before (i, r.degree) (j, s.degree)) ∧
    catalogue' = writeAll ε cs.implication (order.filterMap (rules'[·]?)) catalogue

theorem countP_isCandidate {cs : Combinators α} {catalogue : κ} {rules renewed : List (Rule α)}
    (h : List.Forall₂ (fun r r' => r.renew ε cs catalogue = .ok r') rules renewed) :
    rules.countP (Rule.isCandidate ε cs catalogue) = renewed.countP (Rule.fires ε) := by
  induction h with
  | nil => rfl
  | cons hrenew _ ih => rw [List.countP_cons, List.countP_cons, ih, Rule.fires_of_renew hrenew]

/-- A rule that has been renewed is judged by its degree, whatever is triggered then. -/
theorem Run.judged_triggerAt {cs : Combinators α} {implication : Option (TNorm α)}
    {indices : List Nat} {rules renewed : List (Rule α)} {catalogue : κ}
    (hrenewed : renewAll ε cs catalogue rules = ⟨renewed, none⟩) {i : Nat} {r r' : Rule α}
    (hr : rules[i]? = some r)
    (hr' : (triggerAt ε implication indices renewed catalogue).rules[i]? = some r')
    (htriggered : r'.triggered = true → r'.fires ε = true) :
    r.Judged ε cs catalogue r' ∧ r'.fires ε = r.isCandidate ε cs catalogue := by
  have hall := forall₂_renewAll (congrArg Outcome.error hrenewed)
  rw [hrenewed] at hall
  obtain ⟨hlength, hrenew⟩ := List.forall₂_iff_get.mp hall
  obtain ⟨hi, rfl⟩ := List.getElem?_eq_some_iff.mp hr
  have hat := hrenew i hi (hlength ▸ hi)
  have hdegree := congrArg (·[i]?) (degree_triggerAt ε implication indices renewed catalogue)
  have hkept := congrArg (·[i]?) (over_triggerAt ε implication indices renewed catalogue).rules
  simp only [List.getElem?_map, hr', Option.map_some, List.getElem?_eq_getElem (hlength ▸ hi),
    Option.some.injEq] at hdegree hkept
  have hfires := Rule.fires_congr ε hkept hdegree
  exact ⟨Rule.judged_of_renew hat hkept hdegree fun h => hfires.symm.trans (htriggered h),
    hfires.trans (Rule.fires_of_renew hat)⟩

/-- The second phase triggers the best candidates if the first one has renewed all rules. -/
theorem selectsBest_triggerAt {cs : Combinators α} {before : α → α → Bool}
    (htrans : ∀ a b c, before a b = true → before b c = true → before a c = true)
    (htotal : ∀ a b, (before a b || before b a) = true) {count : Nat}
    {rules renewed : List (Rule α)} {catalogue : κ}
    (hrenewed : Run.renewAll ε cs catalogue rules = ⟨renewed, none⟩) {run : Run κ α}
    (hrun : Run.triggerAt ε cs.implication (Run.ranked ε before count (Run.degrees renewed)) renewed
      catalogue = run) (herror : run.error = none) :
    SelectsBest ε cs before count rules catalogue run.rules run.catalogue := by
  have hunmarked := Run.triggered_of_renewAll hrenewed
  have hfires : ∀ i ∈ Run.ranked ε before count (Run.degrees renewed),
      ∃ r, renewed[i]? = some r ∧ r.fires ε = true := by
    intro i hi
    obtain ⟨r, hr, hrfires, -⟩ := Run.exists_of_mem_ranked hi
    exact ⟨r, hr, hrfires⟩
  subst hrun
  -- Triggering changes no degree, so the ranking can be read off the rules that are left.
  have hdegrees := Run.degrees_triggerAt ε cs.implication
    (Run.ranked ε before count (Run.degrees renewed)) renewed catalogue
  have hselected := Run.mem_iff_triggered hfires hunmarked herror
  have hcatalogue := Run.catalogue_of_fires Run.nodup_ranked hfires hunmarked herror
  have hnumber : (Run.ranked ε before count (Run.degrees renewed)).length =
      min count (rules.countP (Rule.isCandidate ε cs catalogue)) := by
    have hall := Run.forall₂_renewAll (congrArg Outcome.error hrenewed)
    rw [hrenewed] at hall
    rw [Run.length_ranked, countP_isCandidate hall]
  have hkept := (Run.over_triggerAt ε cs.implication
    (Run.ranked ε before count (Run.degrees renewed)) renewed catalogue).rules
  have hlength := Run.deactivate_renewAll ε cs catalogue rules
  rw [hrenewed, ← hkept] at hlength
  generalize hrun : Run.triggerAt ε cs.implication
    (Run.ranked ε before count (Run.degrees renewed)) renewed catalogue = run at *
  rw [← hdegrees] at hselected hcatalogue hnumber
  have hjudged : ∀ (i : Nat) (r r' : Rule α), rules[i]? = some r → run.rules[i]? = some r' →
      r.Judged ε cs catalogue r' ∧ r'.fires ε = r.isCandidate ε cs catalogue := by
    intro i r r' hr hr'
    refine Run.judged_triggerAt hrenewed hr (hrun ▸ hr') fun htriggered => ?_
    have hi := (hselected i).mpr (by rw [hr', Option.any_some, htriggered])
    obtain ⟨s, hs, hsfires, -⟩ := Run.exists_of_mem_ranked hi
    obtain rfl := Option.some.inj (hr'.symm.trans hs)
    exact hsfires
  refine ⟨?_, fun i r r' hr hr' => (hjudged i r r' hr hr').1, ?_, ?_, ?_⟩
  · simpa using congrArg List.length hlength
  · rw [countP_eq_length_of_positions Run.nodup_ranked hselected, hnumber]
  · intro i j r s s' hr htriggered hs hcandidate hs' huntriggered
    have hi := (hselected i).mpr (by rw [hr, Option.any_some, htriggered])
    have hj := mt (hselected j).mp (by rw [hs', Option.any_some, huntriggered]; simp)
    have hsfires := (hjudged j s s' hs hs').2.trans hcandidate
    exact Run.outranks_of_ranked htrans htotal hr hs' hi hj hsfires
  · exact ⟨_, hselected, Run.pairwise_ranked htrans htotal, hcatalogue⟩

end Selection

/-! ### Blocks -/

/-- The strategy triggers the `count` best rules under an order of degrees. -/
inductive Activation.Ranks {α : Type} [Scalar α] : Activation α → Nat → (α → α → Bool) → Prop
  | highest (count : Nat) : Ranks (.highest count) count fun d e => Scalar.totalLe e d
  | lowest (count : Nat) : Ranks (.lowest count) count Scalar.totalLe

theorem Activation.Ranks.run_eq {α κ : Type} [Scalar α] [NumberText α] [Catalogue κ α]
    {activation : Activation α} {count : Nat} {before : α → α → Bool}
    (h : activation.Ranks count before) (ε : α) (cs : Combinators α) (rules : List (Rule α))
    (catalogue : κ) :
    activation.run ε cs rules catalogue =
      Run.twoPhase ε cs id (Run.ranked ε before count) rules catalogue := by
  cases h <;> rfl

theorem Activation.Ranks.isTwoPhase {α : Type} [Scalar α] {activation : Activation α} {count : Nat}
    {before : α → α → Bool} (h : activation.Ranks count before) : activation.IsTwoPhase := by
  cases h with
  | highest count => exact .highest count
  | lowest count => exact .lowest count

/-- Either order of degrees is a total preorder. -/
theorem Activation.Ranks.order {α : Type} [Scalar α] [Ranked α] {activation : Activation α}
    {count : Nat} {before : α → α → Bool} (h : activation.Ranks count before) :
    (∀ a b c, before a b = true → before b c = true → before a c = true) ∧
      ∀ a b, (before a b || before b a) = true := by
  cases h with
  | highest count =>
    exact ⟨fun a b c hab hbc => Ranked.totalLe_trans c b a hbc hab,
      fun a b => Ranked.totalLe_total b a⟩
  | lowest count => exact ⟨Ranked.totalLe_trans, Ranked.totalLe_total⟩

/-- An enabled block that triggers its best rules triggers exactly these, unless it fails. -/
theorem Block.selectsBest_of_ranks {α κ : Type} [Scalar α] [Ranked α] [NumberText α]
    [Catalogue κ α] {ε : α} {b : Block α} {activation : Activation α} {count : Nat}
    {before : α → α → Bool} {catalogue : κ} (hactivation : b.activation = some activation)
    (hranks : activation.Ranks count before) (henabled : b.enabled = true)
    (h : (b.run ε catalogue).error = none) :
    SelectsBest ε b.combinators before count b.rules catalogue
      (b.run ε catalogue).state.1.rules (b.run ε catalogue).state.2 := by
  rw [Block.run_of_enabled henabled, hactivation, Option.getD_some, hranks.run_eq] at h ⊢
  obtain ⟨htrans, htotal⟩ := hranks.order
  obtain ⟨renewed, hrenewed, hrun⟩ := Run.exists_of_twoPhase h
  exact selectsBest_triggerAt htrans htotal hrenewed hrun.symm h

/-- Two of the rules are as good as each other, one is better, and one is disabled. -/
def Block.ventilation (activation : Activation Float) : Block Float where
  name := "speed"
  activation := some activation
  rules := [
    { Engine.fanRule with weight := 0.5 },
    Engine.fanRule,
    { Engine.fanRule with weight := 0.5 },
    { Engine.fanRule with enabled := false, triggered := true }]

/-- Highest triggers two of the three candidates, and lowest all of them if it may. -/
theorem Block.selectsBest_ventilation :
    ((ventilation (.highest 2)).run Binary64.defaultTolerance Engine.fan.vars).error = none ∧
      SelectsBest Binary64.defaultTolerance {} (fun d e => Scalar.totalLe e d) 2
        (ventilation (.highest 2)).rules Engine.fan.vars
        ((ventilation (.highest 2)).run Binary64.defaultTolerance Engine.fan.vars).state.1.rules
        ((ventilation (.highest 2)).run Binary64.defaultTolerance Engine.fan.vars).state.2 ∧
      ((ventilation (.highest 2)).run Binary64.defaultTolerance
        Engine.fan.vars).state.1.rules.countP Rule.triggered = 2 ∧
      ((ventilation (.lowest 5)).run Binary64.defaultTolerance
        Engine.fan.vars).state.1.rules.countP Rule.triggered = 3 := by
  have hrenew : (Run.renewAll Binary64.defaultTolerance {} Engine.fan.vars
      (ventilation .general).rules).error = none := by decide +kernel
  have hcandidates : (ventilation .general).rules.countP
      (Rule.isCandidate Binary64.defaultTolerance {} Engine.fan.vars) = 3 := by decide +kernel
  have hhighest : ((ventilation (.highest 2)).run Binary64.defaultTolerance
      Engine.fan.vars).error = none :=
    Activation.error_run_of_isTwoPhase (.highest 2) hrenew
  have hlowest : ((ventilation (.lowest 5)).run Binary64.defaultTolerance
      Engine.fan.vars).error = none :=
    Activation.error_run_of_isTwoPhase (.lowest 5) hrenew
  have hbest := selectsBest_of_ranks rfl (.highest 2) rfl hhighest
  have hworst := selectsBest_of_ranks rfl (.lowest 5) rfl hlowest
  refine ⟨hhighest, hbest, hbest.number.trans ?_, hworst.number.trans ?_⟩
  · exact congrArg (min 2) hcandidates
  · exact congrArg (min 5) hcandidates

end FuzzyInference
