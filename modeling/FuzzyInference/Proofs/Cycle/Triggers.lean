import FuzzyInference.Proofs.Cycle.Frame
import FuzzyInference.Proofs.Cycle.Order

/-!
What a run writes. If no error ends a run, its catalogue is the one that it started at with the
conclusions of the rules that are marked as triggered, and of no others. Each strategy has an order
in which these rules write.
-/
namespace FuzzyInference

variable {α κ : Type} [Scalar α]

/-- The order in which a strategy triggers rules. -/
def Activation.triggerOrder (rules : List (Rule α)) : Activation α → List (Rule α)
  | general => rules
  | first _ _ => rules
  | last _ _ => rules.reverse
  | highest _ => rules.mergeSort fun r s => Scalar.totalLe s.degree r.degree
  | lowest _ => rules.mergeSort fun r s => Scalar.totalLe r.degree s.degree
  | threshold _ _ => rules
  | proportional => rules

variable [NumberText α] [Catalogue κ α] {ε : α} {cs : Combinators α}
  {implication : Option (TNorm α)}

/-- The catalogue after the conclusions of some rules. -/
def writeAll (ε : α) (implication : Option (TNorm α)) (rules : List (Rule α)) (catalogue : κ) : κ :=
  rules.foldl (Rule.write ε implication) catalogue

omit [NumberText α] in
theorem writeAll_append (rules rules' : List (Rule α)) (catalogue : κ) :
    writeAll ε implication (rules ++ rules') catalogue =
      writeAll ε implication rules' (writeAll ε implication rules catalogue) :=
  List.foldl_append

theorem Rule.catalogue_of_trigger {catalogue catalogue' : κ} {r fired : Rule α}
    (h : r.trigger ε implication catalogue = .ok (fired, catalogue'))
    (hr : r.triggered = false) :
    catalogue' = writeAll ε implication ([fired].filter Rule.triggered) catalogue := by
  obtain ⟨-, ⟨-, rfl, rfl⟩ | ⟨-, rfl, rfl⟩⟩ := Rule.trigger_cases h
  · simp [writeAll, hr]
  · rfl

namespace Run

/-! ### Rule by rule -/

theorem catalogue_inOrder {admits : Nat → α → Bool} {admitted : Nat} {rules : List (Rule α)}
    {catalogue : κ} (h : (inOrder ε cs admits admitted rules catalogue).error = none) :
    (inOrder ε cs admits admitted rules catalogue).catalogue =
      writeAll ε cs.implication
        ((inOrder ε cs admits admitted rules catalogue).rules.filter Rule.triggered) catalogue := by
  fun_induction inOrder ε cs admits admitted rules catalogue with
  | case1 admitted catalogue => rfl
  | case2 admitted rule rest catalogue cause hrenew => cases h
  | case3 admitted rule rest catalogue renewed hrenew hadmitted cause htrigger => cases h
  | case4 admitted rule rest catalogue renewed hrenew hadmitted fired catalogue' htrigger ih =>
    have hfired := Rule.catalogue_of_trigger htrigger (Rule.triggered_of_renew hrenew)
    rw [cons, ← List.singleton_append, List.filter_append, writeAll_append, ← hfired]
    exact ih h
  | case5 admitted rule rest catalogue renewed hrenew hadmitted ih =>
    have hrenewed := Rule.triggered_of_renew hrenew
    simpa [cons, hrenewed] using ih h

/-! ### In two phases -/

theorem exists_of_twoPhase {adjust : List (Rule α) → List (Rule α)}
    {select : List (Nat × α) → List Nat} {rules : List (Rule α)} {catalogue : κ}
    (h : (twoPhase ε cs adjust select rules catalogue).error = none) :
    ∃ renewed, renewAll ε cs catalogue rules = ⟨renewed, none⟩ ∧
      twoPhase ε cs adjust select rules catalogue =
        triggerAt ε cs.implication (select (degrees renewed)) (adjust renewed) catalogue := by
  revert h
  unfold twoPhase
  split
  · exact nofun
  · next renewed heq => exact fun _ => ⟨renewed, heq, rfl⟩

theorem degree_triggerAt (ε : α) (implication : Option (TNorm α)) (indices : List Nat)
    (rules : List (Rule α)) (catalogue : κ) :
    (triggerAt ε implication indices rules catalogue).rules.map Rule.degree =
      rules.map Rule.degree := by
  fun_induction triggerAt ε implication indices rules catalogue with
  | case1 rules catalogue => rfl
  | case2 index rest rules catalogue hrule ih => exact ih
  | case3 index rest rules catalogue rule hrule cause htrigger => rfl
  | case4 index rest rules catalogue rule hrule fired catalogue' htrigger ih =>
    have hdegree : fired.degree = rule.degree := by
      obtain ⟨-, ⟨-, rfl, -⟩ | ⟨-, rfl, -⟩⟩ := Rule.trigger_cases htrigger <;> rfl
    rw [ih, List.map_set, hdegree]
    obtain ⟨hlt, rfl⟩ := List.getElem?_eq_some_iff.mp hrule
    rw [← List.getElem_map Rule.degree (h := by simpa using hlt), List.set_getElem_self]

theorem getElem?_triggerAt (ε : α) (implication : Option (TNorm α)) {indices : List Nat}
    {index : Nat} (h : index ∉ indices) (rules : List (Rule α)) (catalogue : κ) :
    (triggerAt ε implication indices rules catalogue).rules[index]? = rules[index]? := by
  fun_induction triggerAt ε implication indices rules catalogue with
  | case1 rules catalogue => rfl
  | case2 other rest rules catalogue hrule ih =>
    exact ih (not_or.mp (mt List.mem_cons.mpr h)).2
  | case3 other rest rules catalogue rule hrule cause htrigger => rfl
  | case4 other rest rules catalogue rule hrule fired catalogue' htrigger ih =>
    obtain ⟨hne, hrest⟩ := not_or.mp (mt List.mem_cons.mpr h)
    rw [ih hrest, List.getElem?_set_ne (Ne.symm hne)]

/-- Each selected rule is triggered at its own turn only, so what it writes can be read off its
final state. -/
theorem catalogue_triggerAt {indices : List Nat} (hnodup : indices.Nodup)
    {rules : List (Rule α)} {catalogue : κ}
    (hrules : ∀ index ∈ indices, ∀ r ∈ rules[index]?, r.triggered = false)
    (h : (triggerAt ε implication indices rules catalogue).error = none) :
    (triggerAt ε implication indices rules catalogue).catalogue =
      writeAll ε implication
        ((indices.filterMap
          ((triggerAt ε implication indices rules catalogue).rules[·]?)).filter Rule.triggered)
        catalogue := by
  fun_induction triggerAt ε implication indices rules catalogue with
  | case1 rules catalogue => rfl
  | case2 index rest rules catalogue hrule ih =>
    obtain ⟨hindex, hrest⟩ := List.nodup_cons.mp hnodup
    have hfinal := getElem?_triggerAt ε implication hindex rules catalogue
    rw [List.filterMap_cons_none (by rw [hfinal, hrule])]
    exact ih hrest (fun i hi => hrules i (List.mem_cons_of_mem _ hi)) h
  | case3 index rest rules catalogue rule hrule cause htrigger => cases h
  | case4 index rest rules catalogue rule hrule fired catalogue' htrigger ih =>
    obtain ⟨hindex, hrest⟩ := List.nodup_cons.mp hnodup
    have hfired := Rule.catalogue_of_trigger htrigger
      (hrules index (List.mem_cons_self ..) rule hrule)
    have hlt : index < rules.length := (List.getElem?_eq_some_iff.mp hrule).1
    have hset : (rules.set index fired)[index]? = some fired := by
      rw [List.getElem?_set_self hlt]
    have hfinal := getElem?_triggerAt ε implication hindex (rules.set index fired) catalogue'
    have hselected : ∀ i ∈ rest, ∀ r ∈ (rules.set index fired)[i]?, r.triggered = false := by
      intro i hi r hr
      have hne : index ≠ i := by
        rintro rfl
        exact hindex hi
      rw [List.getElem?_set_ne hne] at hr
      exact hrules i (List.mem_cons_of_mem _ hi) r hr
    rw [List.filterMap_cons_some (by rw [hfinal, hset]), ← List.singleton_append,
      List.filter_append, writeAll_append, ← hfired]
    exact ih hrest hselected h

/-! ### Orders -/

omit [Scalar α] [NumberText α] in
theorem degrees_sublist (rules : List (Rule α)) :
    ((degrees rules).map Prod.fst).Sublist (List.range rules.length) := by
  have hfilter : (rules.zipIdx.filter fun p => p.1.enabled).Sublist rules.zipIdx :=
    List.filter_sublist
  have hmap := hfilter.map Prod.snd
  rw [List.zipIdx_map_snd, ← List.range_eq_range'] at hmap
  rw [degrees, List.map_map]
  exact hmap

omit [Scalar α] [NumberText α] in
theorem degree_of_mem_degrees {rules : List (Rule α)} {index : Nat} {degree : α}
    (h : (index, degree) ∈ degrees rules) : (rules.map Rule.degree)[index]? = some degree := by
  obtain ⟨⟨rule, i⟩, hmem, heq⟩ := List.mem_map.mp h
  obtain ⟨rfl, rfl⟩ := Prod.mk.inj heq
  have hrule := List.mem_zipIdx_iff_getElem?.mp (List.mem_filter.mp hmem).1
  rw [List.getElem?_map, hrule, Option.map_some]

/-- The rules that end up triggered are all at the selected positions. -/
theorem filter_triggered (ε : α) (implication : Option (TNorm α)) (catalogue : κ)
    {indices selected : List Nat} {rules : List (Rule α)}
    (hsublist : selected.Sublist (List.range rules.length)) (hmem : indices ⊆ selected)
    (hrules : ∀ r ∈ rules, r.triggered = false) :
    (selected.filterMap ((triggerAt ε implication indices rules catalogue).rules[·]?)).filter
        Rule.triggered =
      (triggerAt ε implication indices rules catalogue).rules.filter Rule.triggered := by
  have hlength : (triggerAt ε implication indices rules catalogue).rules.length = rules.length := by
    have hdegrees := congrArg List.length (degree_triggerAt ε implication indices rules catalogue)
    simpa using hdegrees
  have hrange := filterMap_range_getElem? (triggerAt ε implication indices rules catalogue).rules
  rw [hlength] at hrange
  refine (filterMap_of_sublist hsublist List.nodup_range ?_).trans (by rw [hrange])
  intro i _ hi r hr
  have hout : i ∉ indices := fun hin => hi (hmem hin)
  rw [getElem?_triggerAt ε implication hout] at hr
  exact hrules r (List.mem_of_getElem? hr)

theorem catalogue_of_sublist {indices : List Nat} {rules : List (Rule α)} {catalogue : κ}
    (hsublist : indices.Sublist (List.range rules.length))
    (hrules : ∀ r ∈ rules, r.triggered = false)
    (h : (triggerAt ε implication indices rules catalogue).error = none) :
    (triggerAt ε implication indices rules catalogue).catalogue = writeAll ε implication
      ((triggerAt ε implication indices rules catalogue).rules.filter Rule.triggered)
      catalogue := by
  have hnodup := hsublist.nodup List.nodup_range
  rw [catalogue_triggerAt hnodup (fun _ _ r hr => hrules r (List.mem_of_getElem? hr)) h,
    filter_triggered ε implication catalogue hsublist (fun _ hi => hi) hrules]

omit [NumberText α] [Catalogue κ α] in
/-- The best positions in rank order are some of the positions, sorted. -/
theorem exists_of_ranked {before : α → α → Bool}
    (htrans : ∀ a b c, before a b = true → before b c = true → before a c = true)
    (htotal : ∀ a b, (before a b || before b a) = true) (ε : α) (count : Nat)
    {degrees : List (Nat × α)} (hnodup : (degrees.map Prod.fst).Nodup) :
    ∃ selected : List (Nat × α), selected.Sublist degrees ∧ ranked ε before count degrees =
      (selected.mergeSort fun a b => before a.2 b.2).map Prod.fst := by
  let candidates := degrees.filter fun p => Tolerance.gt ε p.2 Scalar.zero
  let sorted := candidates.mergeSort fun a b => before a.2 b.2
  have hcandidates : (candidates.map Prod.fst).Nodup :=
    (List.filter_sublist.map Prod.fst).nodup hnodup
  have hsorted : (sorted.map Prod.fst).Nodup :=
    ((List.mergeSort_perm candidates _).map Prod.fst).nodup_iff.mpr hcandidates
  have htake := eq_filter_of_sublist (List.take_sublist count sorted) hsorted
  refine ⟨candidates.filter fun p => p.1 ∈ (sorted.take count).map Prod.fst,
    List.filter_sublist.trans List.filter_sublist, ?_⟩
  rw [← filter_mergeSort (fun a b c => htrans a.2 b.2 c.2) (fun a b => htotal a.2 b.2)]
  exact congrArg (List.map Prod.fst) htake

theorem catalogue_of_ranked {before : α → α → Bool}
    (htrans : ∀ a b c, before a b = true → before b c = true → before a c = true)
    (htotal : ∀ a b, (before a b || before b a) = true) {count : Nat} {rules : List (Rule α)}
    {catalogue : κ} (hrules : ∀ r ∈ rules, r.triggered = false)
    (h : (triggerAt ε implication (ranked ε before count (degrees rules)) rules
      catalogue).error = none) :
    (triggerAt ε implication (ranked ε before count (degrees rules)) rules catalogue).catalogue =
      writeAll ε implication
        (((triggerAt ε implication (ranked ε before count (degrees rules)) rules
          catalogue).rules.filter Rule.triggered).mergeSort fun r s => before r.degree s.degree)
        catalogue := by
  have hkeys := (degrees_sublist rules).nodup List.nodup_range
  obtain ⟨selected, hsublist, hranked⟩ := exists_of_ranked htrans htotal ε count hkeys
  have hpositions := (hsublist.map Prod.fst).trans (degrees_sublist rules)
  have hperm := (List.mergeSort_perm selected fun a b => before a.2 b.2).map Prod.fst
  rw [hranked] at h ⊢
  have hnodup := hperm.nodup_iff.mpr (hpositions.nodup List.nodup_range)
  have hfilter := filter_triggered ε implication catalogue hpositions hperm.subset hrules
  have hcatalogue := catalogue_triggerAt hnodup
    (fun _ _ r hr => hrules r (List.mem_of_getElem? hr)) h
  have hdegree := degree_triggerAt ε implication
    ((selected.mergeSort fun a b => before a.2 b.2).map Prod.fst) rules catalogue
  generalize triggerAt ε implication ((selected.mergeSort fun a b => before a.2 b.2).map Prod.fst)
    rules catalogue = run at hfilter hcatalogue hdegree ⊢
  have hget : ∀ p ∈ selected, run.rules[p.1]?.map Rule.degree = some p.2 := by
    intro p hp
    rw [← List.getElem?_map, hdegree]
    exact degree_of_mem_degrees (hsublist.subset hp)
  have hsome : ∀ p ∈ selected, (run.rules[p.1]?).isSome = true := by
    intro p hp
    rw [← Option.isSome_map (f := Rule.degree), hget p hp, Option.isSome_some]
  have hbefore : ∀ p ∈ selected, ∀ q ∈ selected, ∀ r ∈ run.rules[p.1]?, ∀ s ∈ run.rules[q.1]?,
      before p.2 q.2 = before r.degree s.degree := by
    intro p hp q hq r hr s hs
    have hr' := hget p hp
    have hs' := hget q hq
    rw [hr, Option.map_some] at hr'
    rw [hs, Option.map_some] at hs'
    rw [← Option.some.inj hr', ← Option.some.inj hs']
  have hsort : (selected.mergeSort fun a b => before a.2 b.2).filterMap
      (fun p => run.rules[p.1]?) = (selected.filterMap (fun p => run.rules[p.1]?)).mergeSort
        fun r s => before r.degree s.degree :=
    filterMap_mergeSort hsome hbefore
  rw [List.filterMap_map] at hcatalogue hfilter
  rw [hcatalogue, ← hfilter]
  refine congrArg (fun rules => writeAll ε implication rules catalogue) ?_
  refine (congrArg (List.filter Rule.triggered) hsort).trans ?_
  exact filter_mergeSort (fun r s t => htrans r.degree s.degree t.degree)
    (fun r s => htotal r.degree s.degree) Rule.triggered _

omit [NumberText α] [Catalogue κ α] in
theorem triggered_share {rules : List (Rule α)} (h : ∀ r ∈ rules, r.triggered = false) :
    ∀ r ∈ share ε rules, r.triggered = false := by
  simp only [share]
  split
  · intro r hr
    obtain ⟨s, hs, rfl⟩ := List.mem_map.mp hr
    split <;> exact h s hs
  · exact h

end Run

/-- A run without error writes the conclusions of the rules that it has marked as triggered, in the
order of the strategy. -/
theorem Activation.catalogue_run [Ranked α] {rules : List (Rule α)} {catalogue : κ}
    {activation : Activation α} (h : (activation.run ε cs rules catalogue).error = none) :
    (activation.run ε cs rules catalogue).catalogue =
      writeAll ε cs.implication
        (activation.triggerOrder
          ((activation.run ε cs rules catalogue).rules.filter Rule.triggered)) catalogue := by
  cases activation with
  | general => exact Run.catalogue_inOrder h
  | first count bound => exact Run.catalogue_inOrder h
  | last count bound =>
    have herror : (Run.inOrder ε cs (Run.reaches ε count bound) 0 rules.reverse
      catalogue).error = none := h
    have hrun := Run.catalogue_inOrder herror
    simp only [Activation.run, Run.reverse, Activation.triggerOrder, List.filter_reverse,
      List.reverse_reverse]
    exact hrun
  | highest count =>
    obtain ⟨renewed, hrenew, heq⟩ := Run.exists_of_twoPhase h
    simp only [Activation.run, Activation.triggerOrder] at h ⊢
    rw [heq] at h ⊢
    exact Run.catalogue_of_ranked (fun a b c hab hbc => Ranked.totalLe_trans c b a hbc hab)
      (fun a b => Ranked.totalLe_total b a) (Run.triggered_of_renewAll hrenew) h
  | lowest count =>
    obtain ⟨renewed, hrenew, heq⟩ := Run.exists_of_twoPhase h
    simp only [Activation.run, Activation.triggerOrder] at h ⊢
    rw [heq] at h ⊢
    exact Run.catalogue_of_ranked Ranked.totalLe_trans Ranked.totalLe_total
      (Run.triggered_of_renewAll hrenew) h
  | threshold comparison value =>
    obtain ⟨renewed, hrenew, heq⟩ := Run.exists_of_twoPhase h
    simp only [Activation.run, Activation.triggerOrder] at h ⊢
    rw [heq] at h ⊢
    refine Run.catalogue_of_sublist ?_ (Run.triggered_of_renewAll hrenew) h
    exact (List.filter_sublist.map Prod.fst).trans (Run.degrees_sublist renewed)
  | proportional =>
    obtain ⟨renewed, hrenew, heq⟩ := Run.exists_of_twoPhase h
    simp only [Activation.run, Activation.triggerOrder] at h ⊢
    rw [heq] at h ⊢
    have hlength : (Run.share ε renewed).length = renewed.length := by
      simpa using congrArg List.length (Run.deactivate_share ε renewed)
    have hsublist := Run.degrees_sublist renewed
    rw [← hlength] at hsublist
    exact Run.catalogue_of_sublist hsublist
      (Run.triggered_share (Run.triggered_of_renewAll hrenew)) h

end FuzzyInference
