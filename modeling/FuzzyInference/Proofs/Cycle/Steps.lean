import FuzzyInference.Proofs.Cycle.Frame

/-!
The steps that a cycle takes its rules through. A rule is deactivated, renewed, given its share, and
triggered, while the catalogue only gains conclusions. What each of these steps keeps holds of all
rules after the run of any strategy, whether it ends with an error or not.
-/
namespace FuzzyInference

variable {α κ : Type} [Scalar α] [NumberText α] [Catalogue κ α]

/-- The steps of a cycle keep a property of rules in a catalogue. -/
structure Rule.Kept (ε : α) (cs : Combinators α) (P : κ → Rule α → Prop) : Prop where
  concluded : ∀ {catalogue catalogue' : κ} {r : Rule α}, P catalogue r →
    Concluded catalogue catalogue' → P catalogue' r
  deactivate : ∀ {catalogue : κ} {r : Rule α}, P catalogue r → P catalogue r.deactivate
  renew : ∀ {catalogue : κ} {r r' : Rule α}, P catalogue r →
    r.renew ε cs catalogue = .ok r' → P catalogue r'
  /-- Shares go to rules that have been renewed and not yet been triggered. -/
  share : ∀ {catalogue : κ} {r : Rule α} (degree : α), P catalogue r → r.isLoaded = true →
    r.triggered = false → P catalogue { r with degree }
  trigger : ∀ {catalogue catalogue' : κ} {r r' : Rule α}, P catalogue r →
    r.trigger ε cs.implication catalogue = .ok (r', catalogue') → P catalogue' r'

namespace Run

variable {ε : α} {cs : Combinators α} {P : κ → Rule α → Prop} {rules : List (Rule α)}
  {catalogue : κ}

theorem forall_inOrder (hP : Rule.Kept ε cs P) (h : ∀ r ∈ rules, P catalogue r)
    (admits : Nat → α → Bool) (admitted : Nat) :
    ∀ r ∈ (inOrder ε cs admits admitted rules catalogue).rules,
      P (inOrder ε cs admits admitted rules catalogue).catalogue r := by
  fun_induction inOrder ε cs admits admitted rules catalogue with
  | case1 admitted catalogue => exact h
  | case2 admitted rule rest catalogue cause hrenew =>
    obtain ⟨hrule, hrest⟩ := List.forall_mem_cons.mp h
    exact List.forall_mem_cons.mpr ⟨hP.deactivate hrule, hrest⟩
  | case3 admitted rule rest catalogue renewed hrenew hadmitted cause htrigger =>
    obtain ⟨hrule, hrest⟩ := List.forall_mem_cons.mp h
    exact List.forall_mem_cons.mpr ⟨hP.renew hrule hrenew, hrest⟩
  | case4 admitted rule rest catalogue renewed hrenew hadmitted fired catalogue' htrigger ih =>
    obtain ⟨hrule, hrest⟩ := List.forall_mem_cons.mp h
    have hwritten := Concluded.of_trigger htrigger
    have hlater := (over_inOrder ε cs admits (admitted + 1) rest catalogue').catalogue
    have hfired := hP.concluded (hP.trigger (hP.renew hrule hrenew) htrigger) hlater
    have hrest' := ih fun r hr => hP.concluded (hrest r hr) hwritten
    exact List.forall_mem_cons.mpr ⟨hfired, hrest'⟩
  | case5 admitted rule rest catalogue renewed hrenew hadmitted ih =>
    obtain ⟨hrule, hrest⟩ := List.forall_mem_cons.mp h
    have hlater := (over_inOrder ε cs admits admitted rest catalogue).catalogue
    have hrenewed := hP.concluded (hP.renew hrule hrenew) hlater
    exact List.forall_mem_cons.mpr ⟨hrenewed, ih hrest⟩

theorem forall_renewAll (hP : Rule.Kept ε cs P) (h : ∀ r ∈ rules, P catalogue r) :
    ∀ r ∈ (renewAll ε cs catalogue rules).state, P catalogue r := by
  fun_induction renewAll ε cs catalogue rules with
  | case1 => exact h
  | case2 rule rest cause hrenew =>
    obtain ⟨hrule, hrest⟩ := List.forall_mem_cons.mp h
    exact List.forall_mem_cons.mpr ⟨hP.deactivate hrule, hrest⟩
  | case3 rule rest renewed hrenew ih =>
    obtain ⟨hrule, hrest⟩ := List.forall_mem_cons.mp h
    exact List.forall_mem_cons.mpr ⟨hP.renew hrule hrenew, ih hrest⟩

theorem forall_triggerAt (hP : Rule.Kept ε cs P) (h : ∀ r ∈ rules, P catalogue r)
    (indices : List Nat) :
    ∀ r ∈ (triggerAt ε cs.implication indices rules catalogue).rules,
      P (triggerAt ε cs.implication indices rules catalogue).catalogue r := by
  fun_induction triggerAt ε cs.implication indices rules catalogue with
  | case1 rules catalogue => exact h
  | case2 index rest rules catalogue hrule ih => exact ih h
  | case3 index rest rules catalogue rule hrule cause htrigger => exact h
  | case4 index rest rules catalogue rule hrule fired catalogue' htrigger ih =>
    have hwritten := Concluded.of_trigger htrigger
    apply ih
    intro r hr
    rcases List.mem_or_eq_of_mem_set hr with hr | rfl
    · exact hP.concluded (h r hr) hwritten
    · exact hP.trigger (h rule (List.mem_of_getElem? hrule)) htrigger

theorem forall_share (hP : Rule.Kept ε cs P) (h : ∀ r ∈ rules, P catalogue r)
    (hloaded : ∀ r ∈ rules, r.enabled = true → r.isLoaded = true)
    (hunmarked : ∀ r ∈ rules, r.triggered = false) : ∀ r ∈ share ε rules, P catalogue r := by
  simp only [share]
  split
  · intro r hr
    obtain ⟨s, hs, rfl⟩ := List.mem_map.mp hr
    split
    · next henabled => exact hP.share _ (h s hs) (hloaded s hs henabled) (hunmarked s hs)
    · exact h s hs
  · exact h

theorem forall_twoPhase (hP : Rule.Kept ε cs P) {adjust : List (Rule α) → List (Rule α)}
    (hadjust : ∀ rules : List (Rule α), (∀ r ∈ rules, P catalogue r) →
      (∀ r ∈ rules, r.enabled = true → r.isLoaded = true) → (∀ r ∈ rules, r.triggered = false) →
      ∀ r ∈ adjust rules, P catalogue r)
    (h : ∀ r ∈ rules, P catalogue r) (select : List (Nat × α) → List Nat) :
    ∀ r ∈ (twoPhase ε cs adjust select rules catalogue).rules,
      P (twoPhase ε cs adjust select rules catalogue).catalogue r := by
  have hrenewAll := forall_renewAll hP h
  unfold twoPhase
  split
  · next renewed cause heq =>
    rw [heq] at hrenewAll
    exact hrenewAll
  · next renewed heq =>
    rw [heq] at hrenewAll
    apply forall_triggerAt hP
    apply hadjust renewed hrenewAll
    · intro r hr henabled
      obtain ⟨before, -, hrenew⟩ := exists_renew_of_renewAll heq r hr
      exact Rule.isLoaded_of_renew hrenew henabled
    · exact triggered_of_renewAll heq

end Run

theorem Activation.forall_run {ε : α} {cs : Combinators α} {P : κ → Rule α → Prop}
    {rules : List (Rule α)} {catalogue : κ} (hP : Rule.Kept ε cs P)
    (h : ∀ r ∈ rules, P catalogue r) (activation : Activation α) :
    ∀ r ∈ (activation.run ε cs rules catalogue).rules,
      P (activation.run ε cs rules catalogue).catalogue r := by
  have hid : ∀ rules : List (Rule α), (∀ r ∈ rules, P catalogue r) →
      (∀ r ∈ rules, r.enabled = true → r.isLoaded = true) → (∀ r ∈ rules, r.triggered = false) →
      ∀ r ∈ id rules, P catalogue r :=
    fun _ hrules _ _ => hrules
  cases activation with
  | general => exact Run.forall_inOrder hP h _ 0
  | first count bound => exact Run.forall_inOrder hP h _ 0
  | last count bound =>
    have hreverse : ∀ r ∈ rules.reverse, P catalogue r := fun r hr => h r (List.mem_reverse.mp hr)
    intro r hr
    exact Run.forall_inOrder hP hreverse _ 0 r (List.mem_reverse.mp hr)
  | highest count => exact Run.forall_twoPhase hP hid h _
  | lowest count => exact Run.forall_twoPhase hP hid h _
  | threshold comparison value => exact Run.forall_twoPhase hP hid h _
  | proportional => exact Run.forall_twoPhase hP (fun _ => Run.forall_share hP) h _

theorem Block.forall_run {ε : α} {b : Block α} {P : κ → Rule α → Prop} {catalogue : κ}
    (hP : Rule.Kept ε b.combinators P) (h : ∀ r ∈ b.rules, P catalogue r) :
    ∀ r ∈ (b.run ε catalogue).state.1.rules, P (b.run ε catalogue).state.2 r := by
  unfold Block.run
  split
  · exact Activation.forall_run hP h _
  · exact h

end FuzzyInference
