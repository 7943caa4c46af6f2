import FuzzyInference.Proofs.Cycle.Frame

/-!
The operations on a rule as they happen in place. An operation is a sequence of steps on a state,
and what a step has assigned stays when a later one fails; so the states on the way can be seen, as
of a rule with one clause loaded, or of a catalogue with half of the conclusions. Each sequence
leaves what the operation on whole rules says, and where that gives no result, everything as it was.
-/
namespace FuzzyInference

namespace Outcome

variable {σ : Type}

/-- What a sequence of steps leaves of a state. -/
def ofSteps (steps : EStateM Error σ Unit) (s : σ) : Outcome σ Error :=
  match steps.run s with
  | .ok _ s => ⟨s, none⟩
  | .error cause s => ⟨s, some cause⟩

/-- The result of an operation on a state; if there is none, the state as it was. -/
def ofResult (s : σ) : Except Error σ → Outcome σ Error
  | .ok result => ⟨result, none⟩
  | .error cause => ⟨s, some cause⟩

end Outcome

namespace Rule.InPlace

variable {α κ : Type}

/-! ### The steps -/

section Steps

variable [Catalogue κ α]

/-- Forgets what the antecedent stood for before its text is read. -/
def loadAntecedent (catalogue : κ) : EStateM Error (Rule α) Unit := do
  modify fun r => { r with antecedent := r.antecedent.unload }
  match (← get).antecedent.load catalogue with
  | .ok antecedent => modify fun r => { r with antecedent }
  | .error cause => throw cause

def loadConsequent (catalogue : κ) : EStateM Error (Rule α) Unit := do
  modify fun r => { r with consequent := r.consequent.unload }
  match (← get).consequent.load catalogue with
  | .ok consequent => modify fun r => { r with consequent }
  | .error cause => throw cause

variable [Scalar α]

/-- Loads one clause after the other; where one of them ends with an error, both are unloaded. -/
def load (catalogue : κ) : EStateM Error (Rule α) Unit :=
  tryCatch (loadAntecedent catalogue >>= fun _ => loadConsequent catalogue)
    fun cause => modify unload >>= fun _ => throw cause

variable [NumberText α]

def setWeight (weight : α) : EStateM Error (Rule α) Unit := do
  if RuleText.isWeight weight then modify fun r => { r with weight }
  else throw (.ruleText (.invalidWeight (NumberText.text weight)))

def activate (ε : α) (cs : Combinators α) (catalogue : κ) : EStateM Error (Rule α) Unit := do
  let r ← get
  if !r.isLoaded then throw (.notLoaded (.rule r.text))
  match r.antecedent.degree ε cs catalogue with
  | .ok degree => modify fun r => { r with degree := r.weight * degree }
  | .error cause => throw cause

/-- Writes the conclusions to the catalogue, a step for each of them. -/
def conclude (ε degree : α) (implication : Option (TNorm α)) (ps : List (Proposition α)) :
    EStateM Error (Rule α × κ) Unit :=
  ps.forM fun p => modify fun (r, catalogue) => (r, p.conclude ε degree implication catalogue)

/-- Writes the conclusions of the rule, and marks it after that. -/
def fire (ε : α) (implication : Option (TNorm α)) : EStateM Error (Rule α × κ) Unit := do
  let (r, _) ← get
  match r.consequent.conclusions with
  | some ps => conclude ε r.degree implication ps
  | none => throw (.notLoaded (.clause .consequent r.consequent.text))
  modify fun (r, catalogue) => ({ r with triggered := true }, catalogue)

def trigger (ε : α) (implication : Option (TNorm α)) : EStateM Error (Rule α × κ) Unit := do
  let (r, _) ← get
  if !r.isLoaded then throw (.notLoaded (.rule r.text))
  if r.fires ε then fire ε implication

end Steps

/-! ### What they leave -/

section Results

/-- What was assigned before an error is still there where the error is handled. -/
theorem run_tryCatch {σ : Type} (steps : EStateM Error σ Unit)
    (handle : Error → EStateM Error σ Unit) (s : σ) :
    (tryCatch steps handle).run s =
      match steps.run s with
      | .ok _ s => .ok () s
      | .error cause s => (handle cause).run s := by
  show EStateM.tryCatch steps handle s = _
  unfold EStateM.tryCatch EStateM.run
  cases steps s <;> rfl

variable [Catalogue κ α]

theorem run_loadAntecedent (catalogue : κ) (r : Rule α) :
    (loadAntecedent catalogue).run r =
      match r.antecedent.load catalogue with
      | .ok antecedent => .ok () { r with antecedent }
      | .error cause => .error cause { r with antecedent := r.antecedent.unload } := by
  have htext : r.antecedent.unload.load catalogue = r.antecedent.load catalogue := rfl
  simp only [loadAntecedent, EStateM.run_bind, EStateM.run_modify, EStateM.run_get, htext]
  cases r.antecedent.load catalogue <;> rfl

theorem run_loadConsequent (catalogue : κ) (r : Rule α) :
    (loadConsequent catalogue).run r =
      match r.consequent.load catalogue with
      | .ok consequent => .ok () { r with consequent }
      | .error cause => .error cause { r with consequent := r.consequent.unload } := by
  have htext : r.consequent.unload.load catalogue = r.consequent.load catalogue := rfl
  simp only [loadConsequent, EStateM.run_bind, EStateM.run_modify, EStateM.run_get, htext]
  cases r.consequent.load catalogue <;> rfl

variable [Scalar α]

omit [Scalar α] in
theorem unload_of_load {catalogue : κ} {a a' : Antecedent α} (h : a.load catalogue = .ok a') :
    a'.unload = a.unload := by
  obtain ⟨e, -, h⟩ := exists_of_bind_eq_ok h
  cases h
  rfl

/-- Loading is over before anybody can see a rule with one clause loaded. -/
theorem ofSteps_load (catalogue : κ) (r : Rule α) :
    Outcome.ofSteps (load catalogue) r = r.load catalogue := by
  unfold Outcome.ofSteps load Rule.load Rule.resolve
  simp only [run_tryCatch, EStateM.run_bind, run_loadAntecedent]
  cases hantecedent : r.antecedent.load catalogue with
  | error cause => rfl
  | ok antecedent =>
    simp only [run_loadConsequent]
    cases r.consequent.load catalogue with
    | ok consequent => rfl
    | error cause =>
      -- By now the antecedent is loaded, and the handler unloads it again.
      have hunload := unload_of_load hantecedent
      show Outcome.mk ({ r.deactivate with
        antecedent := antecedent.unload, consequent := r.consequent.unload.unload }) _ = _
      rw [hunload]
      rfl

variable [NumberText α]

omit [Catalogue κ α] in
theorem ofSteps_setWeight (weight : α) (r : Rule α) :
    Outcome.ofSteps (setWeight weight) r = Outcome.ofResult r (r.setWeight weight) := by
  unfold Outcome.ofSteps setWeight Rule.setWeight
  by_cases hweight : RuleText.isWeight weight = true
  · rw [if_pos hweight, if_pos hweight]
    rfl
  · rw [if_neg hweight, if_neg hweight]
    rfl

theorem ofSteps_activate (ε : α) (cs : Combinators α) (catalogue : κ) (r : Rule α) :
    Outcome.ofSteps (activate ε cs catalogue) r =
      Outcome.ofResult r (r.activate ε cs catalogue) := by
  unfold Outcome.ofSteps activate Rule.activate
  cases hloaded : r.isLoaded with
  | false =>
    simp only [EStateM.run_bind, EStateM.run_get, hloaded]
    rfl
  | true =>
    simp only [EStateM.run_bind, EStateM.run_get, hloaded]
    cases r.antecedent.degree ε cs catalogue with
    | error cause => rfl
    | ok degree => rfl

omit [NumberText α] in
theorem run_conclude (ε degree : α) (implication : Option (TNorm α)) (ps : List (Proposition α))
    (r : Rule α) (catalogue : κ) :
    (conclude ε degree implication ps).run (r, catalogue) = .ok () (r,
      ps.foldl (fun catalogue p => p.conclude ε degree implication catalogue) catalogue) := by
  induction ps generalizing catalogue with
  | nil => rfl
  | cons p ps ih =>
    have hstep : (conclude ε degree implication (p :: ps)).run (r, catalogue) =
        (conclude ε degree implication ps).run (r, p.conclude ε degree implication catalogue) := rfl
    rw [hstep, ih, List.foldl_cons]

omit [NumberText α] in
theorem run_fire (ε : α) (implication : Option (TNorm α)) {r : Rule α} (h : r.isLoaded = true)
    (catalogue : κ) :
    (fire ε implication).run (r, catalogue) =
      .ok () ({ r with triggered := true }, r.write ε implication catalogue) := by
  obtain ⟨ps, hps⟩ := exists_conclusions h
  have hconclude := run_conclude ε r.degree implication ps r catalogue
  simp only [fire, EStateM.run_bind, EStateM.run_get, hps, hconclude, EStateM.run_modify, write,
    Option.getD_some]

/-- Nothing fails after the first conclusion has been written. -/
theorem ofSteps_trigger (ε : α) (implication : Option (TNorm α)) (r : Rule α) (catalogue : κ) :
    Outcome.ofSteps (trigger ε implication) (r, catalogue) =
      Outcome.ofResult (r, catalogue) (r.trigger ε implication catalogue) := by
  unfold Outcome.ofSteps trigger
  cases hloaded : r.isLoaded with
  | false =>
    simp only [EStateM.run_bind, EStateM.run_get, hloaded, Rule.trigger]
    rfl
  | true =>
    have hfire := run_fire ε implication hloaded catalogue
    rw [trigger_of_isLoaded ε implication catalogue hloaded]
    simp only [EStateM.run_bind, EStateM.run_get, hloaded]
    cases hfires : r.fires ε with
    | false => rfl
    | true =>
      simp only [Bool.not_true, Bool.false_eq_true, if_false, if_true, hfire]
      rfl

end Results

end Rule.InPlace

end FuzzyInference
