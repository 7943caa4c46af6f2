import FuzzyInference.Error

/-!
Results of operations that leave something behind also when they fail.
-/
namespace FuzzyInference

/-- What an operation leaves behind, and the error that ended it. -/
structure Outcome (σ ε : Type) where
  state : σ
  error : Option ε

/-- The outcome with another view of its state. -/
def Outcome.map {σ τ ε : Type} (f : σ → τ) (o : Outcome σ ε) : Outcome τ ε := ⟨f o.state, o.error⟩

end FuzzyInference
