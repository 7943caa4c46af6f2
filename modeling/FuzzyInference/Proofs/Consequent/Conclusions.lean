import FuzzyInference.Consequent
import Mathlib.Data.List.Forall2

/-!
What a consequent concludes. Its words are those of its conclusions with `and` between neighbours,
and each conclusion holds what the catalogue finds for the words of its own: an output variable,
hedges and a term. So no word is lost, and nothing comes from the words of a neighbour.
-/
namespace FuzzyInference

variable {α κ : Type} [Catalogue κ α] {catalogue : κ}

/-- The proposition asserts a term of an output variable. -/
def Proposition.IsConclusion (p : Proposition α) : Prop :=
  p.subject.id.isOutput = true ∧ p.term.isSome = true

omit [Catalogue κ α] in
theorem Proposition.IsConclusion.id_eq {p : Proposition α} (h : p.IsConclusion) :
    p.subject.id = ⟨.output, p.subject.id.index⟩ := by
  have hrole : p.subject.id.role = .output := by simpa [VariableId.isOutput] using h.1
  rw [← hrole]

theorem exists_of_forall₂ {S T : Type} {R : S → T → Prop} {xs : List S} {ys : List T}
    (h : xs.Forall₂ R ys) : ∀ x ∈ xs, ∃ y ∈ ys, R x y := by
  induction h with
  | nil => exact List.forall_mem_nil _
  | @cons x y xs ys hxy _ ih =>
    intro z hz
    rcases List.mem_cons.mp hz with rfl | hz
    · exact ⟨y, List.mem_cons_self .., hxy⟩
    · obtain ⟨w, hw, hzw⟩ := ih z hz
      exact ⟨w, List.mem_cons_of_mem _ hw, hzw⟩

/-! ### Words of a conclusion -/

/-- The catalogue finds the hedges for the words, one for each, and none of them is `any`. -/
def FindHedges (catalogue : κ) (words : List String) (hedges : List (Hedge α)) : Prop :=
  words.Forall₂ (fun word hedge =>
    Catalogue.findHedge? catalogue word = some hedge ∧ hedge.isAny = false) hedges

/-- The words of a conclusion: an output variable, the word `is`, hedges and a term. -/
inductive Proposition.Concludes (catalogue : κ) : List String → Proposition α → Prop
  | intro {name term : String} {id : VariableId} {termId : TermId} {words : List String}
      {hedges : List (Hedge α)} (hid : Catalogue.findVariable? catalogue name = some id)
      (houtput : id.isOutput = true) (hhedges : FindHedges catalogue words hedges)
      (hhedge : Catalogue.findHedge? catalogue term = none)
      (htermId : Catalogue.findTerm? catalogue id term = some termId) :
      Concludes catalogue (name :: Keyword.isWord.text :: words ++ [term])
        ⟨⟨id, name⟩, hedges, some ⟨termId, term⟩⟩

theorem Proposition.Concludes.isConclusion {words : List String} {p : Proposition α}
    (h : p.Concludes catalogue words) : p.IsConclusion := by
  cases h with
  | intro hid houtput hhedges hhedge htermId => exact ⟨houtput, rfl⟩

namespace Draft

/-- The draft holds what the catalogue finds for its words, as far as it goes. -/
def Concludes (catalogue : κ) : Draft α → Prop
  | start => True
  | named subject =>
    Catalogue.findVariable? catalogue subject.name = some subject.id ∧ subject.id.isOutput = true
  | described subject hedges words =>
    Catalogue.findVariable? catalogue subject.name = some subject.id ∧
      subject.id.isOutput = true ∧ FindHedges catalogue words hedges

/-- After the words so far a step has read one more: a longer draft, or a whole conclusion. -/
def Step.Concludes (catalogue : κ) (words : List String) : Step α → Prop
  | draft d => d.Concludes catalogue ∧ d.words = words
  | complete p => p.Concludes catalogue words

theorem Concludes.accept {d : Draft α} {word : String} {step : Step α} (h : d.Concludes catalogue)
    (haccept : d.accept catalogue .consequent word = .ok step) :
    step.Concludes catalogue (d.words ++ [word]) := by
  cases d with
  | start =>
    simp only [Draft.accept, true_and] at haccept
    split at haccept
    · cases haccept
    · next id hid =>
      split at haccept <;> cases haccept
      next houtput =>
      exact ⟨⟨hid, by simpa using houtput⟩, rfl⟩
  | named subject =>
    obtain ⟨hid, houtput⟩ := h
    simp only [Draft.accept] at haccept
    split at haccept <;> cases haccept
    next his =>
    refine ⟨⟨hid, houtput, .nil⟩, ?_⟩
    rw [Draft.words, Draft.words, his]
    rfl
  | described subject hedges words =>
    obtain ⟨hid, houtput, hhedges⟩ := h
    simp only [Draft.accept, if_true] at haccept
    split at haccept
    · next hedge hhedge =>
      split at haccept <;> cases haccept
      next hany =>
      have hany : hedge.isAny = false := by simpa using hany
      exact ⟨⟨hid, houtput, List.rel_append hhedges (.cons ⟨hhedge, hany⟩ .nil)⟩, rfl⟩
    · next hhedge =>
      split at haccept <;> cases haccept
      next termId htermId =>
      exact .intro hid houtput hhedges hhedge htermId

end Draft

/-! ### Words of a consequent -/

/-- Lists with a separator between neighbours: the first list, and the separator in front of every
other one. -/
theorem intercalate_singleton_cons {T : Type} (separator : T) (first : List T)
    (rest : List (List T)) :
    [separator].intercalate (first :: rest) = first ++ rest.flatMap (separator :: ·) := by
  induction rest generalizing first with
  | nil => simp [List.intercalate_singleton]
  | cons second rest ih =>
    rw [List.intercalate_cons_cons, ih second, List.flatMap_cons]
    simp

namespace Proposition

/-- The words of conclusions that are read from a place on. -/
def Place.Spells (catalogue : κ) (words : List String) (ps : List (Proposition α)) :
    Place α → Prop
  | within d => ∃ first rest, d.words ++ words = first ++ rest.flatMap (Keyword.andWord.text :: ·) ∧
      ps.Forall₂ (fun p words => p.Concludes catalogue words) (first :: rest)
  | after => ∃ rest, words = rest.flatMap (Keyword.andWord.text :: ·) ∧
      ps.Forall₂ (fun p words => p.Concludes catalogue words) rest

def Place.Concludes (catalogue : κ) : Place α → Prop
  | within d => d.Concludes catalogue
  | after => True

theorem Place.Concludes.spells {text : String} {place : Place α} {words : List String}
    {ps : List (Proposition α)} (hplace : place.Concludes catalogue)
    (h : conclusionsFrom catalogue text place words = .ok ps) :
    place.Spells catalogue words ps := by
  induction words generalizing place ps with
  | nil =>
    cases place with
    | after =>
      cases h
      exact ⟨[], rfl, .nil⟩
    | within d =>
      simp only [conclusionsFrom] at h
      split at h <;> cases h
  | cons word words ih =>
    cases place with
    | after =>
      simp only [conclusionsFrom] at h
      split at h
      · next hand =>
        have hstart : Place.Concludes catalogue (.within (.start : Draft α)) := trivial
        obtain ⟨first, rest, hwords, hps⟩ := ih hstart h
        refine ⟨first :: rest, ?_, hps⟩
        rw [hand, List.flatMap_cons, List.cons_append, ← hwords]
        rfl
      · cases h
    | within d =>
      simp only [conclusionsFrom] at h
      obtain ⟨step, hstep, h⟩ := exists_of_bind_eq_ok h
      have hconcludes := Draft.Concludes.accept hplace hstep
      have hsplit : d.words ++ word :: words = (d.words ++ [word]) ++ words := by simp
      cases step with
      | draft d' =>
        obtain ⟨hd', hwords'⟩ := hconcludes
        have hwithin : Place.Concludes catalogue (.within d') := hd'
        obtain ⟨first, rest, hwords, hps⟩ := ih hwithin h
        exact ⟨first, rest, by rw [hsplit, ← hwords', hwords], hps⟩
      | complete p =>
        obtain ⟨qs, hrest, h⟩ := exists_of_bind_eq_ok h
        cases h
        have hafter : Place.Concludes catalogue (.after : Place α) := trivial
        obtain ⟨rest, hwords, hqs⟩ := ih hafter hrest
        exact ⟨d.words ++ [word], rest, by rw [hsplit, hwords], .cons hconcludes hqs⟩

/-- The words of a consequent are those of its conclusions, joined by `and`. -/
theorem exists_words_of_parseConclusions {text : String} {ps : List (Proposition α)}
    (h : parseConclusions catalogue text = .ok ps) :
    ∃ operands : List (List String),
      Text.words text = [Keyword.andWord.text].intercalate operands ∧ ps ≠ [] ∧
        ps.Forall₂ (fun p words => p.Concludes catalogue words) operands := by
  have hstart : Place.Concludes catalogue (.within (.start : Draft α)) := trivial
  obtain ⟨first, rest, hwords, hps⟩ := hstart.spells h
  refine ⟨first :: rest, ?_, ?_, hps⟩
  · rw [intercalate_singleton_cons, ← hwords]
    rfl
  · rintro rfl
    cases hps

theorem exists_concludes_of_mem {text : String} {ps : List (Proposition α)}
    (h : parseConclusions catalogue text = .ok ps) {p : Proposition α} (hp : p ∈ ps) :
    ∃ words, p.Concludes catalogue words := by
  obtain ⟨operands, -, -, hps⟩ := exists_words_of_parseConclusions h
  obtain ⟨words, -, hwords⟩ := exists_of_forall₂ hps p hp
  exact ⟨words, hwords⟩

theorem isConclusion_of_parseConclusions {text : String} {ps : List (Proposition α)}
    (h : parseConclusions catalogue text = .ok ps) : ∀ p ∈ ps, p.IsConclusion := by
  intro p hp
  obtain ⟨words, hwords⟩ := exists_concludes_of_mem h hp
  exact hwords.isConclusion

end Proposition

end FuzzyInference
