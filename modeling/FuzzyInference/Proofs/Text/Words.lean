import FuzzyInference.Scalar
import FuzzyInference.Text.Blank

/-!
The words of a text from the first one on. Before the first word there are blanks only; after it
the text ends or goes on with a blank, and the words of what follows are the other words. Every
sequence of words is the one of a text.
-/
namespace FuzzyInference.Text

/-- The text does not go on with a character of the class. -/
def Stops (p : Char → Bool) (text : List Char) : Prop := ∀ c ∈ text.head?, p c = false

theorem takeWhile_append_of_stops {p : Char → Bool} {cs rest : List Char}
    (hcs : ∀ c ∈ cs, p c = true) (hrest : Stops p rest) : (cs ++ rest).takeWhile p = cs := by
  rw [List.takeWhile_append_of_pos hcs]
  cases rest with
  | nil => simp
  | cons c rest =>
    have hc : p c = false := hrest c rfl
    simp [hc]

theorem dropWhile_append_of_stops {p : Char → Bool} {cs rest : List Char}
    (hcs : ∀ c ∈ cs, p c = true) (hrest : Stops p rest) : (cs ++ rest).dropWhile p = rest := by
  rw [List.dropWhile_append_of_pos hcs]
  cases rest with
  | nil => simp
  | cons c rest =>
    have hc : p c = false := hrest c rfl
    simp [hc]

/-- A text that stops before every other character than a blank stops before every class that has no
blanks. -/
theorem Stops.of_blank {p : Char → Bool} {text : List Char} (h : Stops (fun c => !isBlank c) text)
    (hp : ∀ c, isBlank c = true → p c = false) : Stops p text :=
  fun c hc => hp c (by simpa using h c hc)

theorem close_of_ne_nil {pending : List Char} (h : pending ≠ []) :
    close pending = [String.ofList pending.reverse] := by
  cases pending with
  | nil => exact absurd rfl h
  | cons c pending => rfl

theorem wordsAfter_ne_nil {pending : List Char} (h : pending ≠ []) (text : List Char) :
    wordsAfter pending text ≠ [] := by
  induction text generalizing pending with
  | nil =>
    rw [wordsAfter, close_of_ne_nil h]
    exact List.cons_ne_nil _ _
  | cons c rest ih =>
    rw [wordsAfter]
    split
    · rw [close_of_ne_nil h]
      exact List.cons_ne_nil _ _
    · exact ih (List.cons_ne_nil c pending)

/-- The word that is open ends where the text ends or has a blank. -/
theorem exists_of_wordsAfter_open {pending text : List Char} {word : String} {words : List String}
    (hpending : pending ≠ []) (h : wordsAfter pending text = word :: words) :
    ∃ tail after, text = tail ++ after ∧ word.toList = pending.reverse ++ tail ∧
      (∀ c ∈ tail, isBlank c = false) ∧ Stops (fun c => !isBlank c) after ∧
      wordsAfter [] after = words := by
  induction text generalizing pending with
  | nil =>
    rw [wordsAfter, close_of_ne_nil hpending] at h
    obtain ⟨rfl, rfl⟩ := List.cons.inj h
    exact ⟨[], [], rfl, by simp, by simp, by simp [Stops], rfl⟩
  | cons c rest ih =>
    rw [wordsAfter] at h
    by_cases hc : isBlank c = true
    · rw [if_pos hc, close_of_ne_nil hpending, List.singleton_append] at h
      obtain ⟨rfl, hwords⟩ := List.cons.inj h
      refine ⟨[], c :: rest, rfl, by simp, by simp, by simp [Stops, hc], ?_⟩
      rw [wordsAfter, if_pos hc]
      exact hwords
    · rw [if_neg hc] at h
      obtain ⟨tail, after, rfl, hword, htail, hafter, hwords⟩ :=
        ih (List.cons_ne_nil c pending) h
      refine ⟨c :: tail, after, rfl, by simpa using hword, ?_, hafter, hwords⟩
      exact List.forall_mem_cons.mpr ⟨by simpa using hc, htail⟩

/-- The first word of a text, what stands before it and what stands after it. -/
theorem exists_of_wordsAfter {text : List Char} {word : String} {words : List String}
    (h : wordsAfter [] text = word :: words) :
    ∃ blanks c tail after, text = blanks ++ c :: tail ++ after ∧ word.toList = c :: tail ∧
      (∀ b ∈ blanks, isBlank b = true) ∧ isBlank c = false ∧
      (∀ c ∈ tail, isBlank c = false) ∧ Stops (fun c => !isBlank c) after ∧
      wordsAfter [] after = words := by
  induction text with
  | nil => simp [wordsAfter, close] at h
  | cons c rest ih =>
    rw [wordsAfter] at h
    by_cases hc : isBlank c = true
    · rw [if_pos hc] at h
      obtain ⟨blanks, d, tail, after, rfl, hword, hblanks, hd, htail, hafter, hwords⟩ := ih h
      exact ⟨c :: blanks, d, tail, after, rfl, hword,
        List.forall_mem_cons.mpr ⟨hc, hblanks⟩, hd, htail, hafter, hwords⟩
    · rw [if_neg hc] at h
      obtain ⟨tail, after, rfl, hword, htail, hafter, hwords⟩ :=
        exists_of_wordsAfter_open (List.cons_ne_nil c []) h
      exact ⟨[], c, tail, after, rfl, by simpa using hword, by simp, by simpa using hc, htail,
        hafter, hwords⟩

theorem isBlank_of_wordsAfter_nil {text : List Char} (h : wordsAfter [] text = []) :
    ∀ c ∈ text, isBlank c = true := by
  induction text with
  | nil => simp
  | cons c rest ih =>
    rw [wordsAfter] at h
    by_cases hc : isBlank c = true
    · rw [if_pos hc] at h
      exact List.forall_mem_cons.mpr ⟨hc, ih h⟩
    · rw [if_neg hc] at h
      exact absurd h (wordsAfter_ne_nil (List.cons_ne_nil c []) rest)

/-- The first character that is no blank starts the first word. -/
theorem find?_not_isBlank (text : List Char) :
    text.find? (fun c => !isBlank c) = (wordsAfter [] text).head?.bind (·.toList.head?) := by
  cases h : wordsAfter [] text with
  | nil => simpa using isBlank_of_wordsAfter_nil h
  | cons word words =>
    obtain ⟨blanks, c, tail, after, rfl, hword, hblanks, hc, -, -, -⟩ := exists_of_wordsAfter h
    have hfind : blanks.find? (fun c => !isBlank c) = none := by simpa using hblanks
    simp [List.find?_append, hfind, hc, hword]

/-! ### Texts of given words -/

/-- The word has characters, and none of them is a blank. -/
structure IsWord (word : String) : Prop where
  toList_ne : word.toList ≠ []
  isBlank : ∀ c ∈ word.toList, isBlank c = false

instance (word : String) : Decidable (IsWord word) :=
  decidable_of_iff (word.toList ≠ [] ∧ word.toList.all (!isBlank ·) = true)
    ⟨fun h => ⟨h.1, by simpa using h.2⟩, fun h => ⟨h.1, by simpa using h.2⟩⟩

/-- The words of a text have characters of the text only, and no blanks among them. -/
theorem isWord_of_mem_wordsAfter {pending text : List Char} {word : String}
    (hpending : ∀ c ∈ pending, isBlank c = false) (h : word ∈ wordsAfter pending text) :
    IsWord word ∧ ∀ c ∈ word.toList, c ∈ pending ∨ c ∈ text := by
  have hclose : ∀ pending : List Char, (∀ c ∈ pending, isBlank c = false) →
      word ∈ close pending → IsWord word ∧ ∀ c ∈ word.toList, c ∈ pending := by
    intro pending hpending hword
    by_cases hne : pending = []
    · subst hne
      cases hword
    · rw [close_of_ne_nil hne, List.mem_singleton] at hword
      have hchars : word.toList = pending.reverse := by rw [hword, String.toList_ofList]
      refine ⟨⟨by simpa [hchars] using hne, ?_⟩, by simp [hchars]⟩
      simpa [hchars] using hpending
  induction text generalizing pending with
  | nil =>
    obtain ⟨hword, hmem⟩ := hclose pending hpending h
    exact ⟨hword, fun c hc => Or.inl (hmem c hc)⟩
  | cons c rest ih =>
    rw [wordsAfter] at h
    split at h
    · rcases List.mem_append.mp h with h | h
      · obtain ⟨hword, hmem⟩ := hclose pending hpending h
        exact ⟨hword, fun c hc => Or.inl (hmem c hc)⟩
      · obtain ⟨hword, hmem⟩ := ih (List.forall_mem_nil _) h
        refine ⟨hword, fun d hd => Or.inr (List.mem_cons_of_mem c ?_)⟩
        exact (hmem d hd).resolve_left (by simp)
    · next hblank =>
      obtain ⟨hword, hmem⟩ := ih (List.forall_mem_cons.mpr ⟨by simpa using hblank, hpending⟩) h
      refine ⟨hword, fun d hd => ?_⟩
      rcases hmem d hd with hd | hd
      · rcases List.mem_cons.mp hd with rfl | hd
        · exact Or.inr List.mem_cons_self
        · exact Or.inl hd
      · exact Or.inr (List.mem_cons_of_mem c hd)

theorem wordsAfter_append {cs : List Char} (hcs : ∀ c ∈ cs, isBlank c = false)
    (pending rest : List Char) :
    wordsAfter pending (cs ++ rest) = wordsAfter (cs.reverse ++ pending) rest := by
  induction cs generalizing pending with
  | nil => rfl
  | cons c cs ih =>
    obtain ⟨hc, hcs⟩ := List.forall_mem_cons.mp hcs
    rw [List.cons_append, wordsAfter, if_neg (by simp [hc]), ih hcs]
    simp

theorem wordsAfter_of_stops {text : List Char} (h : Stops (fun c => !isBlank c) text)
    (pending : List Char) : wordsAfter pending text = close pending ++ wordsAfter [] text := by
  cases text with
  | nil => simp [wordsAfter, close]
  | cons c rest =>
    have hc : isBlank c = true := by simpa using h c rfl
    simp [wordsAfter, hc, close]

theorem wordsAfter_word {word : String} (h : IsWord word) {rest : List Char}
    (hrest : Stops (fun c => !isBlank c) rest) :
    wordsAfter [] (word.toList ++ rest) = word :: wordsAfter [] rest := by
  have hne : word.toList.reverse ≠ [] := by simpa using h.toList_ne
  rw [wordsAfter_append h.isBlank, List.append_nil, wordsAfter_of_stops hrest, close_of_ne_nil hne]
  simp

theorem toList_unwords_cons (word next : String) (words : List String) :
    (unwords (word :: next :: words)).toList =
      word.toList ++ ' ' :: (unwords (next :: words)).toList := by
  simp [unwords]

theorem unwords_cons (word : String) {ws : List String} (h : ws ≠ []) :
    unwords (word :: ws) = word ++ " " ++ unwords ws := by
  obtain ⟨next, ws, rfl⟩ := List.exists_cons_of_ne_nil h
  apply String.toList_inj.mp
  rw [toList_unwords_cons]
  simp

theorem unwords_append {ws vs : List String} (hws : ws ≠ []) (hvs : vs ≠ []) :
    unwords (ws ++ vs) = unwords ws ++ " " ++ unwords vs := by
  induction ws with
  | nil => exact absurd rfl hws
  | cons word rest ih =>
    by_cases hrest : rest = []
    · subst hrest
      rw [List.singleton_append, unwords_cons word hvs]
      simp [unwords]
    · rw [List.cons_append, unwords_cons word (by simp [hrest]), unwords_cons word hrest, ih hrest]
      simp only [String.append_assoc]

theorem mem_unwords {ws : List String} {c : Char} (h : c ∈ (unwords ws).toList) :
    c = ' ' ∨ ∃ word ∈ ws, c ∈ word.toList := by
  induction ws with
  | nil => cases h
  | cons word rest ih =>
    cases rest with
    | nil => exact Or.inr ⟨word, List.mem_cons_self, by simpa [unwords] using h⟩
    | cons next rest =>
      rw [toList_unwords_cons, List.mem_append, List.mem_cons] at h
      rcases h with h | rfl | h
      · exact Or.inr ⟨word, List.mem_cons_self, h⟩
      · exact Or.inl rfl
      · rcases ih h with h | ⟨other, hother, h⟩
        · exact Or.inl h
        · exact Or.inr ⟨other, List.mem_cons_of_mem word hother, h⟩

theorem words_unwords {ws : List String} (h : ∀ word ∈ ws, IsWord word) :
    words (unwords ws) = ws := by
  induction ws with
  | nil => rfl
  | cons word rest ih =>
    obtain ⟨hword, hrest⟩ := List.forall_mem_cons.mp h
    cases rest with
    | nil =>
      have hwords : wordsAfter [] (word.toList ++ []) = word :: wordsAfter [] [] :=
        wordsAfter_word hword (by simp [Stops])
      simpa [words, unwords, wordsAfter, close] using hwords
    | cons next rest =>
      have hstops : Stops (fun c => !isBlank c) (' ' :: (unwords (next :: rest)).toList) := by
        rintro c ⟨rfl⟩
        decide
      rw [words, toList_unwords_cons, wordsAfter_word hword hstops, wordsAfter, if_pos (by decide)]
      exact congrArg (word :: ·) (ih hrest)

/-- No word goes on behind a blank. -/
theorem wordsAfter_append_blank {b : Char} (hb : isBlank b = true) (pending text rest : List Char) :
    wordsAfter pending (text ++ b :: rest) = wordsAfter pending text ++ wordsAfter [] rest := by
  induction text generalizing pending with
  | nil => simp [wordsAfter, hb]
  | cons c text ih =>
    rw [List.cons_append, wordsAfter, wordsAfter]
    split
    · rw [ih, List.append_assoc]
    · exact ih _

/-- The text has the words in order and at least one blank between neighbours. -/
inductive Joins : List String → List Char → Prop
  | word (word : String) : Joins [word] word.toList
  | cons {word : String} {words : List String} {blanks rest : List Char} (hne : blanks ≠ [])
      (hblanks : ∀ c ∈ blanks, isBlank c = true) (h : Joins words rest) :
      Joins (word :: words) (word.toList ++ (blanks ++ rest))

theorem wordsAfter_blanks {blanks : List Char} (h : ∀ c ∈ blanks, isBlank c = true)
    (rest : List Char) : wordsAfter [] (blanks ++ rest) = wordsAfter [] rest := by
  induction blanks with
  | nil => rfl
  | cons c blanks ih =>
    obtain ⟨hc, hblanks⟩ := List.forall_mem_cons.mp h
    rw [List.cons_append, wordsAfter, if_pos hc, ih hblanks]
    rfl

theorem Joins.wordsAfter {words : List String} {text : List Char} (h : Joins words text)
    (hwords : ∀ word ∈ words, IsWord word) : Text.wordsAfter [] text = words := by
  induction h with
  | word word =>
    have hword : Text.wordsAfter [] (word.toList ++ []) = word :: Text.wordsAfter [] [] :=
      wordsAfter_word (hwords word List.mem_cons_self) (by simp [Stops])
    simpa [Text.wordsAfter, close] using hword
  | @cons word words blanks rest hne hblanks _ ih =>
    obtain ⟨hword, hrest⟩ := List.forall_mem_cons.mp hwords
    obtain ⟨c, tail, rfl⟩ := List.exists_cons_of_ne_nil hne
    have hstops : Stops (fun c => !isBlank c) (c :: tail ++ rest) := by
      rintro d ⟨rfl⟩
      simpa using hblanks c List.mem_cons_self
    rw [wordsAfter_word hword hstops, wordsAfter_blanks hblanks, ih hrest]

/-! ### Texts of numbers -/

/-- The text of the number is a word without a comment sign and is read as the number. -/
structure ReadsBack {α : Type} [NumberText α] (x : α) : Prop where
  isWord : IsWord (NumberText.text x)
  noComment : '#' ∉ (NumberText.text x).toList
  read? : NumberText.read? (NumberText.text x) = some x

end FuzzyInference.Text
