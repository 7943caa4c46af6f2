/-!
Lists ordered by a text that each member has as its key. A member that is inserted takes the place
of one with the same key.
-/
namespace FuzzyInference.Ordered

variable {T : Type} (key : T → String)

def insert (x : T) : List T → List T
  | [] => [x]
  | y :: rest =>
    if key x < key y then x :: y :: rest
    else if key x = key y then x :: rest
    else y :: insert x rest

/-- The first member with a key. -/
def get? (xs : List T) (k : String) : Option T := xs.find? fun x => key x = k

def erase (xs : List T) (k : String) : List T := xs.filter fun x => key x ≠ k

variable {key}

theorem key_of_get? {xs : List T} {k : String} {x : T} (h : get? key xs k = some x) :
    key x = k := by
  simpa using List.find?_some h

/-- After an insertion the key has its member and every other key what it had. -/
@[simp] theorem get?_insert (x : T) (xs : List T) (k : String) :
    get? key (insert key x xs) k = if k = key x then some x else get? key xs k := by
  induction xs with
  | nil => grind [insert, get?]
  | cons y rest ih =>
    simp only [get?] at ih ⊢
    simp only [insert]
    split
    · grind
    · split <;> grind

/-- After a removal the key has no member and every other key what it had. -/
@[simp] theorem get?_erase (xs : List T) (removed k : String) :
    get? key (erase key xs removed) k = if k = removed then none else get? key xs k := by
  simp only [get?, erase]
  induction xs with
  | nil => simp
  | cons x rest ih => grind

end FuzzyInference.Ordered
