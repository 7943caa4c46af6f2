import FuzzyInference.Error
import FuzzyInference.Ordered

/-!
Named collections of components. The entries are kept in the order of their keys, which is the order
in which keys and components are listed; a look-up that fails names the registry and the key.
-/
namespace FuzzyInference

structure Registry (T : Type) where
  name : String
  entries : List (String × T)

namespace Registry

variable {T : Type}

def empty (name : String) : Registry T := ⟨name, []⟩

def register (r : Registry T) (key : String) (component : T) : Registry T :=
  { r with entries := Ordered.insert Prod.fst (key, component) r.entries }

def deregister (r : Registry T) (key : String) : Registry T :=
  { r with entries := Ordered.erase Prod.fst r.entries key }

def get? (r : Registry T) (key : String) : Option T :=
  (Ordered.get? Prod.fst r.entries key).map Prod.snd

def contains (r : Registry T) (key : String) : Bool := (r.get? key).isSome

def keys (r : Registry T) : List String := r.entries.map Prod.fst

def components (r : Registry T) : List T := r.entries.map Prod.snd

/-- The name and the keys of a registry, as a record with quoted texts. -/
def text (r : Registry T) : String :=
  let quoted (s : String) := s!"\"{s}\""
  s!"ConstructionFactory \x7b name: {quoted r.name}, keys: [" ++
    ", ".intercalate (r.keys.map quoted) ++ "] \x7d"

/-- The component of a key. -/
def find (r : Registry T) (key : String) : Except Error T :=
  match r.get? key with
  | some component => .ok component
  | none => .error (.notRegistered r.name key)

/-- A registry of the given components, registered one after another. -/
def ofList (name : String) (entries : List (String × T)) : Registry T :=
  entries.foldl (fun r entry => r.register entry.1 entry.2) (empty name)

/-- After a registration the key has its component and every other key what it had. -/
@[simp] theorem get?_register (r : Registry T) (key other : String) (component : T) :
    (r.register key component).get? other =
      if other = key then some component else r.get? other := by
  simp only [get?, register, Ordered.get?_insert]
  split <;> rfl

/-- After a removal the key has no component and every other key what it had. -/
@[simp] theorem get?_deregister (r : Registry T) (key other : String) :
    (r.deregister key).get? other = if other = key then none else r.get? other := by
  simp only [get?, deregister, Ordered.get?_erase]
  split <;> rfl

theorem find_of_not_contains {r : Registry T} {key : String} (h : r.contains key = false) :
    r.find key = .error (.notRegistered r.name key) := by
  have hnone : r.get? key = none := by
    rw [← Option.isNone_iff_eq_none, ← Option.not_isSome]
    exact congrArg not h
  rw [find, hnone]

theorem exists_find_of_contains {r : Registry T} {key : String} (h : r.contains key = true) :
    ∃ component, r.find key = .ok component := by
  obtain ⟨component, hsome⟩ := Option.isSome_iff_exists.mp h
  exact ⟨component, by rw [find, hsome]⟩

/-- Of the components that are registered the last one with the key is found. -/
theorem get?_ofList (name : String) (entries : List (String × T)) (key : String) :
    (ofList name entries).get? key =
      (entries.reverse.find? fun entry => entry.1 = key).map Prod.snd := by
  have hfold : ∀ r : Registry T,
      (entries.foldl (fun r entry => r.register entry.1 entry.2) r).get? key =
        ((entries.reverse.find? fun entry => entry.1 = key).map Prod.snd).or (r.get? key) := by
    induction entries with
    | nil => exact fun r => rfl
    | cons entry entries ih =>
      intro r
      rw [List.foldl_cons, ih, get?_register, List.reverse_cons, List.find?_append]
      cases List.find? (fun entry => entry.1 = key) entries.reverse with
      | some found => simp
      | none =>
        by_cases hkey : entry.1 = key
        · simp [hkey]
        · simp [hkey, Ne.symm hkey]
  rw [ofList, hfold]
  exact Option.or_none

theorem mem_of_find_ofList {name key : String} {entries : List (String × T)} {component : T}
    (h : (ofList name entries).find key = .ok component) : (key, component) ∈ entries := by
  unfold find at h
  rw [get?_ofList] at h
  cases hfind : entries.reverse.find? (fun entry => entry.1 = key) with
  | none =>
    rw [hfind] at h
    cases h
  | some entry =>
    rw [hfind] at h
    obtain rfl : entry.2 = component := Except.ok.inj h
    have hkey : entry.1 = key := by simpa using List.find?_some hfind
    subst hkey
    exact List.mem_reverse.mp (List.mem_of_find?_eq_some hfind)

/-- Among components that are registered by their names, a key finds the one with that name. -/
theorem name_of_find (name : T → String) {registry key : String} {components : List T}
    {component : T}
    (h : (ofList registry (components.map fun c => (name c, c))).find key = .ok component) :
    component ∈ components ∧ name component = key := by
  obtain ⟨c, hc, heq⟩ := List.mem_map.mp (mem_of_find_ofList h)
  obtain ⟨rfl, rfl⟩ := Prod.mk.inj heq
  exact ⟨hc, rfl⟩

end Registry

end FuzzyInference
