import FuzzyInference.Formula.Element
import FuzzyInference.Ordered

/-!
Vocabularies: the elements that formulas may use, ordered by name. An element is looked up by its
own name; one that is added takes the place of an element with the same name.
-/
namespace FuzzyInference.Formula

structure Vocabulary (α : Type) where
  elements : List (Element α)

namespace Vocabulary

variable {α : Type}

def add (v : Vocabulary α) (e : Element α) : Vocabulary α :=
  ⟨Ordered.insert Element.name e v.elements⟩

def remove (v : Vocabulary α) (name : String) : Vocabulary α :=
  ⟨Ordered.erase Element.name v.elements name⟩

def get? (v : Vocabulary α) (name : String) : Option (Element α) :=
  Ordered.get? Element.name v.elements name

/-- The element of a name. -/
def find (v : Vocabulary α) (name : String) : Except Error (Element α) :=
  match v.get? name with
  | some e => .ok e
  | none => .error (.notRegistered Infix.registryName name)

def isOperator (v : Vocabulary α) (name : String) : Bool := (v.get? name).any Element.isOperator

def isFunction (v : Vocabulary α) (name : String) : Bool := (v.get? name).any Element.isFunction

def operators (v : Vocabulary α) : List (Element α) := v.elements.filter Element.isOperator

def functions (v : Vocabulary α) : List (Element α) := v.elements.filter Element.isFunction

theorem name_of_get? {v : Vocabulary α} {name : String} {e : Element α} (h : v.get? name = some e) :
    e.name = name :=
  Ordered.key_of_get? h

/-- After an addition the name has its element and every other name what it had. -/
@[simp] theorem get?_add (v : Vocabulary α) (e : Element α) (name : String) :
    (v.add e).get? name = if name = e.name then some e else v.get? name :=
  Ordered.get?_insert e v.elements name

/-- After a removal the name has no element and every other name what it had. -/
@[simp] theorem get?_remove (v : Vocabulary α) (removed name : String) :
    (v.remove removed).get? name = if name = removed then none else v.get? name :=
  Ordered.get?_erase v.elements removed name

end Vocabulary

end FuzzyInference.Formula
