import FuzzyInference.Scalar

/-!
Linguistic terms: a name and a membership function. At an undefined value every membership is
undefined.
-/
namespace FuzzyInference

open Scalar

variable {α : Type}

inductive Shape (α : Type) where
  /-- Feet at `a` and `c`, peak at `b`. -/
  | triangle (a b c : α)
  /-- Feet at `a` and `d`, one from `b` to `c`. -/
  | trapezoid (a b c d : α)
  /-- One from `first` to `last`. -/
  | rectangle (first last : α)
  | constant (value : α)

namespace Shape

variable [Scalar α]

/-- The membership of a defined value; an infinite foot is an open shoulder. -/
def degree (x : α) : Shape α → α
  | triangle a b c =>
    if lt x a || lt c x then zero
    else if eq x b then one
    else if lt x b then
      if eq a (-infinity) then one else (x - a) / (b - a)
    else if eq c infinity then one
    else (c - x) / (c - b)
  | trapezoid a b c d =>
    if lt x a || lt d x then zero
    else if lt x b then
      if eq a (-infinity) then one else (x - a) / (b - a)
    else if le x c then one
    else if lt x d then (d - x) / (d - c)
    else if eq d infinity then one
    else zero
  | rectangle first last => if le first x && le x last then one else zero
  | constant value => value

def membership (shape : Shape α) (x : α) : α := if isNaN x then undefined else shape.degree x

end Shape

structure Term (α : Type) where
  name : String
  shape : Shape α

def Term.membership [Scalar α] (t : Term α) (x : α) : α := t.shape.membership x

/-- The position of the first term with a name. -/
def Term.index? (terms : List (Term α)) (name : String) : Option Nat :=
  terms.findIdx? fun term => term.name = name

end FuzzyInference
