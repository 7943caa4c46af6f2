import FuzzyInference.Comparison
import Mathlib.Algebra.Order.Field.Basic

/-!
Exact numbers. The elements of an ordered field, two infinities and an undefined value are scalars
without rounding; where a rule is needed for the infinities or the undefined value, it is that of
binary floating point. There is one zero, and a quotient by it has the sign of its dividend. Of the
square root nothing is fixed here.
-/
namespace FuzzyInference

/-- A function that stands for the square root. -/
class SquareRoot (K : Type) where
  root : K → K

inductive Exact (K : Type) where
  | number (x : K)
  | infinite (negative : Bool)
  | undefined
  deriving DecidableEq

namespace Exact

section Operations

variable {K : Type} [Field K] [LinearOrder K]

def add : Exact K → Exact K → Exact K
  | number x, number y => number (x + y)
  | infinite s, infinite t => if s = t then infinite s else undefined
  | infinite s, number _ => infinite s
  | number _, infinite t => infinite t
  | _, _ => undefined

def neg : Exact K → Exact K
  | number x => number (-x)
  | infinite s => infinite (!s)
  | undefined => undefined

/-- An infinity times a number. -/
def scale (s : Bool) (x : K) : Exact K :=
  if x = 0 then undefined else infinite (s != decide (x < 0))

def mul : Exact K → Exact K → Exact K
  | number x, number y => number (x * y)
  | infinite s, infinite t => infinite (s != t)
  | infinite s, number y => scale s y
  | number x, infinite t => scale t x
  | _, _ => undefined

def div : Exact K → Exact K → Exact K
  | number x, number y =>
    if y = 0 then if x = 0 then undefined else infinite (decide (x < 0)) else number (x / y)
  | infinite s, number y => infinite (s != decide (y < 0))
  | number _, infinite _ => number 0
  | _, _ => undefined

def abs : Exact K → Exact K
  | number x => number |x|
  | infinite _ => infinite false
  | undefined => undefined

def sqrt [SquareRoot K] : Exact K → Exact K
  | number x => if x < 0 then undefined else number (SquareRoot.root x)
  | infinite false => infinite false
  | _ => undefined

def eq : Exact K → Exact K → Bool
  | number x, number y => x = y
  | infinite s, infinite t => s = t
  | _, _ => false

def lt : Exact K → Exact K → Bool
  | number x, number y => x < y
  | infinite s, infinite t => s && !t
  | infinite s, number _ => s
  | number _, infinite t => !t
  | _, _ => false

def le (a b : Exact K) : Bool := lt a b || eq a b

/-- The undefined value comes last. -/
def totalLe : Exact K → Exact K → Bool
  | _, undefined => true
  | undefined, _ => false
  | a, b => le a b

instance [SquareRoot K] : Scalar (Exact K) where
  add := add
  sub a b := add a (neg b)
  mul := mul
  div := div
  neg := neg
  zero := number 0
  half := number (1 / 2)
  one := number 1
  two := number 2
  infinity := infinite false
  undefined := undefined
  abs := abs
  sqrt := sqrt
  eq := eq
  lt := lt
  le := le
  totalLe := totalLe
  isNaN := (· = undefined)
  isFinite
    | number _ => true
    | _ => false

end Operations

/-! ### Numbers -/

section Numbers

variable {K : Type} [Field K] [LinearOrder K] [SquareRoot K]

@[simp] theorem zero_eq : (Scalar.zero : Exact K) = number 0 := rfl

@[simp] theorem half_eq : (Scalar.half : Exact K) = number (1 / 2) := rfl

@[simp] theorem one_eq : (Scalar.one : Exact K) = number 1 := rfl

@[simp] theorem two_eq : (Scalar.two : Exact K) = number 2 := rfl

@[simp] theorem number_add (x y : K) : number x + number y = number (x + y) := rfl

@[simp] theorem number_sub (x y : K) : number x - number y = number (x - y) :=
  congrArg number (sub_eq_add_neg x y).symm

@[simp] theorem number_mul (x y : K) : number x * number y = number (x * y) := rfl

theorem number_div (x : K) {y : K} (h : y ≠ 0) : number x / number y = number (x / y) := if_neg h

theorem sqrt_number {x : K} (h : 0 ≤ x) :
    Scalar.sqrt (number x) = number (SquareRoot.root x) := if_neg (not_lt.mpr h)

@[simp] theorem abs_number (x : K) : Scalar.abs (number x) = number |x| := rfl

@[simp] theorem eq_number (x y : K) : Scalar.eq (number x) (number y) = decide (x = y) := rfl

@[simp] theorem lt_number (x y : K) : Scalar.lt (number x) (number y) = decide (x < y) := rfl

@[simp] theorem le_number (x y : K) : Scalar.le (number x) (number y) = decide (x ≤ y) := by
  have hle : decide (x ≤ y) = (decide (x < y) || decide (x = y)) := by
    rw [← Bool.decide_or, decide_eq_decide, le_iff_lt_or_eq]
  exact hle.symm

@[simp] theorem isNaN_number (x : K) : Scalar.isNaN (number x) = false := rfl

@[simp] theorem eq_infinity (x : K) : Scalar.eq (number x) Scalar.infinity = false := rfl

@[simp] theorem eq_neg_infinity (x : K) :
    Scalar.eq (number x) (-Scalar.infinity) = false := rfl

@[simp] theorem min_number (x y : K) : Scalar.min (number x) (number y) = number (min x y) := by
  simp only [Scalar.min, isNaN_number, lt_number, decide_eq_true_eq, Bool.false_eq_true, if_false]
  split
  · next h => rw [min_eq_left h.le]
  · next h => rw [min_eq_right (not_lt.mp h)]

@[simp] theorem max_number (x y : K) : Scalar.max (number x) (number y) = number (max x y) := by
  simp only [Scalar.max, isNaN_number, lt_number, decide_eq_true_eq, Bool.false_eq_true, if_false]
  split
  · next h => rw [max_eq_left h.le]
  · next h => rw [max_eq_right (not_lt.mp h)]

/-- Numbers that a tolerance tells apart are different. -/
theorem ne_of_tolerance {ε : Exact K} {x y : K}
    (h : Tolerance.eq ε (number x) (number y) = false) : x ≠ y := by
  rintro rfl
  simp [Tolerance.eq] at h

end Numbers

/-! ### Order -/

section Order

variable {K : Type} [Field K] [LinearOrder K] [SquareRoot K] {a b c : Exact K}

theorem eq_of_eq (h : Scalar.eq a b = true) : a = b := by
  cases a <;> cases b <;> simp_all [Scalar.eq, eq]

theorem eq_swap (a b : Exact K) : Scalar.eq a b = Scalar.eq b a := by
  cases a <;> cases b <;> simp [Scalar.eq, eq, eq_comm]

protected theorem lt_irrefl (a : Exact K) : Scalar.lt a a = false := by
  cases a <;> simp [Scalar.lt, lt]

protected theorem lt_trans (hab : Scalar.lt a b = true) (hbc : Scalar.lt b c = true) :
    Scalar.lt a c = true := by
  cases a with
  | number x =>
    cases c with
    | number z =>
      cases b with
      | number y => exact decide_eq_true ((of_decide_eq_true hab).trans (of_decide_eq_true hbc))
      | infinite s => cases s <;> simp_all [Scalar.lt, lt]
      | undefined => cases hab
    | _ => cases b <;> simp_all [Scalar.lt, lt]
  | _ => cases b <;> cases c <;> simp_all [Scalar.lt, lt]

protected theorem le_of_lt (h : Scalar.lt a b = true) : Scalar.le a b = true :=
  Bool.or_eq_true_iff.mpr (.inl h)

theorem lt_or_eq_of_le (h : Scalar.le a b = true) : Scalar.lt a b = true ∨ a = b :=
  (Bool.or_eq_true_iff.mp h).imp_right eq_of_eq

protected theorem lt_of_lt_of_le (hab : Scalar.lt a b = true) (hbc : Scalar.le b c = true) :
    Scalar.lt a c = true := by
  rcases lt_or_eq_of_le hbc with hlt | rfl
  · exact Exact.lt_trans hab hlt
  · exact hab

protected theorem le_trans (hab : Scalar.le a b = true) (hbc : Scalar.le b c = true) :
    Scalar.le a c = true := by
  rcases lt_or_eq_of_le hab with hlt | rfl
  · exact Exact.le_of_lt (Exact.lt_of_lt_of_le hlt hbc)
  · exact hbc

protected theorem lt_asymm (h : Scalar.lt a b = true) : Scalar.lt b a = false := by
  by_contra hba
  have hlt := Exact.lt_trans h (Bool.not_eq_false _ ▸ hba)
  rw [Exact.lt_irrefl] at hlt
  cases hlt

theorem isNaN_of_lt (h : Scalar.lt a b = true) :
    Scalar.isNaN a = false ∧ Scalar.isNaN b = false := by
  cases a <;> cases b <;> first | exact ⟨rfl, rfl⟩ | cases h

theorem lt_of_isNaN (h : Scalar.isNaN a = true ∨ Scalar.isNaN b = true) :
    Scalar.lt a b = false := by
  rw [Bool.eq_false_iff]
  intro hlt
  obtain ⟨ha, hb⟩ := isNaN_of_lt hlt
  rw [ha, hb] at h
  simp at h

/-- Two defined values are the same, or one of them is less. -/
theorem eq_or_lt (ha : Scalar.isNaN a = false) (hb : Scalar.isNaN b = false) :
    Scalar.eq a b = true ∨ Scalar.lt a b = true ∨ Scalar.lt b a = true := by
  cases a with
  | number x =>
    cases b with
    | number y =>
      rcases lt_trichotomy x y with hlt | heq | hgt
      · exact .inr (.inl (decide_eq_true hlt))
      · exact .inl (decide_eq_true heq)
      · exact .inr (.inr (decide_eq_true hgt))
    | infinite t => cases t <;> simp [Scalar.lt, lt]
    | undefined => cases hb
  | infinite s =>
    cases b with
    | number y => cases s <;> simp [Scalar.lt, lt]
    | infinite t => cases s <;> cases t <;> simp [Scalar.eq, eq, Scalar.lt, lt]
    | undefined => cases hb
  | undefined => cases ha

theorem isNaN_of_le (h : Scalar.le a b = true) :
    Scalar.isNaN a = false ∧ Scalar.isNaN b = false := by
  rcases lt_or_eq_of_le h with hlt | rfl
  · exact isNaN_of_lt hlt
  · cases a <;> first | exact ⟨rfl, rfl⟩ | cases h

protected theorem lt_or_le (ha : Scalar.isNaN a = false) (hb : Scalar.isNaN b = false) :
    Scalar.lt a b = true ∨ Scalar.le b a = true := by
  rcases eq_or_lt hb ha with heq | hba | hab
  · exact .inr (Bool.or_eq_true_iff.mpr (.inr heq))
  · exact .inr (Exact.le_of_lt hba)
  · exact .inl hab

/-- What lies between two numbers is a number. -/
theorem exists_number {l u : K} (hl : Scalar.le (number l) a = true)
    (hu : Scalar.le a (number u) = true) : ∃ x, a = number x ∧ l ≤ x ∧ x ≤ u := by
  cases a with
  | number x => exact ⟨x, rfl, by simpa using hl, by simpa using hu⟩
  | infinite s => cases s <;> simp [Scalar.le, le, lt, eq] at hl hu
  | undefined => simp [Scalar.le, le, lt, eq] at hl

end Order

end Exact

end FuzzyInference
