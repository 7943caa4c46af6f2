import FuzzyInference.Binary64.Instances

/-!
Rank order. Values that rank alike stay in the order in which they come, so members may be left out
of a list before it is sorted or after, with the same result.
-/
namespace FuzzyInference

section Sorting

variable {T : Type} {le : T → T → Bool}

/-- Where a list ends whose members come before `x` is settled by the ranks alone. -/
theorem append_inj_of_rank {x : T} {before before' after after' : List T}
    (h : before ++ after = before' ++ after') (hbefore : ∀ y ∈ before, le x y = false)
    (hbefore' : ∀ y ∈ before', le x y = false) (hafter : ∀ y ∈ after, le x y = true)
    (hafter' : ∀ y ∈ after', le x y = true) : before = before' ∧ after = after' := by
  induction before generalizing before' with
  | nil =>
    cases before' with
    | nil => exact ⟨rfl, h⟩
    | cons y rest =>
      have hy : le x y = true := hafter y (by rw [List.nil_append] at h; simp [h])
      rw [hbefore' y (List.mem_cons_self ..)] at hy
      exact absurd hy Bool.false_ne_true
  | cons y rest ih =>
    cases before' with
    | nil =>
      have hy : le x y = true := hafter' y (by rw [List.nil_append] at h; simp [← h])
      rw [hbefore y (List.mem_cons_self ..)] at hy
      exact absurd hy Bool.false_ne_true
    | cons z rest' =>
      obtain ⟨rfl, hrest⟩ := List.cons.inj h
      obtain ⟨rfl, rfl⟩ := ih hrest (fun y hy => hbefore y (List.mem_cons_of_mem _ hy))
        (fun y hy => hbefore' y (List.mem_cons_of_mem _ hy))
      exact ⟨rfl, rfl⟩

theorem filter_mergeSort (htrans : ∀ a b c : T, le a b = true → le b c = true → le a c = true)
    (htotal : ∀ a b : T, (le a b || le b a) = true) (p : T → Bool) (xs : List T) :
    (xs.mergeSort le).filter p = (xs.filter p).mergeSort le := by
  induction xs with
  | nil => simp
  | cons x rest ih =>
    obtain ⟨before, after, hcons, hrest, hbefore⟩ := List.mergeSort_cons htrans htotal x rest
    by_cases hx : p x = true
    · obtain ⟨before', after', hcons', hrest', hbefore'⟩ :=
        List.mergeSort_cons htrans htotal x (rest.filter p)
      have hafter : ∀ y ∈ after, le x y = true := by
        have hsorted := List.pairwise_mergeSort htrans htotal (x :: rest)
        rw [hcons] at hsorted
        exact (List.pairwise_cons.mp (List.pairwise_append.mp hsorted).2.1).1
      have hafter' : ∀ y ∈ after', le x y = true := by
        have hsorted := List.pairwise_mergeSort htrans htotal (x :: rest.filter p)
        rw [hcons'] at hsorted
        exact (List.pairwise_cons.mp (List.pairwise_append.mp hsorted).2.1).1
      have hsplit : before.filter p ++ after.filter p = before' ++ after' := by
        rw [← List.filter_append, ← hrest, ih, hrest']
      obtain ⟨hleft, hright⟩ := append_inj_of_rank hsplit
        (fun y hy => by simpa using hbefore y (List.mem_filter.mp hy).1)
        (fun y hy => by simpa using hbefore' y hy)
        (fun y hy => hafter y (List.mem_filter.mp hy).1) hafter'
      rw [hcons, List.filter_append, List.filter_cons_of_pos hx, List.filter_cons_of_pos hx, hcons',
        hleft, hright]
    · rw [hcons, List.filter_append, List.filter_cons_of_neg hx, List.filter_cons_of_neg hx, ← ih,
        hrest, List.filter_append]

/-- Members that map to others of the same rank may be mapped before they are sorted or after. -/
theorem filterMap_mergeSort {U : Type} {le' : U → U → Bool} {f : T → Option U} {xs : List T}
    (hsome : ∀ x ∈ xs, (f x).isSome = true)
    (hle : ∀ x ∈ xs, ∀ y ∈ xs, ∀ u ∈ f x, ∀ v ∈ f y, le x y = le' u v) :
    (xs.mergeSort le).filterMap f = (xs.filterMap f).mergeSort le' := by
  cases xs with
  | nil => simp
  | cons x rest =>
    obtain ⟨default, -⟩ := Option.isSome_iff_exists.mp (hsome x (List.mem_cons_self ..))
    have hget : ∀ y ∈ x :: rest, f y = some ((f y).getD default) := by
      intro y hy
      obtain ⟨u, hu⟩ := Option.isSome_iff_exists.mp (hsome y hy)
      rw [hu, Option.getD_some]
    have hmap : ∀ ys : List T, (∀ y ∈ ys, y ∈ x :: rest) →
        ys.filterMap f = ys.map fun y => (f y).getD default := by
      intro ys hys
      induction ys with
      | nil => rfl
      | cons y ys ih =>
        obtain ⟨hy, hys⟩ := List.forall_mem_cons.mp hys
        rw [List.filterMap_cons_some (hget y hy), ih hys, List.map_cons]
    rw [hmap _ (fun y hy => List.mem_mergeSort.mp hy), hmap _ (fun _ hy => hy)]
    exact List.map_mergeSort fun y hy z hz => hle y hy z hz _ (hget y hy) _ (hget z hz)

end Sorting

/-! ### Selections -/

section Selection

variable {T U : Type}

/-- A selection from a list without repeated keys consists of the members with its keys. -/
theorem eq_filter_of_sublist {key : T → Nat} {xs ys : List T} (h : xs.Sublist ys)
    (hnodup : (ys.map key).Nodup) : xs = ys.filter fun y => key y ∈ xs.map key := by
  induction h with
  | slnil => rfl
  | @cons xs ys y hsublist ih =>
    rw [List.map_cons, List.nodup_cons] at hnodup
    have hy : key y ∉ xs.map key := fun hmem => hnodup.1 ((hsublist.map key).subset hmem)
    rw [List.filter_cons_of_neg (by simpa using hy)]
    exact ih hnodup.2
  | @cons_cons xs ys y hsublist ih =>
    rw [List.map_cons, List.nodup_cons] at hnodup
    have hrest : ∀ z ∈ ys, (key z ∈ (y :: xs).map key) ↔ key z ∈ xs.map key := by
      intro z hz
      have hne : key z ≠ key y := by
        rintro heq
        exact hnodup.1 (heq ▸ List.mem_map_of_mem hz)
      simp [hne]
    have hfilter : ys.filter (fun z => key z ∈ (y :: xs).map key) =
        ys.filter (fun z => key z ∈ xs.map key) :=
      List.filter_congr fun z hz => decide_eq_decide.mpr (hrest z hz)
    rw [List.filter_cons_of_pos (by simp), hfilter, ← ih hnodup.2]

/-- Positions that are left out do not matter if nothing that is kept is there. -/
theorem filterMap_of_sublist {f : T → Option U} {p : U → Bool} {xs ys : List T}
    (h : xs.Sublist ys) (hnodup : ys.Nodup)
    (hout : ∀ y ∈ ys, y ∉ xs → ∀ u ∈ f y, p u = false) :
    (xs.filterMap f).filter p = (ys.filterMap f).filter p := by
  induction h with
  | slnil => rfl
  | @cons xs ys y hsublist ih =>
    rw [List.nodup_cons] at hnodup
    have hy : y ∉ xs := fun hmem => hnodup.1 (hsublist.subset hmem)
    rw [ih hnodup.2 fun z hz => hout z (List.mem_cons_of_mem _ hz), List.filterMap_cons]
    cases hfy : f y with
    | none => rfl
    | some u =>
      have hu := hout y (List.mem_cons_self ..) hy u hfy
      rw [List.filter_cons_of_neg (by simp [hu])]
  | @cons_cons xs ys y hsublist ih =>
    rw [List.nodup_cons] at hnodup
    have hrest := ih hnodup.2 fun z hz hnot => hout z (List.mem_cons_of_mem _ hz) (by
      have hne : z ≠ y := by
        rintro rfl
        exact hnodup.1 hz
      simp [hne, hnot])
    rw [List.filterMap_cons, List.filterMap_cons]
    cases f y with
    | none => exact hrest
    | some u => simp only [List.filter_cons, hrest]

theorem filterMap_range_getElem? (xs : List T) :
    (List.range xs.length).filterMap (xs[·]?) = xs := by
  induction xs with
  | nil => rfl
  | cons x rest ih =>
    have hzero : (x :: rest)[0]? = some x := rfl
    rw [List.length_cons, List.range_succ_eq_map, List.filterMap_cons_some hzero,
      List.filterMap_map]
    exact congrArg (x :: ·) ih

end Selection

/-! ### Ranks of numbers -/

/-- Numbers whose order of all values is a total preorder. -/
class Ranked (α : Type) [Scalar α] : Prop where
  totalLe_trans : ∀ a b c : α, Scalar.totalLe a b = true → Scalar.totalLe b c = true →
    Scalar.totalLe a c = true
  totalLe_total : ∀ a b : α, (Scalar.totalLe a b || Scalar.totalLe b a) = true

instance : Ranked Float where
  totalLe_trans a b c hab hbc := by
    simp only [Scalar.totalLe, decide_eq_true_eq] at hab hbc ⊢
    omega
  totalLe_total a b := by
    simp only [Scalar.totalLe, Bool.or_eq_true, decide_eq_true_eq]
    omega

end FuzzyInference
