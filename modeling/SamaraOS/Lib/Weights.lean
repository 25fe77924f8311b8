import Mathlib

/-!
# Sums over a list that changes in one place

A count over the elements of a list is a sum of weights.
-/

namespace SamaraOS

open List

variable {α M : Type*} [AddCommMonoid M] (f : α → M) {xs : List α} {i : Nat} {x : α}

theorem sum_map_set (h : xs[i]? = some x) (y : α) :
    ((xs.set i y).map f).sum + f x = (xs.map f).sum + f y := by
  induction xs generalizing i with
  | nil => cases h
  | cons a xs ih =>
    cases i with
    | zero =>
      cases h
      simp only [set_cons_zero, map_cons, sum_cons]
      rw [add_right_comm, add_comm (f y) (f x), add_right_comm]
    | succ i =>
      have := ih h
      simp only [set_cons_succ, map_cons, sum_cons]
      rw [add_assoc, this, add_assoc]

theorem sum_map_eraseIdx (h : xs[i]? = some x) :
    ((xs.eraseIdx i).map f).sum + f x = (xs.map f).sum := by
  induction xs generalizing i with
  | nil => cases h
  | cons a xs ih =>
    cases i with
    | zero =>
      cases h
      simp only [eraseIdx_cons_zero, map_cons, sum_cons, add_comm]
    | succ i =>
      simp only [eraseIdx_cons_succ, map_cons, sum_cons]
      rw [add_assoc, ih h]

omit [AddCommMonoid M] in
theorem map_set_same {xs : List α} {i : Nat} {x y : α} (h : xs[i]? = some x) (hf : f y = f x) :
    (xs.set i y).map f = xs.map f := by
  apply ext_getElem?
  intro j
  rw [getElem?_map, getElem?_map, getElem?_set]
  split
  next heq =>
    subst heq
    rw [h, if_pos (List.getElem?_eq_some_iff.1 h).1, Option.map_some, Option.map_some, hf]
  · rfl

end SamaraOS
