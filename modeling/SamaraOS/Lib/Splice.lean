import Mathlib

/-!
# Writing into a list at an offset

`splice z xs off ys` is `xs` with `ys` written over it from `off` on; a gap between the end
of `xs` and `off` is filled with `z`.
-/

namespace SamaraOS

open List

variable {α : Type*}

def splice (z : α) (xs : List α) (off : Nat) (ys : List α) : List α :=
  xs.take off ++ replicate (off - xs.length) z ++ ys ++ xs.drop (off + ys.length)

section

variable (z : α) (xs : List α) (off : Nat) (ys : List α)

theorem length_splice : (splice z xs off ys).length = max xs.length (off + ys.length) := by
  simp [splice]
  omega

theorem getElem?_splice (i : Nat) :
    (splice z xs off ys)[i]? = if off ≤ i ∧ i < off + ys.length then ys[i - off]?
      else if i < xs.length then xs[i]? else if i < off then some z else none := by
  have hhead : (xs.take off ++ replicate (off - xs.length) z).length = off := by
    simp
    omega
  unfold splice
  rw [append_assoc _ ys, getElem?_append, hhead]
  by_cases hlt : i < off
  · rw [if_pos hlt, if_neg (by omega)]
    by_cases hx : i < xs.length
    · rw [if_pos hx, getElem?_append_left (by simp; omega), getElem?_take_of_lt hlt]
    rw [if_neg hx, if_pos hlt, getElem?_append_right (by simp; omega),
      getElem?_replicate, if_pos (by rw [length_take]; omega)]
  rw [if_neg hlt, getElem?_append]
  by_cases hy : i < off + ys.length
  · rw [if_pos (by omega), if_pos ⟨by omega, hy⟩]
  rw [if_neg (by omega), if_neg (by omega), if_neg hlt, getElem?_drop]
  split
  · congr 1; omega
  next hx => exact getElem?_eq_none (by omega)

theorem splice_nil {xs : List α} {off : Nat} (h : off ≤ xs.length) : splice z xs off [] = xs := by
  simp [splice, Nat.sub_eq_zero_of_le h]

theorem splice_splice (zs : List α) :
    splice z (splice z xs off ys) (off + ys.length) zs = splice z xs off (ys ++ zs) := by
  apply ext_getElem?
  intro i
  simp only [getElem?_splice, length_splice, length_append, getElem?_append]
  split_ifs <;> first | rfl | omega | (congr 1; omega)

end

end SamaraOS
