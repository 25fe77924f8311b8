import Mathlib

/-!
# Streams with several sources

A stream whose elements carry the source that they came from.  `part` is what one source
contributed; it stays `Together` when nothing of another source lies inside.
-/

namespace SamaraOS.Tagged

open Option List

variable {ι α : Type*}

def Together (i : ι) (xs : List (ι × α)) : Prop :=
  ∀ a b c : Nat, a ≤ b → b ≤ c → xs[a]?.map Prod.fst = some i → xs[c]?.map Prod.fst = some i →
    xs[b]?.map Prod.fst = some i

section

variable [DecidableEq ι]

def part (i : ι) (xs : List (ι × α)) : List α :=
  (xs.filter fun x => x.1 = i).map Prod.snd

@[simp] theorem part_append (i : ι) (xs ys : List (ι × α)) :
    part i (xs ++ ys) = part i xs ++ part i ys := by
  simp [part]

theorem part_own (i : ι) (xs : List α) : part i (xs.map (i, ·)) = xs := by
  induction xs with
  | nil => rfl
  | cons x xs ih => simpa [part] using ih

theorem part_other {i j : ι} (h : i ≠ j) (xs : List α) : part i (xs.map (j, ·)) = [] := by
  induction xs with
  | nil => rfl
  | cons x xs ih => simp [part, h.symm]

theorem part_eq_nil {i : ι} {xs : List (ι × α)} : part i xs = [] ↔ ∀ x ∈ xs, x.1 ≠ i := by
  simp [part]

end

section

variable {i : ι} {xs ys : List (ι × α)}

theorem together_of_absent (h : ∀ x ∈ xs, x.1 ≠ i) : Together i xs := by
  intro a b c _ _ ha _
  obtain ⟨x, hx, rfl⟩ := map_eq_some_iff.1 ha
  exact absurd rfl (h x (mem_of_getElem? hx))

theorem Together.left (h : Together i (xs ++ ys)) : Together i xs := by
  intro a b c hab hbc ha hc
  obtain ⟨x, hx, hxi⟩ := map_eq_some_iff.1 hc
  have hlt := (List.getElem?_eq_some_iff.1 hx).1
  have := h a b c hab hbc
  rw [getElem?_append_left (by omega), getElem?_append_left (by omega),
    getElem?_append_left (by omega)] at this
  exact this ha hc

theorem Together.append_other (h : Together i xs) (hys : ∀ y ∈ ys, y.1 ≠ i) :
    Together i (xs ++ ys) := by
  intro a b c hab hbc ha hc
  by_cases hlt : c < xs.length
  · rw [getElem?_append_left (by omega)] at ha hc ⊢
    exact h a b c hab hbc ha hc
  rw [getElem?_append_right (by omega)] at hc
  obtain ⟨y, hy, rfl⟩ := map_eq_some_iff.1 hc
  exact absurd rfl (hys y (mem_of_getElem? hy))

theorem own_get (hys : ∀ y ∈ ys, y.1 = i) {a : Nat} (ha : a < ys.length) :
    ys[a]?.map Prod.fst = some i := by
  rw [getElem?_eq_getElem ha, map_some, hys _ (getElem_mem ha)]

theorem together_append_new (hxs : ∀ x ∈ xs, x.1 ≠ i) (hys : ∀ y ∈ ys, y.1 = i) :
    Together i (xs ++ ys) := by
  intro a b c hab hbc ha hc
  have hle : xs.length ≤ a := by
    by_contra hlt
    rw [getElem?_append_left (by omega)] at ha
    obtain ⟨x, hx, rfl⟩ := map_eq_some_iff.1 ha
    exact hxs x (mem_of_getElem? hx) rfl
  have hlt : c < (xs ++ ys).length := by
    obtain ⟨y, hy, -⟩ := map_eq_some_iff.1 hc
    exact (List.getElem?_eq_some_iff.1 hy).1
  rw [length_append] at hlt
  rw [getElem?_append_right (by omega)]
  exact own_get hys (by omega)

theorem together_append_own (hxs : ∃ x ∈ xs, x.1 = i) (hys : ∀ y ∈ ys, y.1 = i) (hne : ys ≠ []) :
    Together i (xs ++ ys) ↔ Together i xs ∧ xs.getLast?.map Prod.fst = some i := by
  obtain ⟨x, hx, hxi⟩ := hxs
  obtain ⟨p, hp, rfl⟩ := getElem_of_mem hx
  have hpos := length_pos_of_ne_nil hne
  have hlast : xs.getLast? = xs[xs.length - 1]? := getLast?_eq_getElem?
  constructor
  · intro h
    refine ⟨h.left, ?_⟩
    -- the last element of `xs` lies between the old part and the new one
    have hmid := h p (xs.length - 1) xs.length (by omega) (by omega)
    rw [getElem?_append_left hp,
      getElem?_append_left (by omega : xs.length - 1 < xs.length),
      getElem?_append_right (Nat.le_refl _), Nat.sub_self,
      getElem?_eq_getElem hp] at hmid
    rw [hlast]
    exact hmid (by simp [hxi]) (own_get hys hpos)
  rintro ⟨h, hend⟩ a b c hab hbc ha hc
  have hlt : c < (xs ++ ys).length := by
    obtain ⟨y, hy, -⟩ := map_eq_some_iff.1 hc
    exact (List.getElem?_eq_some_iff.1 hy).1
  rw [length_append] at hlt
  by_cases hb : b < xs.length
  · rw [getElem?_append_left (by omega)] at ha ⊢
    rw [hlast] at hend
    exact h a b (xs.length - 1) hab (by omega) ha hend
  rw [getElem?_append_right (by omega)]
  exact own_get hys (by omega)

end

end SamaraOS.Tagged
