import Mathlib

/-!
# Removal by moving the last element into the hole

An unordered table kept in an array drops an entry by copying the last entry over it and
shrinking by one.  The contents are those of an ordinary removal, but the order is not: whoever
walks the table by index at the same time has to know which positions keep their entry.
-/

namespace SamaraOS.SwapOut

open List

variable {α β κ : Type*}

def swapOut (p : α → Bool) : List α → List α
  | [] => []
  | a :: l => if p a then l.getLast?.toList ++ l.dropLast else a :: swapOut p l

theorem getLast_dropLast_perm (l : List α) : List.Perm (l.getLast?.toList ++ l.dropLast) l := by
  rcases eq_nil_or_concat l with rfl | ⟨l', z, rfl⟩
  · simp
  · simpa using (perm_append_comm : List.Perm ([z] ++ l') (l' ++ [z]))

theorem swapOut_append (p : α → Bool) {P : List α} (h : ∀ x ∈ P, p x = false) (W : List α) :
    swapOut p (P ++ W) = P ++ swapOut p W := by
  induction P with
  | nil => rfl
  | cons a P ih =>
    have ha : p a = false := h a (by simp)
    simp [swapOut, ha, ih fun x hx => h x (by simp [hx])]

theorem swapOut_sublist_perm (p : α → Bool) (l : List α) :
    ∃ m : List α, m.Sublist l ∧ List.Perm (swapOut p l) m := by
  induction l with
  | nil => exact ⟨[], List.Sublist.refl _, List.Perm.refl _⟩
  | cons a l ih =>
    by_cases ha : p a = true
    · exact ⟨l, sublist_cons_self a l, by
        simpa [swapOut, ha] using getLast_dropLast_perm l⟩
    obtain ⟨m, hm, hp⟩ := ih
    exact ⟨a :: m, hm.cons_cons a, by simpa [swapOut, ha] using hp⟩

theorem swapOut_map (key : α → β) (p : β → Bool) (l : List α) :
    (swapOut (fun a => p (key a)) l).map key = swapOut p (l.map key) := by
  induction l with
  | nil => rfl
  | cons a l ih =>
    by_cases ha : p (key a) = true
    · cases hl : l.getLast? <;> simp [swapOut, ha, hl, map_dropLast]
    · simp [swapOut, ha, ih]

section Keyed

variable [DecidableEq κ] (key : α → κ)

def drop (l : List α) (k : κ) : List α := swapOut (fun a => key a == k) l

def dropAll (ks : List κ) (l : List α) : List α := ks.foldl (drop key) l

section

variable (l : List α) (k : κ) (ks : List κ)

@[simp] theorem dropAll_nil : dropAll key [] l = l := rfl

@[simp] theorem dropAll_cons (l : List α) :
    dropAll key (k :: ks) l = dropAll key ks (drop key l k) := rfl

theorem drop_sublist_perm : ∃ m : List α, m.Sublist l ∧ List.Perm (drop key l k) m :=
  swapOut_sublist_perm _ l

theorem drop_map : (drop key l k).map key = drop id (l.map key) k :=
  swapOut_map key (fun x => x == k) l

theorem dropAll_map (l : List α) : (dropAll key ks l).map key = dropAll id ks (l.map key) := by
  induction ks generalizing l with
  | nil => simp
  | cons k ks ih => rw [dropAll_cons, dropAll_cons, ih, drop_map]

end

variable {P l : List α} {a : α} {ks : List κ}

theorem drop_nodup (h : (l.map key).Nodup) (k : κ) : ((drop key l k).map key).Nodup := by
  obtain ⟨m, hm, hp⟩ := drop_sublist_perm key l k
  exact (hp.map key).nodup_iff.2 (h.sublist (hm.map key))

theorem mem_of_mem_drop {k : κ} (h : a ∈ drop key l k) : a ∈ l := by
  obtain ⟨m, hm, hp⟩ := drop_sublist_perm key l k
  exact hm.subset (hp.mem_iff.1 h)

theorem dropAll_nodup (h : (l.map key).Nodup) (ks : List κ) :
    ((dropAll key ks l).map key).Nodup := by
  induction ks generalizing l with
  | nil => exact h
  | cons k ks ih => exact ih (drop_nodup key h k)

theorem mem_of_mem_dropAll (h : a ∈ dropAll key ks l) : a ∈ l := by
  induction ks generalizing l with
  | nil => exact h
  | cons k ks ih => exact mem_of_mem_drop key (ih h)

theorem drop_length_le (l : List α) (k : κ) : (drop key l k).length ≤ l.length := by
  obtain ⟨m, hm, hp⟩ := drop_sublist_perm key l k
  exact hp.length_eq ▸ hm.length_le

theorem dropAll_length_le (ks : List κ) (l : List α) : (dropAll key ks l).length ≤ l.length := by
  induction ks generalizing l with
  | nil => exact Nat.le_refl _
  | cons k ks ih => exact Nat.le_trans (ih (drop key l k)) (drop_length_le key l k)

theorem drop_append {k : κ} (h : k ∉ P.map key) (W : List α) :
    drop key (P ++ W) k = P ++ drop key W k := by
  refine swapOut_append _ (fun x hx => ?_) W
  have hne : key x ≠ k := fun e => h (e ▸ mem_map_of_mem hx)
  simpa using hne

theorem drop_perm (hn : (l.map key).Nodup) (ha : a ∈ l) :
    List.Perm (a :: drop key l (key a)) l := by
  obtain ⟨A, B, rfl⟩ := append_of_mem ha
  have hA : key a ∉ A.map key := by
    intro hmem
    simp only [map_append, map_cons] at hn
    exact (nodup_append.1 hn).2.2 _ hmem _ (by simp) rfl
  rw [drop_append key hA]
  have hB : drop key (a :: B) (key a) = B.getLast?.toList ++ B.dropLast := by
    simp [drop, swapOut]
  rw [hB]
  have hmove : List.Perm (a :: (A ++ (B.getLast?.toList ++ B.dropLast))) (a :: (A ++ B)) :=
    ((getLast_dropLast_perm B).append_left A).cons a
  exact hmove.trans perm_middle.symm

theorem key_notMem_drop (hn : (l.map key).Nodup) (k : κ) : k ∉ (drop key l k).map key := by
  by_cases hk : k ∈ l.map key
  · obtain ⟨a, ha, rfl⟩ := mem_map.1 hk
    have hperm := (drop_perm key hn ha).map key
    have hn' := hperm.nodup_iff.2 hn
    simp only [map_cons, nodup_cons] at hn'
    exact hn'.1
  intro hmem
  obtain ⟨a, ha, rfl⟩ := mem_map.1 hmem
  exact hk (mem_map_of_mem (mem_of_mem_drop key ha))

theorem dropAll_append {D T W : List α} (hn : ((P ++ W).map key).Nodup) (hW : List.Perm W (D ++ T))
    : ∃ Z, dropAll key (D.map key) (P ++ W) = P ++ Z ∧ List.Perm Z T := by
  induction D generalizing W with
  | nil => exact ⟨W, rfl, hW⟩
  | cons d D ih =>
    have hd : d ∈ W := hW.mem_iff.2 (by simp)
    have hsplit := hn
    rw [map_append, nodup_append] at hsplit
    have hP : key d ∉ P.map key := fun hmem =>
      hsplit.2.2 _ hmem _ (mem_map_of_mem hd) rfl
    have hdrop : List.Perm (drop key W (key d)) (D ++ T) :=
      ((drop_perm key hsplit.2.1 hd).trans hW).cons_inv
    have hn' : ((P ++ drop key W (key d)).map key).Nodup := by
      rw [← drop_append key hP]
      exact drop_nodup key hn (key d)
    obtain ⟨Z, hZ, hperm⟩ := ih hn' hdrop
    refine ⟨Z, ?_, hperm⟩
    rw [map_cons, dropAll_cons, drop_append key hP, hZ]

theorem dropAll_keeps (h : ∀ k ∈ ks, k ∉ P.map key) (W : List α) :
    ∃ Y, dropAll key ks (P ++ W) = P ++ Y := by
  induction ks generalizing W with
  | nil => exact ⟨W, rfl⟩
  | cons k ks ih =>
    obtain ⟨Y, hY⟩ := ih (fun x hx => h x (by simp [hx])) (drop key W k)
    exact ⟨Y, by rw [dropAll_cons, drop_append key (h k (by simp)), hY]⟩

theorem dropAll_hole {A B : List α} {d t : α} (hA : key d ∉ A.map key)
    (hks : ∀ k ∈ ks, k ∉ (A ++ [t]).map key) :
    ∃ Y, dropAll key (key d :: ks) (A ++ d :: (B ++ [t])) = (A ++ [t]) ++ Y := by
  have hfirst : drop key (A ++ d :: (B ++ [t])) (key d) = (A ++ [t]) ++ B := by
    rw [drop_append key hA]
    simp [drop, swapOut]
  obtain ⟨Y, hY⟩ := dropAll_keeps key hks B
  exact ⟨Y, by rw [dropAll_cons, hfirst, hY]⟩

end Keyed

end SamaraOS.SwapOut
