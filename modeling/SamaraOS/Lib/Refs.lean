import Mathlib

/-!
# Tables of counted nodes

The nodes of a table count the references to them.  References come from outside, and in a
linked table also from nodes to their parents.  Node 0 is the root: it is always there and is
not counted.  `put` gives a reference back, frees the node with the last one, and then goes on
with the node's own reference to its parent.
-/

namespace SamaraOS.Refs

open Function Finset

variable {α : Type} {but : Nat → Prop} {fuel : Nat}

structure Node (α : Type) where
  used : Bool
  refs : Int
  parent : Nat
  info : α

abbrev Table (α : Type) := Nat → Node α

def get (t : Table α) (i : Nat) : Table α :=
  if i = 0 then t else update t i { t i with refs := (t i).refs + 1 }

def free (t : Table α) (i : Nat) : Table α := update t i { t i with used := false }

def unref (t : Table α) (i : Nat) : Table α :=
  update t i { t i with refs := (t i).refs - 1 }

def put (linked : Bool) : Nat → Table α → Nat → Table α
  | 0, t, _ => t
  | fuel + 1, t, i =>
    if i = 0 then t
    else if 0 < ((unref t i) i).refs then unref t i
    else if linked then put linked fuel (free (unref t i) i) (t i).parent
    else free (unref t i) i

def firstFree (n : Nat) (t : Table α) : Option Nat :=
  (List.range n).find? fun i => i ≠ 0 && !(t i).used

def make (linked : Bool) (t : Table α) (i parent : Nat) (info : α) : Table α :=
  let t := update t i ⟨true, 0, parent, info⟩
  if linked then update t parent { t parent with refs := (t parent).refs + 1 } else t

/-! ## Counts -/

def kids (n : Nat) (t : Table α) (i : Nat) : Finset Nat :=
  (range n).filter fun j => j ≠ 0 ∧ (t j).used ∧ (t j).parent = i

def fromKids (linked : Bool) (n : Nat) (t : Table α) (i : Nat) : Nat :=
  if linked then (kids n t i).card else 0

/-- Every count is right if `h i` references to `i` are held outside. -/
structure Counted (linked : Bool) (n : Nat) (t : Table α) (h : Nat → Nat) : Prop where
  root : (t 0).used
  held : ∀ i, 0 < h i → i < n ∧ (t i).used
  parent : linked → ∀ i, i < n → i ≠ 0 → (t i).used →
    (t i).parent < n ∧ (t (t i).parent).used
  refs : ∀ i, i < n → i ≠ 0 → (t i).used → (t i).refs = h i + fromKids linked n t i

def Positive (n : Nat) (t : Table α) (but : Nat → Prop) : Prop :=
  ∀ i, i < n → i ≠ 0 → (t i).used → but i ∨ 0 < (t i).refs

def add (h : Nat → Nat) (i : Nat) : Nat → Nat := fun j => h j + if j = i then 1 else 0

theorem add_self (h : Nat → Nat) (i : Nat) : add h i i = h i + 1 := by simp [add]

theorem add_of_ne (h : Nat → Nat) {i j : Nat} (hne : j ≠ i) : add h i j = h j := by simp [add, hne]

theorem kids_congr {n : Nat} {t t' : Table α} (hused : ∀ j, (t' j).used = (t j).used)
    (hparent : ∀ j, (t' j).parent = (t j).parent) (i : Nat) : kids n t' i = kids n t i := by
  unfold kids
  simp only [hused, hparent]

theorem fromKids_congr {linked : Bool} {n : Nat} {t t' : Table α}
    (hused : ∀ j, (t' j).used = (t j).used) (hparent : ∀ j, (t' j).parent = (t j).parent) (i : Nat) :
    fromKids linked n t' i = fromKids linked n t i := by
  unfold fromKids
  rw [kids_congr hused hparent]

section Update

variable {t : Table α} {i j : Nat}

theorem update_refs_used (r : Int) : (update t i { t i with refs := r } j).used = (t j).used := by
  by_cases hij : j = i
  · subst hij
    simp
  · simp [hij]

theorem update_refs_parent (r : Int) :
    (update t i { t i with refs := r } j).parent = (t j).parent := by
  by_cases hij : j = i
  · subst hij
    simp
  · simp [hij]

theorem update_refs_refs (r : Int) :
    (update t i { t i with refs := r } j).refs = if j = i then r else (t j).refs := by
  by_cases hij : j = i
  · subst hij
    simp
  · simp [hij]

end Update

variable {linked : Bool} {n : Nat} {t : Table α} {h : Nat → Nat} {i : Nat}

theorem Counted.lt (hc : Counted linked n t (add h i)) : i < n ∧ (t i).used :=
  hc.held i (by rw [add_self]; omega)

theorem Counted.root_iff (hn : 0 < n) : Counted linked n t (add h 0) ↔ Counted linked n t h := by
  constructor
  · intro hc
    refine ⟨hc.root, fun i hi => hc.held i (Nat.lt_of_lt_of_le hi (Nat.le_add_right _ _)),
      hc.parent, fun i hi h0 hu => ?_⟩
    rw [hc.refs i hi h0 hu, add_of_ne h h0]
  intro hc
  refine ⟨hc.root, fun i hi => ?_, hc.parent, fun i hi h0 hu => ?_⟩
  · by_cases h0 : i = 0
    · subst h0
      exact ⟨hn, hc.root⟩
    rw [add_of_ne h h0] at hi
    exact hc.held i hi
  · rw [hc.refs i hi h0 hu, add_of_ne h h0]

theorem Counted.setRefs {r : Int} {g : Nat → Nat} (hc : Counted linked n t g)
    (hheld : ∀ j, 0 < h j → j < n ∧ (t j).used) (hne : ∀ j, j ≠ i → h j = g j)
    (hr : r - h i = (t i).refs - g i) : Counted linked n (update t i { t i with refs := r }) h := by
  refine ⟨?_, fun j hj => ?_, fun hl j hj hj0 hju => ?_, fun j hj hj0 hju => ?_⟩
  · rw [update_refs_used]
    exact hc.root
  · rw [update_refs_used]
    exact hheld j hj
  · rw [update_refs_used] at hju
    rw [update_refs_parent, update_refs_used]
    exact hc.parent hl j hj hj0 hju
  rw [update_refs_used] at hju
  rw [update_refs_refs, fromKids_congr (t := t) (fun _ => update_refs_used _)
    (fun _ => update_refs_parent _)]
  have := hc.refs j hj hj0 hju
  split
  next hji =>
    subst hji
    omega
  next hji => rw [hne j hji, this]

theorem Counted.get (hc : Counted linked n t h) (hi : i < n) (hu : (t i).used) :
    Counted linked n (get t i) (add h i) := by
  by_cases h0 : i = 0
  · subst h0
    simpa [Refs.get] using (Counted.root_iff (by omega)).mpr hc
  rw [Refs.get, if_neg h0]
  refine hc.setRefs (fun j hj => ?_) (fun j hji => add_of_ne h hji) ?_
  · by_cases hji : j = i
    · subst hji
      exact ⟨hi, hu⟩
    rw [add_of_ne h hji] at hj
    exact hc.held j hj
  rw [add_self]
  omega

theorem Counted.unref (hc : Counted linked n t (add h i)) : Counted linked n (unref t i) h := by
  refine hc.setRefs (fun j hj => hc.held j (Nat.lt_of_lt_of_le hj (Nat.le_add_right _ _)))
    (fun j hji => (add_of_ne h hji).symm) ?_
  rw [add_self]
  omega

section Free

theorem free_used (j : Nat) : (free (Refs.unref t i) i j).used = (j ≠ i && (t j).used) := by
  unfold free Refs.unref
  by_cases hji : j = i
  · subst hji
    simp
  · simp [hji]

theorem free_parent (j : Nat) : (free (Refs.unref t i) i j).parent = (t j).parent := by
  unfold free Refs.unref
  by_cases hji : j = i
  · subst hji
    simp
  · simp [hji]

theorem free_refs {j : Nat} (hji : j ≠ i) : (free (Refs.unref t i) i j).refs = (t j).refs := by
  unfold free Refs.unref
  simp [hji]

theorem kids_free (j : Nat) : kids n (free (Refs.unref t i) i) j = (kids n t j).erase i := by
  ext x
  simp only [kids, mem_filter, mem_range, mem_erase, free_used, free_parent,
    Bool.and_eq_true, decide_eq_true_eq]
  tauto

theorem Counted.free (hc : Counted linked n t (add h i)) (h0 : i ≠ 0)
    (hlast : h i + fromKids linked n t i = 0) :
    Counted linked n (free (Refs.unref t i) i) (if linked then add h (t i).parent else h) := by
  have hi := hc.lt
  have hno : linked → kids n t i = ∅ := by
    intro hl
    simp only [fromKids, hl, if_true] at hlast
    exact card_eq_zero.1 (by omega)
  have hnotkid : linked → ∀ j, j < n → j ≠ 0 → (t j).used → (t j).parent ≠ i := by
    intro hl j hj hj0 hju hp
    have : j ∈ kids n t i := mem_filter.2 ⟨mem_range.2 hj, hj0, hju, hp⟩
    rw [hno hl] at this
    exact absurd this (notMem_empty j)
  have hheld : ∀ j, 0 < h j → j < n ∧ (t j).used ∧ j ≠ i := by
    intro j hj
    have := hc.held j (Nat.lt_of_lt_of_le hj (Nat.le_add_right _ _))
    exact ⟨this.1, this.2, fun heq => by subst heq; omega⟩
  refine ⟨?_, fun j hj => ?_, fun hl j hj hj0 hju => ?_, fun j hj hj0 hju => ?_⟩
  · rw [free_used]
    simp [hc.root, h0.symm]
  · rw [free_used]
    split at hj
    next hl =>
      by_cases hjp : j = (t i).parent
      · subst hjp
        have hp := hc.parent hl i hi.1 h0 hi.2
        exact ⟨hp.1, by simp [hp.2, hnotkid hl i hi.1 h0 hi.2]⟩
      rw [add_of_ne h hjp] at hj
      have := hheld j hj
      exact ⟨this.1, by simp [this.2]⟩
    have := hheld j hj
    exact ⟨this.1, by simp [this.2]⟩
  · rw [free_used] at hju
    simp only [ne_eq, Bool.and_eq_true, decide_eq_true_eq] at hju
    have hp := hc.parent hl j hj hj0 hju.2
    rw [free_parent, free_used]
    exact ⟨hp.1, by simp [hp.2, hnotkid hl j hj hj0 hju.2]⟩
  rw [free_used] at hju
  simp only [ne_eq, Bool.and_eq_true, decide_eq_true_eq] at hju
  have hold := hc.refs j hj hj0 hju.2
  rw [add_of_ne h hju.1] at hold
  rw [free_refs hju.1, hold]
  unfold fromKids
  rw [kids_free]
  split
  swap
  · rfl
  next hl =>
  have hmem : i ∈ kids n t j ↔ (t i).parent = j := by
    simp [kids, hi.1, hi.2, h0]
  by_cases hjp : j = (t i).parent
  · subst hjp
    have hcard := card_erase_add_one (hmem.2 rfl)
    rw [add_self]
    omega
  · rw [add_of_ne h hjp, erase_eq_of_notMem (fun hm => hjp (hmem.1 hm).symm)]

end Free

def live (n : Nat) (t : Table α) : Finset Nat := (range n).filter fun j => (t j).used

theorem live_card_le (t : Table α) : (live n t).card ≤ n := by
  calc (live n t).card ≤ (range n).card := card_filter_le _ _
    _ = n := card_range n

theorem live_free (hi : i < n) (hu : (t i).used) :
    (live n (free (Refs.unref t i) i)).card + 1 = (live n t).card := by
  have hmem : i ∈ live n t := mem_filter.2 ⟨mem_range.2 hi, hu⟩
  have herase : live n (free (Refs.unref t i) i) = (live n t).erase i := by
    ext x
    simp only [live, mem_filter, mem_range, mem_erase, free_used,
      Bool.and_eq_true, decide_eq_true_eq]
    tauto
  rw [herase]
  exact card_erase_add_one hmem

theorem unref_self : (Refs.unref t i i).refs = (t i).refs - 1 := by simp [Refs.unref]

theorem Counted.put (hfuel : (live n t).card ≤ fuel)
    (hc : Counted linked n t (add h i)) : Counted linked n (put linked fuel t i) h := by
  have hi := hc.lt
  have hn : 0 < n := by omega
  induction fuel generalizing t i with
  | zero =>
    have hmem : i ∈ live n t := mem_filter.2 ⟨mem_range.2 hi.1, hi.2⟩
    have := card_pos.2 ⟨i, hmem⟩
    omega
  | succ fuel ih =>
    unfold Refs.put
    split
    next h0 =>
      subst h0
      exact (Counted.root_iff hn).1 hc
    next h0 =>
    have hrefs := hc.refs i hi.1 h0 hi.2
    rw [add_self] at hrefs
    rw [unref_self]
    split
    · exact hc.unref
    next hpos =>
    have hfree := hc.free h0 (by omega)
    split
    next hl =>
      rw [if_pos hl] at hfree
      have hcard := live_free (t := t) hi.1 hi.2
      exact ih (by omega) hfree hfree.lt
    next hl =>
    rw [if_neg hl] at hfree
    exact hfree

theorem Positive.put (hp : Positive n t but) (fuel : Nat) (i : Nat) :
    Positive n (put linked fuel t i) but := by
  induction fuel generalizing t i with
  | zero => exact hp
  | succ fuel ih =>
    have hfree : Positive n (free (Refs.unref t i) i) but := by
      intro j hj hj0 hju
      rw [free_used] at hju
      simp only [ne_eq, Bool.and_eq_true, decide_eq_true_eq] at hju
      rw [free_refs hju.1]
      exact hp j hj hj0 hju.2
    unfold Refs.put
    split
    · exact hp
    next h0 =>
    split
    next hpos =>
      intro j hj hj0 hju
      by_cases hji : j = i
      · subst hji
        exact .inr hpos
      simp only [Refs.unref, update_of_ne hji] at hju ⊢
      exact hp j hj hj0 hju
    split
    · exact ih hfree _
    · exact hfree

theorem Positive.get (hp : Positive n t but) (i : Nat) :
    Positive n (get t i) but := by
  unfold Refs.get
  split
  · exact hp
  intro j hj hj0 hju
  rw [update_refs_used] at hju
  rw [update_refs_refs]
  refine (hp j hj hj0 hju).imp_right fun hpos => ?_
  split
  next hji =>
    subst hji
    omega
  · exact hpos

theorem Positive.settle (hp : Positive n t (· = i)) (hc : Counted linked n t (add h i)) :
    Positive n t fun _ => False := by
  intro j hj hj0 hju
  rcases hp j hj hj0 hju with hji | hpos
  · have hrefs := hc.refs j hj hj0 hju
    rw [hji, add_self] at hrefs
    rw [hji]
    exact .inr (by omega)
  · exact .inr hpos

/-! ## New nodes -/

theorem firstFree_some {i : Nat} (hf : firstFree n t = some i) :
    i < n ∧ i ≠ 0 ∧ (t i).used = false := by
  have hmem := List.mem_of_find?_eq_some hf
  have hp := List.find?_some hf
  simp only [ne_eq, Bool.and_eq_true, decide_eq_true_eq, Bool.not_eq_true'] at hp
  exact ⟨List.mem_range.1 hmem, hp⟩

section Make

variable {p : Nat} {info : α}

section

variable (hpi : p ≠ i) (j : Nat)

include hpi

theorem make_used : (make linked t i p info j).used = (j = i || (t j).used) := by
  unfold make
  by_cases hji : j = i
  · subst hji
    split <;> simp [hpi.symm]
  split
  · rw [update_refs_used]; simp [hji]
  · simp [hji]

theorem make_parent : (make linked t i p info j).parent = if j = i then p else (t j).parent := by
  unfold make
  by_cases hji : j = i
  · subst hji
    split <;> simp [hpi.symm]
  split
  · rw [update_refs_parent]; simp [hji]
  · simp [hji]

theorem make_refs : (make linked t i p info j).refs =
      if j = i then 0 else (t j).refs + if linked ∧ j = p then 1 else 0 := by
  unfold make
  by_cases hji : j = i
  · subst hji
    split <;> simp [hpi.symm]
  split
  next hl =>
    by_cases hjp : j = p
    · subst hjp
      simp [hji, hl]
    · simp [hji, hjp]
  next hl => simp [hji, hl]

theorem kids_make (hi : i < n) (h0 : i ≠ 0) (hu : (t i).used = false) (j : Nat) :
    kids n (make linked t i p info) j = if j = p then insert i (kids n t j) else kids n t j := by
  ext x
  by_cases hxi : x = i
  · subst hxi
    by_cases hjp : j = p
    · subst hjp
      simp [kids, make_used hpi, make_parent hpi, hi, h0]
    · simp [kids, make_used hpi, make_parent hpi, hu, hjp, Ne.symm hjp]
  by_cases hjp : j = p
  · subst hjp
    simp [kids, make_used hpi, make_parent hpi, hxi]
  · simp [kids, make_used hpi, make_parent hpi, hxi, hjp]

end

theorem Counted.make (hc : Counted linked n t h) (hi : i < n) (h0 : i ≠ 0) (hu : (t i).used = false)
    (hp : p < n) (hpu : (t p).used) : Counted linked n (make linked t i p info) h := by
  have hpi : p ≠ i := by
    intro heq
    rw [heq, hu] at hpu
    cases hpu
  have hnotheld : h i = 0 := by
    by_contra hne
    have := (hc.held i (Nat.pos_of_ne_zero hne)).2
    rw [hu] at this
    cases this
  have hnokid : linked → kids n t i = ∅ := by
    intro hl
    apply eq_empty_of_forall_notMem
    intro x hx
    obtain ⟨hx, hx0, hxu, hxp⟩ := mem_filter.1 hx
    have := (hc.parent hl x (mem_range.1 hx) hx0 hxu).2
    rw [hxp, hu] at this
    cases this
  refine ⟨?_, fun j hj => ?_, fun hl j hj hj0 hju => ?_, fun j hj hj0 hju => ?_⟩
  · rw [make_used hpi]
    simp [hc.root]
  · rw [make_used hpi]
    have := hc.held j hj
    exact ⟨this.1, by simp [this.2]⟩
  · rw [make_parent hpi, make_used hpi]
    split
    · exact ⟨hp, by simp [hpu]⟩
    next hji =>
    rw [make_used hpi] at hju
    simp only [hji, decide_false, Bool.false_or] at hju
    have := hc.parent hl j hj hj0 hju
    exact ⟨this.1, by simp [this.2]⟩
  rw [make_refs hpi]
  unfold fromKids
  rw [kids_make hpi hi h0 hu]
  split
  next hji =>
    subst hji
    rw [hnotheld, if_neg hpi.symm]
    split
    next hl => simp [hnokid hl]
    · rfl
  next hji =>
  rw [make_used hpi] at hju
  simp only [hji, decide_false, Bool.false_or] at hju
  have hold := hc.refs j hj hj0 hju
  unfold fromKids at hold
  rw [hold]
  by_cases hl : linked
  · by_cases hjp : j = p
    · subst hjp
      have hnot : i ∉ kids n t j := by simp [kids, hu]
      simp only [hl, if_true, and_self, card_insert_of_notMem hnot]
      omega
    · simp [hl, hjp]
  · simp [hl]

theorem Positive.make (hp : Positive n t fun _ => False) (hpi : p ≠ i) :
    Positive n (make linked t i p info) (· = i) := by
  intro j hj hj0 hju
  by_cases hji : j = i
  · exact .inl hji
  rw [make_used hpi] at hju
  simp only [hji, decide_false, Bool.false_or] at hju
  rw [make_refs hpi, if_neg hji]
  rcases hp j hj hj0 hju with hno | hpos
  · exact hno.elim
  refine .inr ?_
  split <;> omega

end Make

theorem put_of_ne {j : Nat} (hc : Counted linked n t (add h i)) (hji : j ≠ i)
    (hkids : linked → kids n t j = ∅) : put linked fuel t i j = t j := by
  induction fuel generalizing t i with
  | zero => rfl
  | succ fuel ih =>
    unfold Refs.put
    split
    · rfl
    next h0 =>
    have hi := hc.lt
    have hrefs := hc.refs i hi.1 h0 hi.2
    rw [add_self] at hrefs
    rw [unref_self]
    have hsame : Refs.free (Refs.unref t i) i j = t j := by
      unfold Refs.free Refs.unref
      simp [hji]
    split
    · simp [Refs.unref, hji]
    next hpos =>
    split
    swap
    · exact hsame
    next hl =>
    have hfree := hc.free h0 (by omega)
    rw [if_pos hl] at hfree
    have hparent : j ≠ (t i).parent := by
      intro heq
      have hmem : i ∈ kids n t j :=
        mem_filter.2 ⟨mem_range.2 hi.1, h0, hi.2, heq.symm⟩
      rw [hkids hl] at hmem
      exact absurd hmem (notMem_empty i)
    rw [ih hfree hparent, hsame]
    intro hl
    rw [kids_free, hkids hl, erase_empty]

theorem renew_counted {o p : Nat} {info : α} (hc : Counted linked n t (add h o))
    (hpos : Positive n t fun _ => False) (hf : firstFree n t = some i) (hp : p < n)
    (hpu : (t p).used) :
    Counted linked n (get (put linked n (make linked t i p info) o) i) (add h i) ∧
      Positive n (get (put linked n (make linked t i p info) o) i) fun _ => False := by
  obtain ⟨hi, h0, hu⟩ := firstFree_some hf
  have hpi : p ≠ i := by
    intro heq
    rw [heq, hu] at hpu
    cases hpu
  have hio : i ≠ o := by
    intro heq
    have := hc.lt.2
    rw [← heq, hu] at this
    cases this
  have hmade : Counted linked n (make linked t i p info) (add h o) := hc.make hi h0 hu hp hpu
  have hnokid : linked → kids n (make linked t i p info) i = ∅ := by
    intro hl
    rw [kids_make hpi hi h0 hu, if_neg hpi.symm]
    apply eq_empty_of_forall_notMem
    intro x hx
    obtain ⟨hx, hx0, hxu, hxp⟩ := mem_filter.1 hx
    have := (hc.parent hl x (mem_range.1 hx) hx0 hxu).2
    rw [hxp, hu] at this
    cases this
  have hused : (put linked n (make linked t i p info) o i).used := by
    rw [put_of_ne hmade hio hnokid, make_used hpi]
    simp
  have hnew := (hmade.put (live_card_le _)).get hi hused
  exact ⟨hnew, (((hpos.make hpi).put n o).get i).settle hnew⟩

end SamaraOS.Refs
