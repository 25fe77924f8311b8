import Mathlib

/-!
# Forests of parent pointers and child lists

Each node names its parent and lists its children.  `Linked` says that the two
agree; `Under r` is the part of the forest that hangs from `r`.  The edits are
`cut`, which takes a node off its parent's list, and `hang`, which puts a loose
node at the head of a list.
-/

namespace SamaraOS

open Function Option List

structure Forest (ι : Type*) where
  parent : ι → Option ι
  kids : ι → List ι

namespace Forest

variable {ι : Type*}

@[ext] theorem ext' {F G : Forest ι} (hp : ∀ n, F.parent n = G.parent n)
    (hk : ∀ n, F.kids n = G.kids n) : F = G := by
  cases F
  cases G
  simp only [mk.injEq]
  exact ⟨funext hp, funext hk⟩

/-- Every node is on the list of its parent, once, and on no other list. -/
structure Linked (F : Forest ι) : Prop where
  mem_iff : ∀ c p, c ∈ F.kids p ↔ F.parent c = some p
  nodup : ∀ p, (F.kids p).Nodup

inductive Under (F : Forest ι) (r : ι) : ι → Prop where
  | root : Under F r r
  | child {c p : ι} (hp : F.parent c = some p) (h : Under F r p) : Under F r c

theorem Under.eq_of_loose {F : Forest ι} {r n : ι} (h : F.Under r n) (hn : F.parent n = none) :
    n = r := by
  cases h with
  | root => rfl
  | child hp _ => rw [hn] at hp; cases hp

theorem Under.eq_of_leaf {F : Forest ι} (hF : F.Linked) {n d : ι} (hleaf : F.kids n = [])
    (h : F.Under n d) : d = n := by
  induction h with
  | root => rfl
  | @child c p hp _ ih =>
    subst ih
    have hc := (hF.mem_iff c p).2 hp
    rw [hleaf] at hc
    cases hc

/-! ## Rooted forests

All nodes with a parent hang from one root, and the nodes with children are of a kind `D`. -/

structure Rooted (F : Forest ι) (r : ι) (D : ι → Prop) : Prop where
  linked : F.Linked
  loose : F.parent r = none
  inner : ∀ c p, F.parent c = some p → D p
  under : ∀ c, F.parent c ≠ none → F.Under r c

section

variable {F : Forest ι} {r n : ι} {D : ι → Prop}

theorem Rooted.kids_inner (h : F.Rooted r D) {c p : ι} (hc : c ∈ F.kids p) : D p :=
  h.inner c p ((h.linked.mem_iff c p).1 hc)

theorem Rooted.mono {D' : ι → Prop} (h : F.Rooted r D)
    (hD : ∀ p, F.kids p ≠ [] → D p → D' p) : F.Rooted r D' where
  linked := h.linked
  loose := h.loose
  under := h.under
  inner c p hp := by
    refine hD p ?_ (h.inner c p hp)
    exact ne_nil_of_mem ((h.linked.mem_iff c p).2 hp)

theorem Rooted.kids_of_loose (h : F.Rooted r D) (hn : F.parent n = none) (hr : n ≠ r) :
    F.kids n = [] := by
  rw [eq_nil_iff_forall_not_mem]
  intro c hc
  have hp := (h.linked.mem_iff c n).1 hc
  cases h.under c (by simp [hp]) with
  | root => rw [h.loose] at hp; cases hp
  | child hq hu =>
    rw [hp, some.injEq] at hq
    subst hq
    exact hr (hu.eq_of_loose hn)

end

def bare (ι : Type*) : Forest ι :=
  ⟨fun _ => none, fun _ => []⟩

theorem bare_linked : (bare ι).Linked :=
  ⟨fun _ _ => by simp [bare], fun _ => nodup_nil⟩

theorem bare_rooted (r : ι) (D : ι → Prop) : (bare ι).Rooted r D :=
  ⟨bare_linked, rfl, nofun, fun _ h => absurd rfl h⟩

section Edits

variable [DecidableEq ι]

def cut (F : Forest ι) (n : ι) : Forest ι :=
  match F.parent n with
  | none => F
  | some p =>
    { parent := update F.parent n none
      kids := update F.kids p ((F.kids p).erase n) }

def hang (F : Forest ι) (d n : ι) : Forest ι where
  parent := update F.parent n (some d)
  kids := update F.kids d (n :: F.kids d)

theorem cut_parent (F : Forest ι) (n : ι) : (F.cut n).parent = update F.parent n none := by
  unfold cut
  split
  next h => rw [← h, update_eq_self]
  · rfl

@[simp] theorem cut_parent_self (F : Forest ι) (n : ι) : (F.cut n).parent n = none := by
  rw [cut_parent, update_self]

variable {d m n r : ι} {F : Forest ι}

section

variable (F : Forest ι)

theorem cut_parent_of_ne (h : m ≠ n) : (F.cut n).parent m = F.parent m := by
  rw [cut_parent, update_of_ne h]

@[simp] theorem hang_parent_self (d n : ι) : (F.hang d n).parent n = some d := by
  simp [hang]

theorem hang_parent_of_ne (d : ι) (h : m ≠ n) : (F.hang d n).parent m = F.parent m := by
  simp [hang, h]

@[simp] theorem hang_kids_self (d n : ι) : (F.hang d n).kids d = n :: F.kids d := by
  simp [hang]

theorem hang_kids_of_ne (n : ι) (h : m ≠ d) : (F.hang d n).kids m = F.kids m := by
  simp [hang, h]

end

theorem cut_kids {p : ι} (h : F.parent n = some p) :
    (F.cut n).kids = update F.kids p ((F.kids p).erase n) := by
  simp [cut, h]

theorem cut_kids_nil (h : F.kids m = []) (n : ι) : (F.cut n).kids m = [] := by
  cases hp : F.parent n with
  | none => simpa [cut, hp] using h
  | some p =>
    rw [cut_kids hp, update_apply]
    split
    next hm => simp [← hm, h]
    · exact h

theorem Linked.cut (h : F.Linked) (n : ι) : (F.cut n).Linked := by
  cases hp : F.parent n with
  | none =>
    have : F.cut n = F := by simp [Forest.cut, hp]
    rwa [this]
  | some p =>
    constructor
    · intro c q
      rw [cut_kids hp, cut_parent]
      by_cases hq : q = p
      · subst hq
        rw [update_self, (h.nodup q).mem_erase_iff, h.mem_iff]
        by_cases hc : c = n
        · simp [hc]
        · simp [hc]
      rw [update_of_ne hq, h.mem_iff]
      by_cases hc : c = n
      · subst hc
        simp [hp, Ne.symm hq]
      · simp [hc]
    intro q
    rw [cut_kids hp]
    by_cases hq : q = p
    · subst hq
      rw [update_self]
      exact (h.nodup q).erase n
    rw [update_of_ne hq]
    exact h.nodup q

theorem Linked.hang (h : F.Linked) (hn : F.parent n = none) : (F.hang d n).Linked := by
  have hoff : ∀ p, n ∉ F.kids p := by
    intro p hm
    rw [h.mem_iff, hn] at hm
    cases hm
  constructor
  · intro c q
    by_cases hq : q = d
    · subst hq
      by_cases hc : c = n
      · simp [hc]
      rw [hang_kids_self, hang_parent_of_ne F q hc, mem_cons, h.mem_iff]
      simp [hc]
    rw [hang_kids_of_ne F n hq, h.mem_iff]
    by_cases hc : c = n
    · subst hc
      simp [hn, Ne.symm hq]
    · rw [hang_parent_of_ne F d hc]
  intro q
  by_cases hq : q = d
  · subst hq
    rw [hang_kids_self]
    exact nodup_cons.2 ⟨hoff q, h.nodup q⟩
  rw [hang_kids_of_ne F n hq]
  exact h.nodup q

/-! ## What stays under the root -/

theorem Under.cut_leaf (hF : F.Linked) (hleaf : F.kids n = [])
    (h : F.Under r m) (hm : m ≠ n) : (F.cut n).Under r m := by
  induction h with
  | root => exact .root
  | @child c p hp _ ih =>
    refine .child ?_ (ih ?_)
    · rw [cut_parent_of_ne F hm]
      exact hp
    rintro rfl
    have hc := (hF.mem_iff c p).2 hp
    rw [hleaf] at hc
    cases hc

theorem Under.of_cut (h : (F.cut n).Under r m) : F.Under r m := by
  induction h with
  | root => exact .root
  | @child c p hp _ ih =>
    refine .child ?_ ih
    rw [cut_parent, update_apply] at hp
    split at hp
    · cases hp
    · exact hp

theorem Under.hang (hn : F.parent n = none) (hr : n ≠ r)
    (h : F.Under r m) : (F.hang d n).Under r m := by
  induction h with
  | root => exact .root
  | @child c p hp _ ih =>
    refine .child ?_ ih
    have hc : c ≠ n := by
      rintro rfl
      rw [hn] at hp
      cases hp
    rw [hang_parent_of_ne F d hc]
    exact hp

theorem Under.move_away (h : F.Under r m) (hm : ¬F.Under n m) : ((F.cut n).hang d n).Under r m := by
  induction h with
  | root => exact .root
  | @child c p hp _ ih =>
    have hc : c ≠ n := by
      rintro rfl
      exact hm .root
    refine .child ?_ (ih fun hu => hm (.child hp hu))
    rw [hang_parent_of_ne _ d hc, cut_parent_of_ne F hc]
    exact hp

theorem Under.move (hd : F.Under r d) (hnd : ¬F.Under n d)
    (h : F.Under r m) : ((F.cut n).hang d n).Under r m := by
  have hn : ((F.cut n).hang d n).Under r n :=
    .child (hang_parent_self _ d n) (hd.move_away hnd)
  induction h with
  | root => exact .root
  | @child c p hp _ ih =>
    by_cases hc : c = n
    · subst hc
      exact hn
    refine .child ?_ ih
    rw [hang_parent_of_ne _ d hc, cut_parent_of_ne F hc]
    exact hp

variable {F : Forest ι} {r d n : ι} {D : ι → Prop}

theorem Rooted.hang (h : F.Rooted r D) (hn : F.parent n = none) (hr : n ≠ r)
    (hd : F.Under r d) (hD : D d) : (F.hang d n).Rooted r D where
  linked := h.linked.hang hn
  loose := by rw [hang_parent_of_ne F d (Ne.symm hr)]; exact h.loose
  inner c p hp := by
    by_cases hc : c = n
    · subst hc
      rw [hang_parent_self, some.injEq] at hp
      rwa [← hp]
    rw [hang_parent_of_ne F d hc] at hp
    exact h.inner c p hp
  under c hp := by
    by_cases hc : c = n
    · subst hc
      exact .child (hang_parent_self F d c) (hd.hang hn hr)
    rw [hang_parent_of_ne F d hc] at hp
    exact (h.under c hp).hang hn hr

theorem Rooted.cut (h : F.Rooted r D) (hleaf : F.kids n = []) : (F.cut n).Rooted r D where
  linked := h.linked.cut n
  loose := by
    rw [cut_parent, update_apply]
    split
    · rfl
    · exact h.loose
  inner c p hp := by
    rw [cut_parent, update_apply] at hp
    split at hp
    · cases hp
    · exact h.inner c p hp
  under c hp := by
    by_cases hc : c = n
    · simp [hc] at hp
    rw [cut_parent_of_ne F hc] at hp
    exact (h.under c hp).cut_leaf h.linked hleaf hc

theorem Rooted.move (h : F.Rooted r D) (hr : n ≠ r) (hd : F.Under r d) (hnd : ¬F.Under n d)
    (hD : D d) : ((F.cut n).hang d n).Rooted r D where
  linked := (h.linked.cut n).hang (cut_parent_self F n)
  loose := by
    rw [hang_parent_of_ne _ d (Ne.symm hr), cut_parent_of_ne F (Ne.symm hr)]
    exact h.loose
  inner c p hp := by
    by_cases hc : c = n
    · subst hc
      rw [hang_parent_self, some.injEq] at hp
      rwa [← hp]
    rw [hang_parent_of_ne _ d hc, cut_parent_of_ne F hc] at hp
    exact h.inner c p hp
  under c hp := by
    by_cases hc : c = n
    · subst hc
      exact .child (hang_parent_self _ d c) (hd.move_away hnd)
    rw [hang_parent_of_ne _ d hc, cut_parent_of_ne F hc] at hp
    exact hd.move hnd (h.under c hp)

end Edits

/-! ## Depth

Below a root without a parent each node has one depth, so a node cannot be below itself
and a climb visits distinct nodes. -/

inductive Depth (F : Forest ι) (r : ι) : Nat → ι → Prop where
  | root : Depth F r 0 r
  | child {k : Nat} {c p : ι} (hp : F.parent c = some p) (h : Depth F r k p) :
    Depth F r (k + 1) c

variable {F : Forest ι} {n r : ι} {k : Nat}

theorem Under.depth (h : F.Under r n) : ∃ k, F.Depth r k n := by
  induction h with
  | root => exact ⟨0, .root⟩
  | child hp _ ih =>
    obtain ⟨k, hk⟩ := ih
    exact ⟨k + 1, .child hp hk⟩

theorem Depth.unique (hr : F.parent r = none) {j : Nat}
    (hj : F.Depth r j n) (hk : F.Depth r k n) : j = k := by
  induction hj generalizing k with
  | root =>
    cases hk with
    | root => rfl
    | child hp _ => rw [hr] at hp; cases hp
  | child hp _ ih =>
    cases hk with
    | root => rw [hr] at hp; cases hp
    | child hq hk =>
      rw [hp, some.injEq] at hq
      subst hq
      rw [ih hk]

theorem Under.irrefl (hr : F.parent r = none) (h : F.Under r n) :
    ¬Relation.TransGen (fun c p => F.parent c = some p) n n := by
  obtain ⟨k, hk⟩ := h.depth
  intro hc
  have hlt : ∀ m, Relation.TransGen (fun c p => F.parent c = some p) n m →
      ∃ j, j < k ∧ F.Depth r j m := by
    have hup : ∀ {i c p}, F.Depth r i c → F.parent c = some p → ∃ j, j < i ∧ F.Depth r j p := by
      intro i c p hd hp
      cases hd with
      | root => rw [hr] at hp; cases hp
      | @child j _ _ hq h =>
        rw [hp, some.injEq] at hq
        subst hq
        exact ⟨j, Nat.lt_succ_self j, h⟩
    intro m hm
    induction hm with
    | single hp => exact hup hk hp
    | tail _ hp ih =>
      obtain ⟨j, hj, hd⟩ := ih
      obtain ⟨i, hi, hd'⟩ := hup hd hp
      exact ⟨i, hi.trans hj, hd'⟩
  obtain ⟨j, hj, hd⟩ := hlt n hc
  exact hj.ne (hd.unique hr hk)

theorem Depth.above (h : F.Depth r k n) :
    ∀ j ≤ k, ∃ m, F.Depth r j m ∧ (m = n ∨ ∃ c, F.parent c = some m) := by
  induction h with
  | root =>
    intro j hj
    obtain rfl : j = 0 := Nat.le_zero.1 hj
    exact ⟨r, .root, .inl rfl⟩
  | @child k c p hp h ih =>
    intro j hj
    rcases Nat.lt_or_ge k j with hlt | hle
    · obtain rfl : j = k + 1 := by omega
      exact ⟨c, .child hp h, .inl rfl⟩
    obtain ⟨m, hm, hmc⟩ := ih j hle
    refine ⟨m, hm, .inr ?_⟩
    rcases hmc with rfl | hmc
    · exact ⟨c, hp⟩
    · exact hmc

def climb (F : Forest ι) : Nat → ι → List ι
  | 0, _ => []
  | k + 1, n =>
    n :: match F.parent n with
      | none => []
      | some p => F.climb k p

theorem Under.of_mem_climb {a : ι} (h : a ∈ F.climb k n) : F.Under a n := by
  induction k generalizing n with
  | zero => cases h
  | succ k ih =>
    rw [climb, mem_cons] at h
    rcases h with rfl | h
    · exact .root
    split at h
    · cases h
    next p hp => exact .child hp (ih h)

theorem Depth.mem_climb {a : ι} {d : Nat} (hr : F.parent r = none)
    (hd : F.Depth r d n) (hk : d < k) (h : F.Under a n) : a ∈ F.climb k n := by
  induction h generalizing k d with
  | root =>
    obtain ⟨k, rfl⟩ : ∃ j, k = j + 1 := ⟨k - 1, by omega⟩
    simp [climb]
  | @child c p hp _ ih =>
    obtain ⟨k, rfl⟩ : ∃ j, k = j + 1 := ⟨k - 1, by omega⟩
    cases hd with
    | root => rw [hr] at hp; cases hp
    | child hq hd =>
      rw [hp, some.injEq] at hq
      subst hq
      rw [climb, hp]
      exact mem_cons_of_mem _ (ih hd (by omega))

theorem Depth.lt {F : Forest Nat} {r n b : Nat} (hr : F.parent r = none)
    (hb : ∀ c p, F.parent c = some p → p < b) (hn : n < b) (h : F.Depth r k n) : k < b := by
  choose! at' hat hloc using h.above
  have hlt : ∀ j ≤ k, at' j < b := by
    intro j hj
    rcases hloc j hj with he | ⟨c, hc⟩
    · rw [he]
      exact hn
    · exact hb c _ hc
  have hinj : Set.InjOn at' (Finset.range (k + 1)) := by
    intro i hi j hj hij
    simp only [Finset.coe_range, Set.mem_Iio] at hi hj
    have hdi := hat i (by omega)
    rw [hij] at hdi
    exact hdi.unique hr (hat j (by omega))
  have hcard := Finset.card_le_card_of_injOn (s := Finset.range (k + 1)) (t := Finset.range b)
    at' (by
      intro j hj
      simp only [Finset.coe_range, Set.mem_Iio] at hj ⊢
      exact hlt j (by omega)) hinj
  simpa using hcard

theorem mem_climb_iff {F : Forest Nat} {r n a b : Nat} (hr : F.parent r = none)
    (hb : ∀ c p, F.parent c = some p → p < b) (hn : n < b) (h : F.Under r n) :
    a ∈ F.climb b n ↔ F.Under a n := by
  obtain ⟨k, hk⟩ := h.depth
  exact ⟨Under.of_mem_climb, hk.mem_climb hr (hk.lt hr hb hn)⟩

end Forest

end SamaraOS
