import SamaraOS.Proc.Uring

/-!
# How requests hang on each other

A request is linked to the next of its chain, and to its linked timeout, which knows it as its
target.  `Graph` says how these pointers agree while calls have some of the requests; each theorem
of the section is one way in which a call changes them.
-/

namespace SamaraOS.Uring

def has (q x : Nat) : Nat := if x = q then 1 else 0

def Tied (reqs : Nat → Req) (q : Nat) : Prop :=
  ∀ t, (reqs q).target = some t → (reqs t).listed ∧ (reqs t).lt = some q

/-- The requests, with the number of calls that have each, and the linked timeouts that are about
to leave their targets. -/
structure Graph (r : Nat → Req) (W : Nat → Nat) (U : Nat → Nat → Prop) : Prop where
  one : ∀ x, W x ≤ 1
  owned : ∀ x, W x ≠ 0 → (r x).listed
  running : ∀ x, (r x).listed → (r x).st = .run → W x = 1
  link : ∀ p x, (r p).listed → (r p).link = some x →
    (r x).listed ∧ (r x).st = .held ∧ W x = 0 ∧ (r x).target = none
  pred : ∀ p p' x, (r p).listed → (r p').listed → (r p).link = some x → (r p').link = some x →
    p = p'
  lt : ∀ p l, (r p).listed → (r p).lt = some l →
    (r l).listed ∧ (W l = 0 ∨ (r l).st = .run) ∧ ((r l).target = some p ∨ U l p) ∧
    ((r p).st = .held → (r l).st = .held)
  guard : ∀ p p' l, (r p).listed → (r p').listed → (r p).lt = some l → (r p').lt = some l → p = p'
  tied : ∀ x, (r x).listed → W x = 0 → Tied r x
  unlinks : ∀ l p, U l p → (r l).listed ∧ (r l).st = .run ∧ (r l).target = none
  kept : ∀ x, (r x).listed → (r x).st = .held → W x = 1 ∨
    (∃ p, (r p).listed ∧ (r p).link = some x) ∨ ∃ p, (r p).listed ∧ (r p).lt = some x

section Moves

variable {r r' : Nat → Req} {W W' : Nat → Nat} {U U' : Nat → Nat → Prop} {q : Nat}

theorem elim_has_of_ne {o : Option Nat} {y : Nat} (h : o ≠ some y) :
    (o.elim 0 fun l => has l y) = 0 := by
  cases o with
  | none => rfl
  | some l =>
    have hl : y ≠ l := fun he => h (by rw [he])
    simp [has, hl]

section

variable (hg : Graph r W U)

include hg

theorem Graph.done (hq : W q = 1) (htied : Tied r q)
    (hrun : ∀ l, (r q).lt = some l → (r l).st ≠ .run) (hU : ∀ p, ¬ U q p)
    (hr : ∀ x, r' x = { r x with
      listed := (r x).listed && x ≠ q, lt := if (r q).target = some x then none else (r x).lt })
    (hW : ∀ x, W' x + has q x = ((r q).lt.elim 0 fun l => has l x) +
      ((r q).link.elim 0 fun l => has l x) + W x) : Graph r' W' U := by
  have hlisted := hg.owned q (by omega)
  have hlt : ∀ l, (r q).lt = some l → W l = 0 ∧ (r l).target = some q ∧ l ≠ q ∧ (r l).listed := by
    intro l hl
    have := hg.lt q l hlisted hl
    have := hg.unlinks l q
    have := hrun l hl
    grind
  have hlink : ∀ x, (r q).link = some x → W x = 0 ∧ x ≠ q ∧ (r q).lt ≠ some x ∧ (r x).listed := by
    intro x hx
    have := hg.link q x hlisted hx
    have := hlt x
    grind
  have hWq : W' q = 0 := by
    have := hW q
    cases hl : (r q).lt <;> cases hx : (r q).link <;> grind [has]
  have hWl : ∀ l, (r q).lt = some l → W' l = 1 := by
    intro l hl
    have := hW l
    cases hx : (r q).link <;> grind [has]
  have hWx : ∀ x, (r q).link = some x → W' x = 1 := by
    intro x hx
    have := hW x
    cases hl : (r q).lt <;> grind [has]
  have hcase : ∀ y, (y = q ∧ W' y = 0) ∨ ((r q).lt = some y ∧ W' y = 1) ∨
      ((r q).link = some y ∧ W' y = 1) ∨
      (y ≠ q ∧ (r q).lt ≠ some y ∧ (r q).link ≠ some y ∧ W' y = W y) := by
    intro y
    by_cases hy : y = q
    · exact .inl ⟨hy, hy ▸ hWq⟩
    by_cases hl : (r q).lt = some y
    · exact .inr (.inl ⟨hl, hWl y hl⟩)
    by_cases hx : (r q).link = some y
    · exact .inr (.inr (.inl ⟨hx, hWx y hx⟩))
    refine .inr (.inr (.inr ⟨hy, hl, hx, ?_⟩))
    have := hW y
    rw [elim_has_of_ne hl, elim_has_of_ne hx] at this
    simpa [has, hy] using this
  clear hW
  constructor
  · intro x
    have := hg.one x
    rcases hcase x with h | h | h | h <;> grind
  · intro x hx
    have := hg.owned x
    rcases hcase x with h | h | h | h <;> grind
  · intro x hx hst
    have := hg.running x
    rcases hcase x with h | h | h | h <;> grind
  · intro p x hp hx
    have := hg.link p x
    have := hg.pred p q x
    have := hlt x
    rcases hcase x with h | h | h | h <;> grind
  · intro p p' x hp hp' hx hx'
    have := hg.pred p p' x
    grind
  · intro p l hp hl
    have hp' : (r p).listed ∧ p ≠ q ∧ (r q).target ≠ some p ∧ (r p).lt = some l := by grind
    have := hg.lt p l hp'.1 hp'.2.2.2
    have := hg.guard p q l hp'.1 hlisted hp'.2.2.2
    have := hg.link q l hlisted
    have := hU p
    have := hg.unlinks l p
    rcases hcase l with h | h | h | h <;> grind
  · intro p p' l hp hp' hl hl'
    have := hg.guard p p' l
    grind
  · intro x hx h0 t ht
    have hx' : (r x).listed ∧ x ≠ q := by grind
    have hW0 : W x = 0 ∧ (r q).lt ≠ some x := by
      rcases hcase x with h | h | h | h <;> grind
    have := hg.tied x hx'.1 hW0.1 t
    have := htied t
    grind
  · intro l p hu
    have := hg.unlinks l p hu
    grind
  intro x hx hst
  have hx' : (r x).listed ∧ x ≠ q ∧ (r x).st = .held := by grind
  rcases hg.kept x hx'.1 hx'.2.2 with hw | ⟨p, hp, hpx⟩ | ⟨p, hp, hpx⟩
  · rcases hcase x with h | h | h | h <;> grind
  · by_cases hpq : p = q
    · grind
    · exact .inr (.inl ⟨p, by grind, by grind⟩)
  by_cases hpq : p = q
  · grind
  have := hg.lt p x hp hpx
  have := htied p
  exact .inr (.inr ⟨p, by grind, by grind⟩)

structure Remark (r r' : Nat → Req) (W W' : Nat → Nat) (U : Nat → Nat → Prop) (x : Nat) : Prop where
  listed : (r x).listed
  one : W' x ≤ 1
  running : (r' x).st = .run → W' x = 1
  started : (r' x).st ≠ .held
  head : ∀ p, (r p).listed → (r p).link ≠ some x
  guards : ∀ p, (r p).listed → (r p).lt = some x →
    (W' x = 0 ∨ (r' x).st = .run) ∧ (r' p).st ≠ .held
  tied : W' x = 0 → Tied r x
  unlinks : ∀ p, U x p → (r' x).st = .run

theorem Graph.remark (hr : ∀ x, (r' x).listed = (r x).listed ∧ (r' x).link = (r
    x).link ∧ (r' x).lt = (r x).lt ∧ (r' x).target = (r x).target)
    (hx : ∀ x, (r' x).st = (r x).st ∧ W' x = W x ∨ Remark r r' W W' U x) : Graph r' W' U := by
  constructor
  · intro x
    have := hg.one x
    rcases hx x with h | h
    · omega
    · exact h.one
  · intro x h0
    have := hg.owned x
    rcases hx x with h | h
    · grind
    · exact (hr x).1.trans h.listed
  · intro x hlisted hst
    have := hg.running x
    rcases hx x with h | h
    · grind
    · exact h.running hst
  · intro p x hp hpx
    have := hg.link p x
    rcases hx x with h | h
    · grind
    have := h.head p
    grind
  · intro p p' x hp hp' hpx hpx'
    have := hg.pred p p' x
    grind
  · intro p l hp hl
    have := hg.lt p l
    rcases hx l with h | h
    · rcases hx p with hp | hp
      · grind
      have := hp.started
      grind
    have := h.guards p
    grind
  · intro p p' l hp hp' hl hl'
    have := hg.guard p p' l
    grind
  · intro x hlisted h0 t ht
    have htied : Tied r x := by
      rcases hx x with h | h
      · exact hg.tied x (by grind) (by omega)
      · exact h.tied h0
    have := htied t
    grind
  · intro l p hu
    have := hg.unlinks l p hu
    rcases hx l with h | h
    · grind
    have := h.unlinks p hu
    grind
  intro x hlisted hst
  rcases hx x with h | h
  · rcases hg.kept x (by grind) (by grind) with hw | ⟨p, hp, hpx⟩ | ⟨p, hp, hpx⟩
    · exact .inl (by omega)
    · exact .inr (.inl ⟨p, by grind, by grind⟩)
    · exact .inr (.inr ⟨p, by grind, by grind⟩)
  · exact absurd hst h.started

theorem Graph.take (hq : W q = 0) (hlisted : (r q).listed) (hst : (r q).st = .wait)
    (hr : ∀ x, r' x = { r x with st := if x = q then .run else (r x).st })
    (hW : ∀ x, W' x = W x + has q x) : Graph r' W' U := by
  refine hg.remark (by grind) fun x => ?_
  have := hW x
  by_cases hx : x = q
  swap
  · exact .inl (by grind [has])
  subst hx
  have hW1 : W' x = 1 := by grind [has]
  have hrun : (r' x).st = .run := by grind
  refine .inr ⟨hlisted, by omega, fun _ => hW1, by grind, ?_, ?_, by grind, fun _ _ => hrun⟩
  · intro p hp hpx
    have := hg.link p x hp hpx
    grind
  intro p hp hpx
  have := hg.lt p x hp hpx
  exact ⟨.inr hrun, by grind⟩

theorem Graph.startRun (hq : W q = 1)
    (hr : ∀ x, r' x = { r x with st := if x = q then .run else (r x).st }) : Graph r' W U := by
  refine hg.remark (by grind) fun x => ?_
  by_cases hx : x = q
  swap
  · exact .inl (by grind)
  subst hx
  have hrun : (r' x).st = .run := by grind
  refine .inr ⟨hg.owned x (by omega), by omega, fun _ => hq, by grind, ?_, ?_, by grind,
    fun _ _ => hrun⟩
  · intro p hp hpx
    have := hg.link p x hp hpx
    omega
  intro p hp hpx
  have := hg.lt p x hp hpx
  exact ⟨.inr hrun, by grind⟩

theorem Graph.startWait (hq : W q = 1) (hst : (r q).st = .held) (htarget : (r q).target = none)
    (hr : ∀ x, r' x = { r x with
      st := if x = q ∨ (r q).lt = some x then .wait else (r x).st })
    (hW : ∀ x, W' x + has q x = W x) : Graph r' W' U := by
  have hlisted := hg.owned q (by omega)
  have hlq : ∀ l, (r q).lt = some l → (r l).listed ∧ (r l).st = .held ∧ W l = 0 ∧
      (r l).target = some q ∧ l ≠ q := by
    intro l hl
    have := hg.lt q l hlisted hl
    have := hg.unlinks l q
    grind
  refine hg.remark (by grind) fun x => ?_
  have hWx := hW x
  by_cases hx : x = q
  · subst hx
    have hW0 : W' x = 0 := by grind [has]
    have hwait : (r' x).st = .wait := by grind
    refine .inr ⟨hlisted, by omega, by grind, by grind, ?_, ?_, ?_, ?_⟩
    · intro p hp hpx
      have := hg.link p x hp hpx
      omega
    · intro p hp hpx
      have := hg.lt p x hp hpx
      grind
    · intro _ t ht
      rw [htarget] at ht
      cases ht
    intro p hu
    have := hg.unlinks x p hu
    grind
  by_cases hl : (r q).lt = some x
  swap
  · exact .inl (by grind [has])
  have hxl := hlq x hl
  have hW0 : W' x = 0 := by grind [has]
  have hwait : (r' x).st = .wait := by grind
  refine .inr ⟨hxl.1, by omega, by grind, by grind, ?_, ?_, ?_, ?_⟩
  · intro p hp hpx
    have := hg.link p x hp hpx
    grind
  · intro p hp hpx
    have := hg.guard p q x hp hlisted hpx hl
    grind
  · exact fun _ => hg.tied x hxl.1 hxl.2.2.1
  intro p hu
  have := hg.unlinks x p hu
  grind

theorem Graph.release (hq : W q = 1) (hst : (r q).st = .run) (htied : Tied r q) (hU : ∀ p, ¬ U q p)
    (hr : ∀ x, r' x = { r x with st := if x = q then .wait else (r x).st })
    (hW : ∀ x, W' x + has q x = W x) : Graph r' W' U := by
  refine hg.remark (by grind) fun x => ?_
  have := hW x
  by_cases hx : x = q
  swap
  · exact .inl (by grind [has])
  subst hx
  have hW0 : W' x = 0 := by grind [has]
  refine .inr ⟨hg.owned x (by omega), by omega, by grind, by grind, ?_, ?_, fun _ => htied, ?_⟩
  · intro p hp hpx
    have := hg.link p x hp hpx
    grind
  · intro p hp hpx
    have := hg.lt p x hp hpx
    exact ⟨.inl hW0, by grind⟩
  · exact fun p hu => absurd hu (hU p)

theorem Graph.untarget (hlt : ∀ p, (r p).listed → (r p).lt = some q → U' q p)
    (hr : ∀ x, r' x = { r x with target := if x = q then none else (r x).target })
    (hU : ∀ l p, U l p → U' l p)
    (hU' : ∀ l p, U' l p → U l p ∨ l = q ∧ (r q).listed ∧ (r q).st = .run) : Graph r' W U' := by
  refine ⟨hg.one, ?_, ?_, ?_, ?_, ?_, ?_, ?_, ?_, ?_⟩
  · intro x hx
    have := hg.owned x hx
    grind
  · intro x hx hst
    have := hg.running x
    grind
  · intro p x hp hx
    have := hg.link p x
    grind
  · intro p p' x hp hp' hx hx'
    have := hg.pred p p' x
    grind
  · intro p l hp hl
    have := hg.lt p l
    have := hU l p
    have := hlt p
    grind
  · intro p p' l hp hp' hl hl'
    have := hg.guard p p' l
    grind
  · intro x hx h0 t ht
    have := hg.tied x (by grind) h0 t (by grind)
    grind
  · intro l p hu
    have := hg.unlinks l p
    rcases hU' l p hu with h | h
    · grind
    · grind
  intro x hx hst
  rcases hg.kept x (by grind) (by grind) with hw | ⟨p, hp, hpx⟩ | ⟨p, hp, hpx⟩
  · exact .inl hw
  · exact .inr (.inl ⟨p, by grind, by grind⟩)
  · exact .inr (.inr ⟨p, by grind, by grind⟩)

theorem Graph.dropTarget (hgone : ∀ t, (r q).target = some t → (r t).listed = false)
    (hr : ∀ x, r' x = { r x with target := if x = q then none else (r x).target }) :
    Graph r' W U := by
  refine hg.untarget ?_ hr (fun _ _ h => h) (fun _ _ h => .inl h)
  intro p hp hl
  have := hg.lt p q hp hl
  have := hgone p
  grind

theorem Graph.leave {t : Nat} (hq : W q = 1) (hst : (r q).st = .run) (ht : (r q).target = some t)
    (hr : ∀ x, r' x = { r x with target := if x = q then none else (r x).target })
    (hU : ∀ l p, U' l p ↔ U l p ∨ (l = q ∧ p = t)) : Graph r' W U' := by
  have hlisted := hg.owned q (by omega)
  refine hg.untarget ?_ hr (fun l p h => (hU l p).2 (.inl h)) ?_
  · intro p hp hl
    have := hg.lt p q hp hl
    have := hU q p
    grind
  intro l p hu
  have := hU l p
  grind

theorem Graph.forget {t : Nat} (hst : (r q).st = .run) (ht : (r t).listed) (hlt : (r t).lt = some q)
    (hr : ∀ x, r' x = { r x with lt := if x = t then none else (r x).lt })
    (hU : ∀ l p, U' l p → U l p) (hU' : ∀ l p, U l p → l ≠ q → U' l p) : Graph r' W U' := by
  have hW1 : W q = 1 := hg.running q (hg.lt t q ht hlt).1 hst
  constructor
  · intro x
    have := hg.one x
    grind
  · intro x hx
    have := hg.owned x
    grind
  · intro x hx hst
    have := hg.running x
    grind
  · intro p x hp hx
    have := hg.link p x
    grind
  · intro p p' x hp hp' hx hx'
    have := hg.pred p p' x
    grind
  · intro p l hp hl
    have := hg.lt p l
    have := hg.guard p t l
    have := hU' l p
    grind
  · intro p p' l hp hp' hl hl'
    have := hg.guard p p' l
    grind
  · intro x hx h0 t' ht'
    have := hg.tied x (by grind) h0 t' (by grind)
    grind
  · intro l p hu
    have := hg.unlinks l p
    grind
  intro x hx hst
  rcases hg.kept x (by grind) (by grind) with hw | ⟨p, hp, hpx⟩ | ⟨p, hp, hpx⟩
  · grind
  · exact .inr (.inl ⟨p, by grind, by grind⟩)
  · exact .inr (.inr ⟨p, by grind, by grind⟩)

end

theorem Graph.add (lk gd : Option Nat) (hg : Graph r W U) (hq : (r q).listed = false)
    (hlk : ∀ t, lk = some t → (r t).listed ∧ (r t).link = none ∧ gd = none)
    (hgd : ∀ t, gd = some t → (r t).listed ∧ (r t).lt = none) (hnew : (r' q).listed ∧ (r' q).st =
    .held ∧ (r' q).link = none ∧ (r' q).lt = none ∧ (r' q).target = gd) (hold : ∀ x, x ≠ q → (r'
    x).listed = (r x).listed ∧ (r' x).st = (r x).st ∧ (r' x).target = (r x).target ∧ (r' x).link =
    (if lk = some x then some q else (r x).link) ∧ (r' x).lt = if gd = some x then some q else (r
    x).lt) (hWq : W' q = if lk = none ∧ gd = none then 1 else 0) (hW : ∀ x, x ≠ q → W' x = W x) :
    Graph r' W' U := by
  have hW0 : W q = 0 := by
    have := hg.owned q
    grind
  constructor
  · intro x
    have := hg.one x
    by_cases hx : x = q <;> grind
  · intro x hx
    have := hg.owned x
    by_cases hxq : x = q <;> grind
  · intro x hx hst
    have := hg.running x
    by_cases hxq : x = q <;> grind
  · intro p x hp hx
    have := hg.link p x
    have := hlk p
    have := hW x
    by_cases hpq : p = q
    · grind
    have := hold p hpq
    by_cases hxq : x = q
    · grind
    have := hold x hxq
    grind
  · intro p p' x hp hp' hx hx'
    have := hg.pred p p' x
    have := hg.link p x
    have := hg.link p' x
    have := hold p
    have := hold p'
    grind
  · intro p l hp hl
    have := hg.lt p l
    have := hgd p
    have := hW l
    by_cases hpq : p = q
    · grind
    have := hold p hpq
    by_cases hlq : l = q
    · grind
    have := hold l hlq
    grind
  · intro p p' l hp hp' hl hl'
    have := hg.guard p p' l
    have := hg.lt p l
    have := hg.lt p' l
    have := hold p
    have := hold p'
    grind
  · intro x hx h0 t ht
    by_cases hxq : x = q
    · have := hgd t
      have := hold t
      grind
    have := hold x hxq
    have := hg.tied x (by grind) (by grind) t (by grind)
    have := hold t
    have := hgd t
    grind
  · intro l p hu
    have := hg.unlinks l p hu
    have := hold l
    grind
  intro x hx hst
  by_cases hxq : x = q
  · cases hl : lk with
    | some t =>
      have := hold t
      exact .inr (.inl ⟨t, by grind, by grind⟩)
    | none =>
      cases hg' : gd with
      | some t =>
        have := hold t
        exact .inr (.inr ⟨t, by grind, by grind⟩)
      | none => exact .inl (by grind)
  have := hold x hxq
  rcases hg.kept x (by grind) (by grind) with hw | ⟨p, hp, hpx⟩ | ⟨p, hp, hpx⟩
  · exact .inl (by grind)
  · have := hold p (by grind)
    have := hlk p
    exact .inr (.inl ⟨p, by grind, by grind⟩)
  have := hold p (by grind)
  have := hgd p
  exact .inr (.inr ⟨p, by grind, by grind⟩)

end Moves

end SamaraOS.Uring
