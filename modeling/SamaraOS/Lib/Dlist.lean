import Mathlib

/-!
# Doubly linked lists in memory

A memory of nodes that carry a value and two links.  `Seg m p l q` says that the
nodes of `l` are linked in that order, with `p` before the first and `q` after the
last one.  Putting a node in and taking one out act on segments as on lists.
-/

namespace SamaraOS.Dlist

open List

variable {α : Type} {o : Option Nat} {fuel : Nat} {nx : Nat → Option Nat}

structure Node (α : Type) where
  val : α
  next : Option Nat
  prev : Option Nat

abbrev Mem (α : Type) := Nat → Node α

def Mem.set (m : Mem α) (x : Nat) (n : Node α) : Mem α := fun y => if y = x then n else m y

@[simp] theorem Mem.set_same (m : Mem α) (x : Nat) (n : Node α) : m.set x n x = n := by
  simp [Mem.set]

variable {m m' : Mem α} {y : Nat} {p q : Option Nat} {l : List (Nat × α)}

theorem Mem.set_other {x : Nat} {n : Node α} (h : y ≠ x) : m.set x n y = m y := by
  simp [Mem.set, h]

def first (l : List (Nat × α)) (q : Option Nat) : Option Nat :=
  match l with
  | [] => q
  | (x, _) :: _ => some x

@[simp] theorem first_nil (q : Option Nat) : first ([] : List (Nat × α)) q = q := rfl

@[simp] theorem first_cons (x : Nat) (v : α) (l : List (Nat × α)) (q : Option Nat) :
    first ((x, v) :: l) q = some x := rfl

def last (p : Option Nat) : List (Nat × α) → Option Nat
  | [] => p
  | (x, _) :: l => last (some x) l

def Seg (m : Mem α) : Option Nat → List (Nat × α) → Option Nat → Prop
  | _, [], _ => True
  | p, (x, v) :: l, q => m x = ⟨v, first l q, p⟩ ∧ Seg m (some x) l q

def keys (l : List (Nat × α)) : List Nat := l.map Prod.fst

@[simp] theorem keys_nil : keys ([] : List (Nat × α)) = [] := rfl

@[simp] theorem keys_cons (x : Nat) (v : α) (l : List (Nat × α)) :
    keys ((x, v) :: l) = x :: keys l := rfl

@[simp] theorem keys_append (l r : List (Nat × α)) : keys (l ++ r) = keys l ++ keys r := by
  simp [keys]

theorem first_append (l r : List (Nat × α)) (q : Option Nat) :
    first (l ++ r) q = first l (first r q) := by
  cases l <;> rfl

theorem seg_append {r : List (Nat × α)} :
    Seg m p (l ++ r) q ↔ Seg m p l (first r q) ∧ Seg m (last p l) r q := by
  induction l generalizing p with
  | nil => simp [Seg, last]
  | cons x l ih => simp [Seg, last, ih, first_append, and_assoc]

theorem Seg.congr (h : Seg m p l q) (hm : ∀ x ∈ keys l, m' x = m x) : Seg m' p l q := by
  induction l generalizing p with
  | nil => trivial
  | cons x l ih =>
    obtain ⟨hx, hl⟩ := h
    refine ⟨by rw [hm x.1 (by simp [keys]), hx], ih hl fun y hy => hm y ?_⟩
    exact mem_cons_of_mem _ hy

theorem Seg.node {pre post : List (Nat × α)} {x : Nat} {v : α}
    (h : Seg m p (pre ++ (x, v) :: post) q) : m x = ⟨v, first post q, last p pre⟩ :=
  (seg_append.1 h).2.1

def walk (m : Mem α) : Nat → Option Nat → List Nat
  | 0, _ => []
  | _ + 1, none => []
  | fuel + 1, some x => x :: walk m fuel (m x).next

theorem Seg.walk (h : Seg m p l none) (hfuel : l.length ≤ fuel) :
    walk m fuel (first l none) = keys l := by
  induction l generalizing p fuel with
  | nil => cases fuel <;> rfl
  | cons x l ih =>
    obtain ⟨fuel, rfl⟩ : ∃ f, fuel = f + 1 := ⟨fuel - 1, by simp at hfuel; omega⟩
    obtain ⟨hx, hl⟩ := h
    rw [first_cons, Dlist.walk, hx, ih hl (by simpa using hfuel), keys_cons]

/-! ## Changing a list -/

def setVal (m : Mem α) (x : Nat) (v : α) : Mem α := m.set x { m x with val := v }

def setPrev (m : Mem α) (o p : Option Nat) : Mem α :=
  match o with
  | none => m
  | some x => m.set x { m x with prev := p }

theorem setPrev_congr (h : m' y = m y) : setPrev m' o p y = setPrev m o p y := by
  cases o with
  | none => exact h
  | some x =>
    by_cases hy : y = x
    · subst hy
      simp [setPrev, h]
    · simp [setPrev, Mem.set_other hy, h]

theorem setPrev_other (h : o ≠ some y) : setPrev m o p y = m y := by
  cases o with
  | none => rfl
  | some x => exact Mem.set_other fun e => h (e ▸ rfl)

def insertAfter (m : Mem α) (b x : Nat) (v w : α) : Mem α :=
  let m := m.set x ⟨w, (m b).next, some b⟩
  let m := setPrev m (m x).next (some x)
  m.set b { m b with val := v, next := some x }

def dropNext (m : Mem α) (b : Nat) (v : α) : Mem α :=
  match (m b).next with
  | none => m
  | some nx =>
    let m := m.set b { m b with val := v, next := (m nx).next }
    setPrev m (m b).next (some b)

section

variable {m : Mem α} {p : Option Nat} {pre post : List (Nat × α)} {b x : Nat} {v v' w : α}

theorem Seg.setVal {q : Option Nat} (h : Seg m p (pre ++ (b, v) :: post) q)
    (hn : (keys (pre ++ (b, v) :: post)).Nodup) (v' : α) :
    Seg (setVal m b v') p (pre ++ (b, v') :: post) q := by
  simp only [keys_append, keys_cons, nodup_append, nodup_cons] at hn
  obtain ⟨hpre, hb, hpost⟩ := seg_append.1 h
  refine seg_append.2 ⟨?_, ?_, ?_⟩
  · exact hpre.congr fun y hy => Mem.set_other (hn.2.2 y hy b (by simp))
  · simp [Dlist.setVal, hb]
  · exact hpost.congr fun y hy => Mem.set_other fun e => hn.2.1.1 (e ▸ hy)

theorem Seg.setPrev (h : Seg m p post none) (hn : (keys post).Nodup) (p' : Option Nat) :
    Seg (setPrev m (first post none) p') p' post none := by
  cases post with
  | nil => trivial
  | cons x l =>
    obtain ⟨hx, hl⟩ := h
    refine ⟨by simp [Dlist.setPrev, first, hx], hl.congr fun y hy => ?_⟩
    exact Mem.set_other fun e => (nodup_cons.1 hn).1 (e ▸ hy)

theorem first_ne {l : List (Nat × α)} {y : Nat} (h : y ∉ keys l) : first l none ≠ some y := by
  cases l with
  | nil => simp [first]
  | cons x l =>
    obtain ⟨x, v⟩ := x
    rintro ⟨⟩
    simp at h

theorem Seg.insertAfter (h : Seg m p (pre ++ (b, v) :: post) none)
    (hn : (keys (pre ++ (b, v) :: post)).Nodup) (hx : x ∉ keys (pre ++ (b, v) :: post)) :
    Seg (insertAfter m b x v' w) p (pre ++ (b, v') :: (x, w) :: post) none := by
  simp only [keys_append, keys_cons, nodup_append, nodup_cons, mem_append,
    mem_cons, not_or] at hn hx
  obtain ⟨hpre, hb, hpost⟩ := seg_append.1 h
  obtain ⟨-, ⟨hbpost, hnpost⟩, hdisj⟩ := hn
  obtain ⟨hxpre, hxb, hxpost⟩ := hx
  have hnext : (m b).next = first post none := by rw [hb]
  have hfx := first_ne hxpost
  have hfb := first_ne hbpost
  simp only [Dlist.insertAfter, hnext, Mem.set_same]
  refine seg_append.2 ⟨hpre.congr fun y hy => ?_, ?_, ?_, ?_⟩
  · have hyb : y ≠ b := hdisj y hy b (by simp)
    have hyx : y ≠ x := fun e => hxpre (e ▸ hy)
    have hypost : y ∉ keys post := fun hmem => hdisj y hy y (by simp [hmem]) rfl
    have hfy := first_ne hypost
    rw [Mem.set_other hyb, setPrev_other hfy, Mem.set_other hyx]
  · rw [Mem.set_same, setPrev_other hfb, Mem.set_other (Ne.symm hxb), hb]
    rfl
  · rw [Mem.set_other hxb, setPrev_other hfx, Mem.set_same]
  refine (hpost.setPrev hnpost (some x)).congr fun y hy => ?_
  have hyb : y ≠ b := fun e => hbpost (e ▸ hy)
  have hyx : y ≠ x := fun e => hxpost (e ▸ hy)
  rw [Mem.set_other hyb, setPrev_congr (Mem.set_other hyx)]

theorem Seg.dropNext (h : Seg m p (pre ++ (b, v) :: (x, w) :: post) none)
    (hn : (keys (pre ++ (b, v) :: (x, w) :: post)).Nodup) :
    Seg (dropNext m b v') p (pre ++ (b, v') :: post) none := by
  simp only [keys_append, keys_cons, nodup_append, nodup_cons, mem_cons, not_or] at hn
  obtain ⟨hpre, hb, hx, hpost⟩ := seg_append.1 h
  obtain ⟨-, ⟨⟨hbx, hbpost⟩, hxpost, hnpost⟩, hdisj⟩ := hn
  have hnext : (m b).next = some x := by rw [hb, first_cons]
  have hnext' : (m x).next = first post none := by rw [hx]
  have hfb := first_ne hbpost
  simp only [Dlist.dropNext, hnext, hnext', Mem.set_same]
  refine seg_append.2 ⟨hpre.congr fun y hy => ?_, ?_, ?_⟩
  · have hyb : y ≠ b := hdisj y hy b (by simp)
    have hypost : y ∉ keys post := fun hmem => hdisj y hy y (by simp [hmem]) rfl
    have hfy := first_ne hypost
    rw [setPrev_other hfy, Mem.set_other hyb]
  · rw [setPrev_other hfb, Mem.set_same, hb]
  refine (hpost.setPrev hnpost (some b)).congr fun y hy => ?_
  exact setPrev_congr (Mem.set_other fun e => hbpost (e ▸ hy))

end

/-! ## Lists with a head

A list that somebody else has the first node of: nodes go in at the front, and any node can
leave on its own. -/

def setNext (m : Mem α) (o n : Option Nat) : Mem α :=
  match o with
  | none => m
  | some x => m.set x { m x with next := n }

def pushFront (m : Mem α) (head : Option Nat) (x : Nat) (v : α) : Mem α :=
  setPrev (m.set x ⟨v, head, none⟩) head (some x)

def unlink (m : Mem α) (x : Nat) : Mem α :=
  setPrev (setNext m (m x).prev (m x).next) (m x).next (m x).prev

section

variable {m : Mem α} {p q : Option Nat} {l pre post : List (Nat × α)} {x y : Nat} {v : α}

theorem setNext_other {n : Option Nat} (h : o ≠ some y) : setNext m o n y = m y := by
  cases o with
  | none => rfl
  | some x => exact Mem.set_other fun e => h (e ▸ rfl)

theorem last_cases (h : last p l = some y) : p = some y ∨ y ∈ keys l := by
  induction l generalizing p with
  | nil => exact .inl h
  | cons u l ih =>
    obtain ⟨u, v⟩ := u
    rcases ih h with hu | hu
    · cases hu
      exact .inr (by simp)
    · exact .inr (mem_cons_of_mem _ hu)

theorem last_ne (h : y ∉ keys l) : last none l ≠ some y := by
  intro hy
  rcases last_cases hy with hy | hy
  · cases hy
  · exact h hy

theorem last_eq_none : last none l = none ↔ l = [] := by
  have hsome : ∀ (l : List (Nat × α)) (x : Nat), last (some x) l ≠ none := by
    intro l
    induction l with
    | nil => simp [last]
    | cons u l ih => exact fun _ => ih u.1
  cases l with
  | nil => simp [last]
  | cons u l => simp [last, hsome l u.1]

theorem Seg.setNext (h : Seg m p l q) (hn : (keys l).Nodup) (hp : ∀ x, p = some x → x ∉ keys l)
    (q' : Option Nat) (hl : l ≠ []) : Seg (setNext m (last p l) q') p l q' := by
  induction l generalizing p with
  | nil => exact absurd rfl hl
  | cons u l ih =>
    obtain ⟨hu, htail⟩ := h
    rw [keys_cons, nodup_cons] at hn
    rw [last]
    cases l with
    | nil => exact ⟨by simp [last, Dlist.setNext, hu], trivial⟩
    | cons w l =>
      refine ⟨?_, ih htail hn.2 (fun x hx => by cases hx; exact hn.1) (by simp)⟩
      rw [setNext_other, hu]
      · rfl
      obtain ⟨w, v'⟩ := w
      intro hlast
      rw [last] at hlast
      rcases last_cases hlast with hw | hw
      · cases hw
        exact hn.1 (by simp)
      · exact hn.1 (mem_cons_of_mem _ hw)

theorem Seg.pushFront (h : Seg m none l none) (hn : (keys l).Nodup) (hx : x ∉ keys l) :
    Seg (pushFront m (first l none) x v) none ((x, v) :: l) none := by
  constructor
  · rw [Dlist.pushFront, setPrev_other (first_ne hx), Mem.set_same]
  refine (h.setPrev hn (some x)).congr fun y hy => ?_
  exact setPrev_congr (Mem.set_other fun e => hx (e ▸ hy))

theorem pushFront_other (hy : y ∉ keys l) (hne : y ≠ x) :
    pushFront m (first l none) x v y = m y := by
  rw [pushFront, setPrev_other (first_ne hy), Mem.set_other hne]

section

variable (h : Seg m none (pre ++ (x, v) :: post) none)

include h

theorem Seg.unlink (hn : (keys (pre ++ (x, v) :: post)).Nodup) :
    Seg (unlink m x) none (pre ++ post) none := by
  simp only [keys_append, keys_cons, nodup_append, nodup_cons] at hn
  obtain ⟨hpre, hx, hpost⟩ := seg_append.1 h
  obtain ⟨hnpre, ⟨-, hnpost⟩, hdisj⟩ := hn
  rw [Dlist.unlink, hx]
  refine seg_append.2 ⟨?_, ?_⟩
  · have hset : Seg (Dlist.setNext m (last none pre) (first post none)) none pre
        (first post none) := by
      cases pre with
      | nil => trivial
      | cons u pre => exact hpre.setNext hnpre (by simp) _ (by simp)
    refine hset.congr fun y hy => setPrev_other (first_ne fun hmem => ?_)
    exact hdisj y hy y (by simp [hmem]) rfl
  refine (hpost.setPrev hnpost (last none pre)).congr fun y hy => setPrev_congr ?_
  exact setNext_other (last_ne fun hmem => hdisj y hmem y (by simp [hy]) rfl)

theorem unlink_other (hpre : y ∉ keys pre) (hpost : y ∉ keys post) : unlink m x y = m y := by
  rw [unlink, h.node]
  exact (setPrev_other (first_ne hpost)).trans (setNext_other (last_ne hpre))

end

end

/-! ## Chains

A list that is linked one way, `nx` being the links. -/

def Linked (nx : Nat → Option Nat) : Option Nat → List Nat → Prop
  | o, [] => o = none
  | o, x :: l => o = some x ∧ Linked nx (nx x) l

theorem Linked.congr {nx' : Nat → Option Nat} {l : List Nat}
    (h : Linked nx o l) (heq : ∀ x ∈ l, nx' x = nx x) : Linked nx' o l := by
  induction l generalizing o with
  | nil => exact h
  | cons x l ih =>
    refine ⟨h.1, ?_⟩
    rw [heq x (by simp)]
    exact ih h.2 fun y hy => heq y (mem_cons_of_mem _ hy)

def follow (nx : Nat → Option Nat) : Nat → Option Nat → List Nat
  | 0, _ => []
  | _ + 1, none => []
  | fuel + 1, some x => x :: follow nx fuel (nx x)

theorem Linked.follow {l : List Nat}
    (h : Linked nx o l) (hfuel : l.length ≤ fuel) : follow nx fuel o = l := by
  induction l generalizing o fuel with
  | nil =>
    cases h
    cases fuel <;> rfl
  | cons x l ih =>
    obtain ⟨rfl, hl⟩ := h
    obtain ⟨fuel, rfl⟩ : ∃ f, fuel = f + 1 := ⟨fuel - 1, by simp at hfuel; omega⟩
    rw [Dlist.follow, ih hl (by simpa using hfuel)]

end SamaraOS.Dlist
