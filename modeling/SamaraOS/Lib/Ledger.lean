import Mathlib

/-!
# References in flight

A ledger numbers the references that are handed out, and keeps those that wait in a queue
and those that were released.  A reference may be lost, and it may be released twice; each
such slip is counted.  As long as there is none, every reference waits or was released, and
once.  A slip is never made good.
-/

namespace SamaraOS

open Multiset

structure Ledger where
  issued : Nat
  waiting : Multiset Nat
  released : Multiset Nat
  slips : Nat

namespace Ledger

inductive Step : Ledger → Ledger → Prop
  /-- A new reference is queued. -/
  | queue {l l' : Ledger} (hi : l'.issued = l.issued + 1) (hw : l'.waiting = l.waiting + {l.issued})
      (hr : l'.released = l.released) (hs : l'.slips = l.slips) : Step l l'
  /-- A new reference is released at once. -/
  | reject {l l' : Ledger} (hi : l'.issued = l.issued + 1) (hw : l'.waiting = l.waiting)
      (hr : l'.released = l.released + {l.issued}) (hs : l'.slips = l.slips) : Step l l'
  /-- A new reference is lost. -/
  | lose {l l' : Ledger} (hi : l'.issued = l.issued + 1) (hw : l'.waiting = l.waiting)
      (hr : l'.released = l.released) (hs : l'.slips = l.slips + 1) : Step l l'
  | settle {l l' : Ledger} (t : Nat) (hi : l'.issued = l.issued) (hw : l.waiting = l'.waiting + {t})
      (hr : l'.released = l.released + {t}) (hs : l'.slips = l.slips) : Step l l'
  /-- A reference that was released is released again. -/
  | again {l l' : Ledger} (t : Nat) (ht : t ∈ l.released) (hi : l'.issued = l.issued)
      (hw : l'.waiting = l.waiting) (hr : l'.released = l.released + {t})
      (hs : l'.slips = l.slips + 1) : Step l l'
  /-- A queue is given up. -/
  | drop {l l' : Ledger} (m : Multiset Nat) (hm : m ≠ 0) (hi : l'.issued = l.issued)
      (hw : l.waiting = l'.waiting + m) (hr : l'.released = l.released)
      (hs : l'.slips = l.slips + 1) : Step l l'

inductive Steps : Ledger → Ledger → Prop
  | refl (l : Ledger) : Steps l l
  | step {l l' l'' : Ledger} (h : Step l l') (hs : Steps l' l'') : Steps l l''

variable {l l' : Ledger}

theorem Step.steps (h : Step l l') : Steps l l' := .step h (.refl l')

theorem Steps.trans {l'' : Ledger} (h : Steps l l') (h' : Steps l' l'') : Steps l l'' := by
  induction h with
  | refl l => exact h'
  | step hstep hs ih => exact .step hstep (ih h')

def Once (l : Ledger) : Prop :=
  ∀ t, l.waiting.count t + l.released.count t = if t < l.issued then 1 else 0

def Broken (l : Ledger) : Prop :=
  ∃ t < l.issued, l.waiting.count t = 0 ∧ l.released.count t ≠ 1

theorem Broken.step (h : Broken l) (hs : Step l l') : Broken l' := by
  obtain ⟨t, ht, hw0, hr1⟩ := h
  refine ⟨t, ?_⟩
  cases hs with
  | queue hi hw hr =>
    rw [hi, hw, hr, count_add, count_singleton, if_neg (by omega)]
    exact ⟨by omega, by omega, hr1⟩
  | reject hi hw hr =>
    rw [hi, hw, hr, count_add, count_singleton, if_neg (by omega)]
    exact ⟨by omega, hw0, by omega⟩
  | lose hi hw hr =>
    rw [hi, hw, hr]
    exact ⟨by omega, hw0, hr1⟩
  | settle t' hi hw hr =>
    rw [hw, count_add, count_singleton] at hw0
    rw [hi, hr, count_add, count_singleton]
    split at hw0
    · omega
    next hne =>
    rw [if_neg hne]
    exact ⟨ht, by omega, by omega⟩
  | again t' ht' hi hw hr =>
    have hpos := count_pos.2 ht'
    rw [hi, hw, hr, count_add, count_singleton]
    refine ⟨ht, hw0, ?_⟩
    split
    next heq =>
      subst heq
      omega
    · exact hr1
  | drop m hm hi hw hr =>
    rw [hw, count_add] at hw0
    rw [hi, hr]
    exact ⟨ht, by omega, hr1⟩

theorem Once.step (h : Once l) (hs : Step l l') :
    (l'.slips = l.slips ∧ Once l') ∨ (l'.slips = l.slips + 1 ∧ Broken l') := by
  cases hs with
  | queue hi hw hr hs | reject hi hw hr hs =>
    refine .inl ⟨hs, fun t => ?_⟩
    have := h t
    rw [hi, hw, hr, count_add, count_singleton]
    split_ifs at this ⊢ <;> omega
  | lose hi hw hr hs =>
    have := h l.issued
    rw [if_neg (Nat.lt_irrefl _)] at this
    exact .inr ⟨hs, l.issued, by omega, by rw [hw]; omega, by rw [hr]; omega⟩
  | settle t' hi hw hr hs =>
    refine .inl ⟨hs, fun t => ?_⟩
    have := h t
    rw [hw, count_add] at this
    rw [hi, hr, count_add]
    omega
  | again t' ht' hi hw hr hs =>
    have hpos := count_pos.2 ht'
    have := h t'
    refine .inr ⟨hs, t', ?_, ?_, ?_⟩
    · rw [hi]
      split at this <;> omega
    · rw [hw]
      split at this <;> omega
    rw [hr, count_add, count_singleton_self]
    omega
  | drop m hm hi hw hr hs =>
    obtain ⟨t, ht⟩ := exists_mem_of_ne_zero hm
    have hpos := count_pos.2 ht
    have := h t
    rw [hw, count_add] at this
    refine .inr ⟨hs, t, ?_, ?_, ?_⟩
    · rw [hi]
      split at this <;> omega
    · split at this <;> omega
    rw [hr]
    split at this <;> omega

theorem Step.slips_le (h : Step l l') : l.slips ≤ l'.slips := by
  cases h <;> omega

theorem Steps.slips_le (h : Steps l l') : l.slips ≤ l'.slips := by
  induction h with
  | refl => exact Nat.le_refl _
  | step h _ ih => exact h.slips_le.trans ih

theorem Steps.mem_released {t : Nat} (h : Steps l l') (ht : t ∈ l.released) : t ∈ l'.released := by
  induction h with
  | refl => exact ht
  | step h _ ih =>
    apply ih
    cases h <;> simp_all

theorem Broken.steps (h : Broken l) (hs : Steps l l') : Broken l' := by
  induction hs with
  | refl => exact h
  | step hstep _ ih => exact ih (h.step hstep)

theorem Once.steps (h : Once l) (hs : Steps l l') :
    (l'.slips = l.slips ∧ Once l') ∨ (l.slips < l'.slips ∧ Broken l') := by
  induction hs with
  | refl l => exact .inl ⟨rfl, h⟩
  | step hstep hrest ih =>
    rcases h.step hstep with ⟨heq, ho⟩ | ⟨hslip, hb⟩
    · rw [← heq]
      exact ih ho
    have := hrest.slips_le
    exact .inr ⟨by omega, hb.steps hrest⟩

end Ledger

end SamaraOS
