import Mathlib

/-!
# Spans of machine words

A `Span w` is a nonempty range of `w`-bit words given by its first and its last
word, so the whole space is a span too.  `before` and `after` are what a cut leaves
of a span on its two sides.
-/

namespace SamaraOS

structure Span (w : Nat) where
  s : BitVec w
  e : BitVec w
  le : s ≤ e
  deriving DecidableEq

namespace Span

variable {w : Nat} {r : Span w} {b : BitVec w}

def full : Span w := ⟨0, BitVec.allOnes w, by simp [BitVec.le_def]⟩

instance : Membership (BitVec w) (Span w) := ⟨fun r b => r.s ≤ b ∧ b ≤ r.e⟩

theorem mem_def : b ∈ r ↔ r.s ≤ b ∧ b ≤ r.e := Iff.rfl

instance (r : Span w) (b : BitVec w) : Decidable (b ∈ r) :=
  inferInstanceAs (Decidable (r.s ≤ b ∧ b ≤ r.e))

@[simp] theorem mem_full (b : BitVec w) : b ∈ (full : Span w) := by
  constructor
  · simp [full, BitVec.le_def]
  simp only [full, BitVec.le_def, BitVec.toNat_allOnes]
  omega

def Meets (a b : Span w) : Prop := a.s ≤ b.e ∧ b.s ≤ a.e

instance (a b : Span w) : Decidable (Meets a b) :=
  inferInstanceAs (Decidable (a.s ≤ b.e ∧ b.s ≤ a.e))

theorem meets_iff {a b : Span w} : Meets a b ↔ ∃ x, x ∈ a ∧ x ∈ b := by
  simp only [Meets, mem_def]
  have ha := a.le
  have hb := b.le
  constructor
  · rintro ⟨h, h'⟩
    by_cases hle : a.s ≤ b.s
    · exact ⟨b.s, ⟨hle, h'⟩, BitVec.le_refl _, hb⟩
    refine ⟨a.s, ⟨BitVec.le_refl _, ha⟩, ?_, h⟩
    simp only [BitVec.le_def] at hle ⊢
    omega
  rintro ⟨x, ⟨h1, h2⟩, h3, h4⟩
  simp only [BitVec.le_def] at *
  omega

theorem Meets.symm {a b : Span w} (h : Meets a b) : Meets b a := ⟨h.2, h.1⟩

def Within (a b : Span w) : Prop := ∀ x, x ∈ a → x ∈ b

theorem Within.meets {a a' b b' : Span w} (ha : Within a a') (hb : Within b b')
    (h : Meets a b) : Meets a' b' := by
  obtain ⟨x, hx, hx'⟩ := meets_iff.1 h
  exact meets_iff.2 ⟨x, ha x hx, hb x hx'⟩

private theorem toNat_one (h : 1 < 2 ^ w) : (1 : BitVec w).toNat = 1 := by
  rw [BitVec.ofNat_eq_ofNat, BitVec.toNat_ofNat, Nat.mod_eq_of_lt h]

private theorem toNat_pred {a s : BitVec w} (h : a < s) : (s - 1).toNat = s.toNat - 1 := by
  rw [BitVec.lt_def] at h
  have hone : (1 : BitVec w).toNat = 1 := toNat_one (by omega)
  rw [BitVec.toNat_sub_of_le (by rw [BitVec.le_def, hone]; omega), hone]

private theorem toNat_succ {e : BitVec w} (h : e < b) : (e + 1).toNat = e.toNat + 1 := by
  rw [BitVec.lt_def] at h
  have hone : (1 : BitVec w).toNat = 1 := toNat_one (by omega)
  rw [BitVec.toNat_add_of_lt (by rw [hone]; omega), hone]

def before (r : Span w) (s : BitVec w) (h : r.s < s) : Span w :=
  ⟨r.s, s - 1, by rw [BitVec.le_def, toNat_pred h]; rw [BitVec.lt_def] at h; omega⟩

def after (r : Span w) (e : BitVec w) (h : e < r.e) : Span w :=
  ⟨e + 1, r.e, by rw [BitVec.le_def, toNat_succ h]; rw [BitVec.lt_def] at h; omega⟩

theorem mem_before {s : BitVec w} (h : r.s < s) (hs : s ≤ r.e) :
    b ∈ r.before s h ↔ b ∈ r ∧ b < s := by
  have hlt := BitVec.lt_def.1 h
  simp only [mem_def, before, BitVec.le_def, BitVec.lt_def, toNat_pred h] at hs ⊢
  omega

theorem mem_after {e : BitVec w} (h : e < r.e) (he : r.s ≤ e) :
    b ∈ r.after e h ↔ b ∈ r ∧ e < b := by
  simp only [mem_def, after, BitVec.le_def, BitVec.lt_def, toNat_succ h] at he ⊢
  omega

end Span

end SamaraOS
