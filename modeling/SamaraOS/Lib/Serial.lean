import Mathlib

/-!
# Serial numbers modulo `2 ^ 32`

Sequence numbers wrap, so they carry no global order.  `diff` is the signed
distance protocols compare with; `off base a` is the number of steps from
`base` up to `a`.  As long as two numbers are less than half the space above a
common base, the signed distance is the difference of their offsets and the
comparisons turn into ordinary ones.
-/

namespace SamaraOS.Serial

abbrev Num := BitVec 32

def diff (a b : Num) : Int := (a - b).toInt

def off (base a : Num) : Nat := (a - base).toNat

@[simp] theorem diff_self (a : Num) : diff a a = 0 := by simp [diff]

variable {a b base : Num} {i j : Nat}

theorem diff_neg_of_pos (h : 0 < diff a b) : diff b a < 0 := by
  unfold diff at h ⊢
  rw [BitVec.toInt_eq_toNat_cond] at h ⊢
  simp [BitVec.toNat_sub] at h ⊢
  omega

theorem diff_eq_zero : diff a b = 0 ↔ a = b := by
  constructor
  · intro h
    unfold diff at h
    rw [BitVec.toInt_eq_toNat_cond] at h
    apply BitVec.eq_of_toNat_eq
    simp [BitVec.toNat_sub] at h
    omega
  rintro rfl
  exact diff_self a

@[simp] theorem off_self (a : Num) : off a a = 0 := by simp [off]

theorem eq_add_off (base a : Num) : a = base + BitVec.ofNat 32 (off base a) := by
  apply BitVec.eq_of_toNat_eq
  simp [off, BitVec.toNat_sub]
  omega

theorem off_inj (h : off base a = off base b) : a = b := by
  rw [eq_add_off base a, eq_add_off base b, h]

theorem off_add {n : Nat} (h : off base a + n < 2 ^ 32) :
    off base (a + BitVec.ofNat 32 n) = off base a + n := by
  simp [off, BitVec.toNat_sub] at h ⊢
  omega

theorem off_base_add {d : Nat} (h : d ≤ off base a) :
    off (base + BitVec.ofNat 32 d) a = off base a - d := by
  simp [off, BitVec.toNat_sub] at h ⊢
  omega

theorem off_base_sub {d : Nat} (h : off base a + d < 2 ^ 32) :
    off (base - BitVec.ofNat 32 d) a = off base a + d := by
  simp [off, BitVec.toNat_sub] at h ⊢
  omega

theorem diff_eq (ha : off base a < 2 ^ 31) (hb : off base b < 2 ^ 31) :
    diff a b = (off base a : Int) - off base b := by
  unfold diff
  rw [BitVec.toInt_eq_toNat_cond]
  simp [off, BitVec.toNat_sub] at ha hb ⊢
  omega

theorem diff_add_ofNat (hlo : -2 ^ 31 ≤ (i : Int) - j) (hhi : (i : Int) - j < 2 ^ 31) :
    diff (base + BitVec.ofNat 32 i) (base + BitVec.ofNat 32 j) = (i : Int) - j := by
  unfold diff
  rw [BitVec.toInt_eq_toNat_cond]
  simp [BitVec.toNat_sub]
  omega

theorem add_ofNat_sub_toNat (hle : j ≤ i) (hlt : i < j + 2 ^ 32) :
    (base + BitVec.ofNat 32 i - (base + BitVec.ofNat 32 j)).toNat = i - j := by
  simp [BitVec.toNat_sub]
  omega

theorem add_ofNat_add (base : Num) (i n : Nat) :
    base + BitVec.ofNat 32 i + BitVec.ofNat 32 n = base + BitVec.ofNat 32 (i + n) := by
  rw [BitVec.add_assoc, BitVec.ofNat_add]

theorem add_ofNat_inj (hi : i < j + 2 ^ 32) (hj : j < i + 2 ^ 32)
    (h : base + BitVec.ofNat 32 i = base + BitVec.ofNat 32 j) : i = j := by
  have hnat := congrArg BitVec.toNat h
  simp at hnat
  omega

theorem sub_toNat (h : off base b ≤ off base a) : (a - b).toNat = off base a - off base b := by
  simp [off, BitVec.toNat_sub] at h ⊢
  omega

theorem off_lt_of_diff_nonneg (h : 0 ≤ diff a b) : off b a < 2 ^ 31 ∧ diff a b = off b a := by
  unfold diff at h ⊢
  rw [BitVec.toInt_eq_toNat_cond] at h ⊢
  simp [off] at h ⊢
  omega

theorem off_trans (h : off base b + off b a < 2 ^ 32) : off base a = off base b + off b a := by
  simp [off, BitVec.toNat_sub] at h ⊢
  omega

theorem between_of_diff {u m : Num} (hu : off base u ≤ off base m)
    (hm : off base m < 2 ^ 31) (hlo : 0 ≤ diff a u) (hhi : diff a m ≤ 0) :
    off base u ≤ off base a ∧ off base a ≤ off base m := by
  obtain ⟨hau, hd⟩ := off_lt_of_diff_nonneg hlo
  have hbase : off base a = off base u + off u a := off_trans (by omega)
  unfold diff at hhi
  rw [BitVec.toInt_eq_toNat_cond] at hhi
  simp [off, BitVec.toNat_sub] at hu hm hau hbase hhi ⊢
  omega

end SamaraOS.Serial
