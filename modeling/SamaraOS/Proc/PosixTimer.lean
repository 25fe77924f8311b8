import SamaraOS.Lib.Serial

/-!
# The first expiry of a POSIX timer

`timer_settime` of `proc/timer.c` turns the time asked for into a number of
milliseconds from now, and the tick compares 32-bit times by their signed
difference.
-/

namespace SamaraOS.PosixTimer

abbrev Word := BitVec 64

def tsMs (sec nsec : Word) : BitVec 32 :=
  let ms := sec * 1000 + (nsec + 999999).sdiv 1000000
  if sec = 0 ∧ nsec = 0 then 0
  else if ms = 0 then 1
  else if 0x7fffffff < ms then 0x7fffffff
  else ms.setWidth 32

/-- A call of `timer_settime`; `cur` is what the timer's clock shows, in milliseconds, made of
32-bit seconds.  `ts[1] + 999999` is a signed sum of 64 bits. -/
structure Call where
  abs : Bool
  cur : Nat
  sec : Word
  nsec : Word
  cur_lt : cur < 2 ^ 42
  nsec_lt : nsec.toInt + 999999 < 2 ^ 63

/-- The time from the call to the first expiry; zero disarms the timer. -/
def timerSettime (c : Call) : BitVec 32 :=
  let v := tsMs c.sec c.nsec
  if v ≠ 0 ∧ c.abs then
    let want := c.sec * 1000 + c.nsec.sdiv 1000000
    if BitVec.ofNat 64 c.cur < want then (want - BitVec.ofNat 64 c.cur).setWidth 32 else 1
  else v

/-- The tick `d` milliseconds after a call at `now` finds the timer due. -/
def Due (c : Call) (now : BitVec 32) (d : Nat) : Prop :=
  timerSettime c ≠ 0 ∧ 0 ≤ Serial.diff (now + BitVec.ofNat 32 d) (now + timerSettime c)

/-- What is asked for, in nanoseconds from the call. -/
def asked (c : Call) : Int :=
  c.sec.toInt * 10 ^ 9 + c.nsec.toInt - if c.abs then (c.cur * 10 ^ 6 : Int) else 0

def NotEarly (c : Call) : Prop :=
  ∀ now d, Due c now d → min (asked c) (0x7fffffff * 10 ^ 6) ≤ d * 10 ^ 6

/-- The time asked for in milliseconds, rounded up. -/
def wholeMs (c : Call) : Int := c.sec.toInt * 1000 + (c.nsec.toInt + 999999).tdiv 1000000

/-- The instant asked for in milliseconds, rounded towards zero. -/
def instant (c : Call) : Int := c.sec.toInt * 1000 + c.nsec.toInt.tdiv 1000000

/-- A time from now does not wrap to less than the largest delay.  An instant is over, or it is a
whole millisecond less than the largest delay ahead, or its distance leaves one of three remainders:
the timer is then not armed at all, or armed with at least the largest delay. -/
def Kept (c : Call) : Prop :=
  if c.abs then
    instant c ≤ c.cur ∨
    (instant c - c.cur < 0x7fffffff ∧ c.nsec.toInt.tmod 1000000 ≤ 0) ∨
    (c.cur < instant c % 2 ^ 64 ∧ ((instant c - c.cur) % 2 ^ 32 = 0 ∨
      (instant c - c.cur) % 2 ^ 32 = 0x7fffffff ∨ (instant c - c.cur) % 2 ^ 32 = 0x80000000))
  else wholeMs c ≤ 0x7fffffff ∨ 0x7fffffff ≤ wholeMs c % 2 ^ 64

/-- The first tick that finds an armed timer due. -/
def first (c : Call) : Nat :=
  if (timerSettime c).toNat ≤ 2 ^ 31 then (timerSettime c).toNat else 0

variable {c : Call} {now : BitVec 32} {d : Nat}

theorem due_iff :
    Due c now d ↔ timerSettime c ≠ 0 ∧ 0 ≤ (BitVec.ofNat 32 d - timerSettime c).toInt := by
  rw [Due, Serial.diff, add_sub_add_left_eq_sub]

theorem due_first (h : timerSettime c ≠ 0) : Due c now (first c) := by
  refine due_iff.2 ⟨h, ?_⟩
  unfold first
  rw [BitVec.toInt_eq_toNat_cond]
  split
  · simp
  simp
  omega

theorem Due.first_le (h : Due c now d) : first c ≤ d := by
  have := (due_iff.1 h).2
  unfold first
  split
  · by_contra hlt
    rw [BitVec.toInt_eq_toNat_cond] at *
    simp [BitVec.toNat_sub] at *
    omega
  · omega

theorem notEarly_iff_first : NotEarly c ↔
    (timerSettime c ≠ 0 → min (asked c) (0x7fffffff * 10 ^ 6) ≤ first c * 10 ^ 6) := by
  constructor
  · intro h harmed
    exact h 0 _ (due_first harmed)
  intro h now d hdue
  have := h hdue.1
  have := hdue.first_le
  omega

theorem toNat_of_toInt {w : Word} {z : Int} (h : w.toInt = z.bmod (2 ^ 64)) :
    (w.toNat : Int) = z % 2 ^ 64 := by
  have hlt := w.isLt
  rw [BitVec.toInt_eq_toNat_cond, Int.bmod] at h
  split at h <;> split at h <;> omega

/-- The milliseconds in 64 bits. -/
theorem toNat_ms (sec x : Word) : ((sec * 1000 + x.sdiv 1000000).toNat : Int) =
    (sec.toInt * 1000 + x.toInt.tdiv 1000000) % 2 ^ 64 := by
  apply toNat_of_toInt
  rw [BitVec.toInt_add, BitVec.toInt_mul, BitVec.toInt_sdiv]
  simp

theorem tdiv_bounds (x : Int) : x = x.tdiv 1000000 * 1000000 + x.tmod 1000000 ∧
    x.tmod 1000000 < 1000000 ∧ -1000000 < x.tmod 1000000 ∧ (0 ≤ x → 0 ≤ x.tmod 1000000) ∧
      (x ≤ 0 → x.tmod 1000000 ≤ 0) := by
  have := Int.mul_tdiv_add_tmod x 1000000
  have := Int.tmod_lt_of_pos x (b := 1000000) (by decide)
  have := Int.lt_tmod_of_pos x (b := 1000000) (by decide)
  refine ⟨by omega, by omega, by omega, fun h => Int.tmod_nonneg _ h, fun h => ?_⟩
  have := Int.tmod_nonneg (a := -x) 1000000 (by omega)
  rw [Int.neg_tmod] at this
  omega

theorem toInt_add_999999 (c : Call) : (c.nsec + 999999).toInt = c.nsec.toInt + 999999 := by
  have := c.nsec_lt
  have := c.nsec.le_toInt
  rw [BitVec.toInt_add_of_not_saddOverflow]
  · rfl
  simp [BitVec.saddOverflow]
  omega

theorem toInt_sec_nsec : (c.sec = 0 ∧ c.nsec = 0) ↔ c.sec.toInt = 0 ∧ c.nsec.toInt = 0 := by
  simp [← BitVec.toInt_inj]

theorem toNat_tsMs (c : Call) : ((tsMs c.sec c.nsec).toNat : Int) =
    if c.sec.toInt = 0 ∧ c.nsec.toInt = 0 then 0
    else max 1 (min 0x7fffffff (wholeMs c % 2 ^ 64)) := by
  have hms := toNat_ms c.sec (c.nsec + 999999)
  rw [toInt_add_999999] at hms
  change _ = wholeMs c % 2 ^ 64 at hms
  simp only [tsMs, toInt_sec_nsec, ← hms]
  generalize c.sec * 1000 + (c.nsec + 999999).sdiv 1000000 = w
  split
  · rfl
  split
  · next h => simp [h]
  next h0 =>
  have hpos : 0 < w.toNat := Nat.pos_of_ne_zero fun h => h0 (BitVec.eq_of_toNat_eq h)
  split
  · next hlt =>
    have : 0x7fffffff < w.toNat := hlt
    simp
    omega
  next hle =>
  have : w.toNat ≤ 0x7fffffff := Nat.le_of_not_lt hle
  rw [BitVec.toNat_setWidth]
  omega

theorem relative_iff (h : c.abs = false) : NotEarly c ↔ Kept c := by
  have hset : timerSettime c = tsMs c.sec c.nsec := by simp [timerSettime, h]
  have hms := toNat_tsMs c
  have hdiv := tdiv_bounds (c.nsec.toInt + 999999)
  have hne : timerSettime c ≠ 0 ↔ (tsMs c.sec c.nsec).toNat ≠ 0 := by
    rw [hset, ne_eq, ← BitVec.toNat_inj]
    rfl
  rw [notEarly_iff_first, hne, first, hset, asked, h, Kept, h]
  simp only [Bool.false_eq_true, if_false]
  unfold wholeMs at *
  split at hms
  · next h0 => simp only [h0.1, h0.2] at *; omega
  rw [if_pos (by omega)]
  omega

theorem toNat_absolute (h : c.abs = true) (h0 : ¬ (c.sec.toInt = 0 ∧ c.nsec.toInt = 0)) :
    ((timerSettime c).toNat : Int) =
      if c.cur < instant c % 2 ^ 64 then (instant c - c.cur) % 2 ^ 32 else 1 := by
  have hms := toNat_tsMs c
  have hwant := toNat_ms c.sec c.nsec
  change _ = instant c % 2 ^ 64 at hwant
  rw [if_neg h0] at hms
  have hv : tsMs c.sec c.nsec ≠ 0 := by
    intro hz
    rw [hz] at hms
    simp at hms
    omega
  simp only [timerSettime, hv, h, ne_eq, not_false_eq_true, true_and, if_true]
  generalize c.sec * 1000 + c.nsec.sdiv 1000000 = w at *
  have hcur : (BitVec.ofNat 64 c.cur).toNat = c.cur := by
    have := c.cur_lt
    rw [BitVec.toNat_ofNat]
    omega
  have hlt := w.isLt
  simp only [BitVec.lt_def, hcur]
  split
  · rw [if_pos (by omega), BitVec.toNat_setWidth, BitVec.toNat_sub, hcur]
    omega
  rw [if_neg (by omega)]
  rfl

theorem absolute_iff (h : c.abs = true) : NotEarly c ↔ Kept c := by
  have hdiv := tdiv_bounds c.nsec.toInt
  have hcur := c.cur_lt
  rw [notEarly_iff_first, asked, h, Kept, h]
  simp only [if_true]
  by_cases h0 : c.sec.toInt = 0 ∧ c.nsec.toInt = 0
  · have hset : timerSettime c = 0 := by
      have hms := toNat_tsMs c
      rw [if_pos h0] at hms
      have : tsMs c.sec c.nsec = 0 := BitVec.eq_of_toNat_eq (by simpa using hms)
      simp [timerSettime, this]
    simp [hset, instant, h0.1, h0.2]
  have hv := toNat_absolute h h0
  have hne : timerSettime c ≠ 0 ↔ (timerSettime c).toNat ≠ 0 := by
    rw [ne_eq, ← BitVec.toNat_inj]
    rfl
  rw [hne, first]
  unfold instant at *
  generalize c.nsec.toInt.tdiv 1000000 = q, c.nsec.toInt.tmod 1000000 = r at *
  split at hv
  · split <;> omega
  · rw [if_pos (by omega)]
    omega

theorem not_early_iff (c : Call) : NotEarly c ↔ Kept c := by
  cases h : c.abs with
  | false => exact relative_iff h
  | true => exact absolute_iff h

/-- More seconds than 64 bits have milliseconds, due after 384 ms. -/
theorem far_away_early :
    ¬NotEarly ⟨false, 0, 18446744073709552, 0, by decide, by decide⟩ := by
  intro h
  have := h 0 384 (due_iff.2 (by decide))
  revert this
  decide

end SamaraOS.PosixTimer
