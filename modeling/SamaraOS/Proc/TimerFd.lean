import SamaraOS.Proc.PosixTimer

/-!
# Counting the expirations of a timerfd

`timerfd_settime` keeps the first expiry and the interval as milliseconds in 32
bits.  A read answers how many intervals have ended and moves the next expiry
on by as many.
-/

namespace SamaraOS.TimerFd

open BitVec PosixTimer

open BitVec (ofNat)

structure Fd where
  tNext : BitVec 32
  tInt : BitVec 32

def toMs (sec nsec : Word) : Word := sec * 1000 + nsec.sdiv 1000000

/-- `wall` is the wall clock in milliseconds, for an absolute time on it. -/
def doTimerfd (now : BitVec 32) (abs : Bool) (wall : Option Word) (is ins vs vns : Word) : Fd :=
  let vms := (toMs vs vns).setWidth 32
  let target := match wall with
    | some w => if w < toMs vs vns then now + (toMs vs vns - w).setWidth 32 else now
    | none => vms
  { tInt := (toMs is ins).setWidth 32
    tNext :=
      if vs = 0 ∧ vns = 0 then 0
      else if abs then if target = 0 then 1 else target
      else now + if vms = 0 then 1 else vms }

def read (f : Fd) (now : BitVec 32) : Nat × Fd :=
  if f.tNext ≠ 0 ∧ 0 ≤ Serial.diff now f.tNext then
    if f.tInt ≠ 0 then
      let v := 1 + (now - f.tNext) / f.tInt
      (v.toNat, { f with tNext := f.tNext + v * f.tInt })
    else (1, { f with tNext := 0 })
  else (0, f)

/-- An interval or a time, in nanoseconds. -/
def nanos (sec nsec : Word) : Int := sec.toInt * 10 ^ 9 + nsec.toInt

/-- The same in milliseconds, rounded towards zero. -/
def millis (sec nsec : Word) : Int := sec.toInt * 1000 + nsec.toInt.tdiv 1000000

/-- The first expiry that a call at the uptime `now` asks for, in nanoseconds of uptime. -/
def first (now : Nat) (abs : Bool) (wall : Option Word) (vs vns : Word) : Int :=
  if abs then
    match wall with
    | some w => nanos vs vns - w.toNat * 10 ^ 6 + now * 10 ^ 6
    | none => nanos vs vns
  else now * 10 ^ 6 + nanos vs vns

/-- The millisecond of uptime of the first expiry: never zero, and never the present one for a
time from now. -/
def start (now : Nat) (abs : Bool) (wall : Option Word) (vs vns : Word) : Nat :=
  let v := (millis vs vns).toNat
  if abs then
    match wall with
    | some w => now + (v - w.toNat)
    | none => max 1 v
  else now + max 1 v

/-- A time from now is not negative and less than `2 ^ 32` ms; an instant of uptime is not
negative, and one of the wall clock is not over. -/
def Ahead (abs : Bool) (wall : Option Word) (vs vns : Word) : Prop :=
  0 ≤ millis vs vns ∧
    if abs then ∀ w ∈ wall, w.toNat ≤ millis vs vns ∧ millis vs vns < 2 ^ 64
    else millis vs vns < 2 ^ 32

/-- The sum of what reads at these uptimes return. -/
def total (f : Fd) : List Nat → Nat
  | [] => 0
  | t :: ts => (read f (ofNat 32 t)).1 + total (read f (ofNat 32 t)).2 ts

/-- How many of `first + k * interval` have come at `t`. -/
def expired (first interval t : Int) : Int :=
  if first ≤ t then (t - first) / interval + 1 else 0

def count (i n t : Nat) : Nat := if n ≤ t then (t - n) / i + 1 else 0

/-- Reads in their order, each less than `2 ^ 31` ms from the expiry it finds, with no expiry at
zero: there the descriptor counts as disarmed. -/
def Timely (i : Nat) : Nat → List Nat → Prop
  | n, [] => n % 2 ^ 32 ≠ 0
  | n, t :: ts => n % 2 ^ 32 ≠ 0 ∧ n ≤ t + 2 ^ 31 ∧ t < n + 2 ^ 31 ∧
    (∀ u ∈ ts, t ≤ u) ∧ Timely i (n + count i n t * i) ts

variable {i n t : Nat}

section

variable (hi : 0 < i) (hi' : i < 2 ^ 32)

include hi

theorem count_moved {u : Nat} (hu : t ≤ u) :
    count i n u = count i n t + count i (n + count i n t * i) u := by
  unfold count
  by_cases h : n ≤ t
  swap
  · simp [h]
  have hle := Nat.div_le_div_right (c := i) (show t - n ≤ u - n by omega)
  rw [if_pos h, if_pos (h.trans hu)]
  split
  · next hmore =>
    rw [show u - n = u - (n + ((t - n) / i + 1) * i) + ((t - n) / i + 1) * i by omega,
      Nat.add_mul_div_right _ _ hi]
    omega
  have : (u - n) / i < (t - n) / i + 1 := by
    rw [Nat.div_lt_iff_lt_mul hi]
    omega
  omega

include hi'

theorem read_eq (h0 : n % 2 ^ 32 ≠ 0) (hlo : n ≤ t + 2 ^ 31) (hhi : t < n + 2 ^ 31) :
    read ⟨ofNat 32 n, ofNat 32 i⟩ (ofNat 32 t) =
      (count i n t, ⟨ofNat 32 (n + count i n t * i), ofNat 32 i⟩) := by
  have hnext : ofNat 32 n ≠ 0 := by simpa [← toNat_inj] using h0
  have hint : ofNat 32 i ≠ 0 := by
    simp [← toNat_inj]
    omega
  have hdiff : 0 ≤ Serial.diff (ofNat 32 t) (ofNat 32 n) ↔ n ≤ t := by
    rw [Serial.diff, toInt_eq_toNat_cond]
    simp [toNat_sub]
    omega
  simp only [read, hnext, hint, hdiff, count, ne_eq, not_false_eq_true, true_and, if_true]
  split
  · next hle =>
    have hsub : (ofNat 32 t - ofNat 32 n).toNat = t - n := by
      simp [toNat_sub]
      omega
    have hv : 1 + (ofNat 32 t - ofNat 32 n) / ofNat 32 i =
        ofNat 32 ((t - n) / i + 1) := by
      apply eq_of_toNat_eq
      simp [hsub, Nat.mod_eq_of_lt (show i < 4294967296 from hi'), add_comm]
    have hlt : (t - n) / i + 1 < 2 ^ 32 := by
      have := Nat.div_le_self (t - n) i
      omega
    rw [hv, toNat_ofNat, Nat.mod_eq_of_lt hlt, ofNat_add n, ofNat_mul]
  · simp

theorem total_eq (ts : List Nat) (h : Timely i n (ts ++ [t])) :
    total ⟨ofNat 32 n, ofNat 32 i⟩ (ts ++ [t]) = count i n t := by
  induction ts generalizing n with
  | nil =>
    obtain ⟨h0, hlo, hhi, -⟩ := h
    simp [total, read_eq hi hi' h0 hlo hhi]
  | cons a ts ih =>
    obtain ⟨h0, hlo, hhi, hle, hrest⟩ := h
    rw [List.cons_append, total, read_eq hi hi' h0 hlo hhi, ih hrest,
      ← count_moved hi (hle t (by simp))]

end

theorem toNat_toMs (sec nsec : Word) : ((toMs sec nsec).toNat : Int) = millis sec nsec % 2 ^ 64 :=
  toNat_ms sec nsec

section

variable {now : Nat} {abs : Bool} {wall : Option Word} {is ins vs vns : Word}

theorem millis_of_nanos (h : nanos is ins = i * 10 ^ 6) : millis is ins = i := by
  have := tdiv_bounds ins.toInt
  unfold nanos at h
  unfold millis
  omega

/-- What a call keeps of the expiry and the interval it asks for. -/
theorem doTimerfd_eq (harmed : ¬ (vs = 0 ∧ vns = 0)) (hint : nanos is ins = i * 10 ^ 6)
    (hahead : Ahead abs wall vs vns) (h0 : start now abs wall vs vns % 2 ^ 32 ≠ 0) :
    doTimerfd (ofNat 32 now) abs wall is ins vs vns =
      ⟨ofNat 32 (start now abs wall vs vns), ofNat 32 i⟩ := by
  have hi := toNat_toMs is ins
  have hv := toNat_toMs vs vns
  rw [millis_of_nanos hint] at hi
  obtain ⟨hpos, hbound⟩ := hahead
  have hInt : (toMs is ins).setWidth 32 = ofNat 32 i := by
    apply eq_of_toNat_eq
    rw [toNat_setWidth, toNat_ofNat]
    omega
  simp only [doTimerfd, if_neg harmed, hInt, Fd.mk.injEq, and_true]
  unfold start at *
  generalize toMs vs vns = w at *
  generalize millis vs vns = v at *
  have hw : (w.setWidth 32).toNat = v.toNat % 2 ^ 32 := by
    rw [toNat_setWidth]
    omega
  have hzero : w.setWidth 32 = 0 ↔ v.toNat % 2 ^ 32 = 0 := by
    rw [← toNat_inj, hw]
    rfl
  apply eq_of_toNat_eq
  cases abs with
  | false =>
    simp only [Bool.false_eq_true, if_false, hzero] at *
    split
    · simp
      omega
    · simp [hw]
      omega
  | true =>
    cases wall with
    | none =>
      simp only [if_true, hzero] at *
      split
      · simp
        omega
      · rw [hw, toNat_ofNat]
        omega
    | some u =>
      obtain ⟨hle, hlt⟩ := hbound u rfl
      have hu : (ofNat 32 now + (w - u).setWidth 32).toNat = (now + (v.toNat - u.toNat)) % 2 ^ 32 := by
        simp [toNat_sub]
        omega
      simp only [if_true] at *
      by_cases hmore : u < w
      · have hne : ofNat 32 now + (w - u).setWidth 32 ≠ 0 := by
          rw [ne_eq, ← toNat_inj, hu]
          exact h0
        rw [if_pos hmore, if_neg hne, hu, toNat_ofNat]
      have hge : w.toNat ≤ u.toNat := Nat.le_of_not_lt hmore
      have hsame : v.toNat - u.toNat = 0 := by omega
      rw [hsame] at h0
      have hne : ofNat 32 now ≠ 0 := by
        rw [ne_eq, ← toNat_inj, toNat_ofNat]
        exact h0
      rw [if_neg hmore, if_neg hne, hsame]
      rfl

theorem first_near (hahead : Ahead abs wall vs vns) :
    |first now abs wall vs vns - start now abs wall vs vns * 10 ^ 6| ≤ 2 * 10 ^ 6 := by
  have hdiv := tdiv_bounds vns.toInt
  obtain ⟨hpos, hbound⟩ := hahead
  rw [abs_le]
  unfold first start nanos
  unfold millis at *
  cases abs with
  | false =>
    simp only [Bool.false_eq_true, if_false] at *
    omega
  | true =>
    cases wall with
    | none =>
      simp only [if_true] at *
      omega
    | some u =>
      obtain ⟨hle, -⟩ := hbound u rfl
      simp only [if_true] at *
      omega

/-- With an interval of whole milliseconds and a first expiry that is ahead, timely reads
together count the instants up to a time as far from `t` as the stored expiry is from `first`. -/
theorem timely_exact (harmed : ¬ (vs = 0 ∧ vns = 0)) (hi : 0 < i) (hi' : i < 2 ^ 32)
    (hint : nanos is ins = i * 10 ^ 6) (hahead : Ahead abs wall vs vns) (ts : List Nat)
    (h : Timely i (start now abs wall vs vns) (ts ++ [t])) :
    ∃ t' : Int, |t' - t * 10 ^ 6| ≤ 2 * 10 ^ 6 ∧
      total (doTimerfd (ofNat 32 now) abs wall is ins vs vns) (ts ++ [t]) =
        expired (first now abs wall vs vns) (nanos is ins) t' := by
  have h0 : start now abs wall vs vns % 2 ^ 32 ≠ 0 := by
    cases ts with
    | nil => exact h.1
    | cons => exact h.1
  have hnear : |first now abs wall vs vns - start now abs wall vs vns * 10 ^ 6| ≤ 2 * 10 ^ 6 :=
    first_near hahead
  rw [doTimerfd_eq harmed hint hahead h0, total_eq hi hi' ts h, hint]
  generalize start now abs wall vs vns = n at *
  generalize first now abs wall vs vns = f at *
  refine ⟨t * 10 ^ 6 + (f - n * 10 ^ 6), by simpa using hnear, ?_⟩
  have hdiv : ((t : Int) * 10 ^ 6 + (f - n * 10 ^ 6) - f) / (i * 10 ^ 6) = (t - n) / i := by
    rw [← Int.mul_ediv_mul_of_pos_left ((t : Int) - n) i (show (0 : Int) < 10 ^ 6 by decide)]
    ring_nf
  rw [expired, hdiv, count]
  by_cases hle : n ≤ t
  · rw [if_pos hle, if_pos (by omega)]
    push_cast [hle]
    rfl
  rw [if_neg hle, if_neg (by omega)]
  rfl

end

/-- An instant of the wall clock, and a read between two expiries. -/
theorem timely_exact_wall : ∃ t' : Int, |t' - 135 * 10 ^ 6| ≤ 2 * 10 ^ 6 ∧
    total (doTimerfd 100 true (some 5000) 0 10000000 5 5500000) [104, 112, 135] =
      expired 105500000 10000000 t' :=
  have hstart : start 100 true (some 5000) 5 5500000 = 105 := by decide
  have hahead : Ahead true (some 5000) 5 5500000 := by
    refine ⟨by decide, ?_⟩
    rintro w ⟨⟩
    decide
  have htimely : Timely 10 (start 100 true (some 5000) 5 5500000) ([104, 112] ++ [135]) := by
    rw [hstart]
    simp [Timely, count]
  timely_exact (by decide) (by decide) (by decide) (by decide) hahead [104, 112] htimely

/-- A period of 1.5 ms is kept as 1 ms, so after three seconds a thousand expirations too many
are counted. -/
theorem rounding_accumulates : ¬ ∃ t' : Int, |t' - 3000 * 10 ^ 6| ≤ 2 * 10 ^ 6 ∧
    total (doTimerfd 0 false none 0 1500000 0 1500000) [3000] = expired 1500000 1500000 t' := by
  rintro ⟨t', hnear, heq⟩
  have htotal : total (doTimerfd 0 false none 0 1500000 0 1500000) [3000] = 3000 := by decide
  have := abs_le.1 hnear
  rw [htotal, expired] at heq
  split at heq <;> omega

end SamaraOS.TimerFd
