import SamaraOS.Core.PageTables

/-!
# Looking for free address space

`vmm_find_free` walks the tables from one entry to the next, skips what a missing entry leaves
empty in one step, and adds up the free stretch.  A hole is added as a whole, also what of it
lies beyond the limit.  Addresses are plain numbers: below `2 ^ 64 - 2 ^ 39` nothing wraps.
-/

namespace SamaraOS.Vmm

def idx (a lvl : Nat) : Fin 512 := ⟨a / 2 ^ (12 + 9 * lvl) % 512, Nat.mod_lt _ (by decide)⟩

def slotAt (pd : Space) (a : Nat) : Entry Pt :=
  (pd (idx a 3)).below .none fun t => (t (idx a 2)).below .none fun t => t (idx a 1)

def inUse (pd : Space) (a : Nat) : Bool := (slotAt pd a).pageUsed (idx a 0)

/-- The end of the entry for `a` at a level: `(a | (size - 1)) + 1`. -/
def entryEnd (a lvl : Nat) : Nat := (a / 2 ^ (12 + 9 * lvl) + 1) * 2 ^ (12 + 9 * lvl)

/-- What `scan_free` finds at `a`: whether it is free, and how far.  Its inner loops stay below
one entry; to walk down again from the top comes to the same. -/
def chunk (pd : Space) (a : Nat) : Bool × Nat :=
  match pd (idx a 3) with
  | .table t2 =>
    match t2 (idx a 2) with
    | .table t1 =>
      match t1 (idx a 1) with
      | .table pt => (!used (pt (idx a 0)), entryEnd a 0)
      | .reserved => (false, entryEnd a 1)
      | .none => (true, entryEnd a 1)
    | .none | .reserved => (true, entryEnd a 2)
  | .none | .reserved => (true, entryEnd a 3)

/-- The loop of `scan_free`; it returns 0 if there is nothing. -/
def scanFrom (pd : Space) (limit len : Nat) : Nat → Nat → Nat → Nat → Nat
  | 0, _, _, _ => 0
  | fuel + 1, run, start, a =>
    if a < limit then
      let nx := (chunk pd a).2
      if (chunk pd a).1 then
        let start := if run = 0 then a else start
        let run := run + (nx - a)
        if len ≤ run then start else scanFrom pd limit len fuel run start nx
      else scanFrom pd limit len fuel 0 start nx
    else 0

def scanFree (pd : Space) (start limit len : Nat) : Nat :=
  scanFrom pd limit len (limit + 1) 0 start start

def roundUp (len : Nat) : Nat := (len + 4095) % 2 ^ 64 / 4096 * 4096

/-- `c` is the hint in `fc`. -/
def findFree (pd : Space) (c lo limit len : Nat) : Nat :=
  let len := roundUp len
  let r := if lo < c ∧ c < limit then scanFree pd c limit len else 0
  if r = 0 then scanFree pd lo limit len else r

structure Gap (pd : Space) (lo limit len r : Nat) : Prop where
  aligned : 4096 ∣ r
  above : lo ≤ r
  below : r + len ≤ limit
  free : ∀ p, r ≤ p → p < r + len → inUse pd p = false

def FindRight (pd : Space) (c lo limit len : Nat) : Prop :=
  let r := findFree pd c lo limit len
  let size := (len + 4095) / 4096 * 4096
  (r ≠ 0 → Gap pd lo limit size r) ∧ (r = 0 → ∀ r', ¬ Gap pd lo limit size r')

variable {pd : Space} {limit len lo a run start fuel : Nat}

theorem lt_entryEnd (a lvl : Nat) : a < entryEnd a lvl :=
  Nat.lt_mul_of_div_lt (Nat.lt_succ_self _) (Nat.two_pow_pos _)

theorem idx_eq {p lvl l : Nat} (hp : a ≤ p) (hlt : p < entryEnd a lvl) (hl : lvl ≤ l) :
    idx p l = idx a l := by
  have hdiv : p / 2 ^ (12 + 9 * lvl) = a / 2 ^ (12 + 9 * lvl) :=
    le_antisymm (Nat.le_of_lt_succ (Nat.div_lt_of_lt_mul (by rwa [mul_comm])))
      (Nat.div_le_div_right hp)
  obtain ⟨d, rfl⟩ := Nat.exists_eq_add_of_le hl
  have hpow : 2 ^ (12 + 9 * (lvl + d)) = 2 ^ (12 + 9 * lvl) * 2 ^ (9 * d) := by
    rw [← pow_add]
    congr 1
    omega
  simp only [idx, hpow, ← Nat.div_div_eq_div_mul, hdiv]

theorem dvd_entryEnd (a lvl : Nat) : 4096 ∣ entryEnd a lvl := by
  have hpow : 4096 ∣ 2 ^ (12 + 9 * lvl) := pow_dvd_pow 2 (Nat.le_add_right 12 _)
  exact hpow.mul_left _

/-- A chunk is free as a whole or in use as a whole. -/
theorem chunk_spec (pd : Space) (a : Nat) : a < (chunk pd a).2 ∧ 4096 ∣ (chunk pd a).2 ∧
      ∀ p, a ≤ p → p < (chunk pd a).2 → inUse pd p = !(chunk pd a).1 := by
  unfold chunk inUse slotAt
  split
  · next t2 h3 =>
    split
    · next t1 h2 =>
      split
      · next pt h1 =>
        refine ⟨lt_entryEnd a 0, dvd_entryEnd a 0, fun p hp hlt => ?_⟩
        have hi := fun l => @idx_eq a p 0 l hp hlt (Nat.zero_le l)
        simp [hi, h3, h2, h1, Entry.below, Entry.pageUsed]
      all_goals
        next h1 =>
        refine ⟨lt_entryEnd a 1, dvd_entryEnd a 1, fun p hp hlt => ?_⟩
        have hi := fun l => @idx_eq a p 1 (l + 1) hp hlt (Nat.le_add_left 1 l)
        simp [hi 2, hi 1, hi 0, h3, h2, h1, Entry.below, Entry.pageUsed]
    all_goals
      next h2 =>
      refine ⟨lt_entryEnd a 2, dvd_entryEnd a 2, fun p hp hlt => ?_⟩
      have hi := fun l => @idx_eq a p 2 (l + 2) hp hlt (Nat.le_add_left 2 l)
      simp [hi 1, hi 0, h3, h2, Entry.below, Entry.pageUsed]
  all_goals
    next h3 =>
    refine ⟨lt_entryEnd a 3, dvd_entryEnd a 3, fun p hp hlt => ?_⟩
    simp [@idx_eq a p 3 3 hp hlt le_rfl, h3, Entry.below, Entry.pageUsed]

/-! ## The loop -/

/-- Between two chunks: the stretch counted so far is free, and no gap begins before it. -/
structure Scanning (pd : Space) (lo limit len run start a : Nat) : Prop where
  short : run < len
  here : 4096 ∣ a ∧ lo ≤ a
  stretch : 0 < run → 4096 ∣ start ∧ lo ≤ start ∧ start + run = a ∧
    ∀ p, start ≤ p → p < a → inUse pd p = false
  none : ∀ r, Gap pd lo limit len r → (if run = 0 then a else start) ≤ r

/-- No hole reaches across the limit. -/
def Closed (pd : Space) (limit : Nat) : Prop :=
  ∀ a, 0 < a → a < limit → 4096 ∣ a → (chunk pd a).1 = true → (chunk pd a).2 ≤ limit

section

variable (h : Scanning pd lo limit len run start a)

include h

theorem Scanning.free (hfree : (chunk pd a).1 = true) :
    let start' := if run = 0 then a else start
    4096 ∣ start' ∧ lo ≤ start' ∧ start' + (run + ((chunk pd a).2 - a)) = (chunk pd a).2 ∧
      (∀ p, start' ≤ p → p < (chunk pd a).2 → inUse pd p = false) ∧
      ∀ r, Gap pd lo limit len r → start' ≤ r := by
  obtain ⟨hlt, -, hchunk⟩ := chunk_spec pd a
  have hfirst := h.none
  split_ifs at hfirst ⊢ with hrun
  · refine ⟨h.here.1, h.here.2, by omega, fun p hp hpn => ?_, hfirst⟩
    rw [hchunk p hp hpn, hfree]
    rfl
  obtain ⟨hd, hle, hend, hstretch⟩ := h.stretch (Nat.pos_of_ne_zero hrun)
  refine ⟨hd, hle, by omega, fun p hp hpn => ?_, hfirst⟩
  rcases Nat.lt_or_ge p a with hpa | hpa
  · exact hstretch p hp hpa
  rw [hchunk p hpa hpn, hfree]
  rfl

theorem Scanning.used (hused : (chunk pd a).1 = false) :
    Scanning pd lo limit len 0 start (chunk pd a).2 := by
  obtain ⟨hlt, hdvd, hchunk⟩ := chunk_spec pd a
  refine ⟨by have := h.short; omega, ⟨hdvd, h.here.2.trans hlt.le⟩, nofun, fun r hr => ?_⟩
  have hfirst := h.none r hr
  by_contra hbefore
  simp only [if_true, not_le] at hbefore
  -- the gap would have to end before the chunk, which is too short for it
  rcases Nat.lt_or_ge a (r + len) with hlong | hend
  · have hmeet := hr.free (max a r) (le_max_right _ _) (by have := h.short; omega)
    rw [hchunk _ (le_max_left _ _) (by omega), hused] at hmeet
    cases hmeet
  have hshort := h.short
  split_ifs at hfirst with hrun
  · omega
  have := (h.stretch (Nat.pos_of_ne_zero hrun)).2.2.1
  omega

theorem Scanning.done (hle : limit ≤ a) (r : Nat) :
    ¬ Gap pd lo limit len r := by
  intro hr
  have hfirst := h.none r hr
  have hbelow := hr.below
  have hshort := h.short
  split_ifs at hfirst with hrun
  · omega
  have := (h.stretch (Nat.pos_of_ne_zero hrun)).2.2.1
  omega

theorem Scanning.result (hlo : 0 < lo)
    (hclosed : Closed pd limit) (hfuel : limit < a + fuel) :
    (scanFrom pd limit len fuel run start a ≠ 0 →
      Gap pd lo limit len (scanFrom pd limit len fuel run start a)) ∧
    (scanFrom pd limit len fuel run start a = 0 → ∀ r, ¬ Gap pd lo limit len r) := by
  induction fuel generalizing run start a with
  | zero => exact ⟨fun hne => absurd rfl hne, fun _ => h.done (by omega)⟩
  | succ fuel ih =>
    obtain ⟨hlt, hdvd, -⟩ := chunk_spec pd a
    rw [scanFrom]
    by_cases ha : a < limit
    · rw [if_pos ha]
      cases hfree : (chunk pd a).1 with
      | true =>
        obtain ⟨hd, hle, hend, hstretch, hfirst⟩ := h.free hfree
        have hin := hclosed a (hlo.trans_le h.here.2) ha h.here.1 hfree
        rw [if_pos rfl]
        by_cases henough : len ≤ run + ((chunk pd a).2 - a)
        · rw [if_pos henough]
          refine ⟨fun _ => ⟨hd, hle, by omega, fun p hp hpl => hstretch p hp (by omega)⟩, ?_⟩
          intro hzero
          omega
        rw [if_neg henough]
        refine ih ⟨by omega, ⟨hdvd, h.here.2.trans hlt.le⟩,
          fun _ => ⟨hd, hle, hend, hstretch⟩, ?_⟩ (by omega)
        rwa [if_neg (by omega)]
      | false =>
        exact ih (h.used hfree) (by omega)
    rw [if_neg ha]
    exact ⟨fun hne => absurd rfl hne, fun _ => h.done (by omega)⟩

end

theorem scanFree_right (hlen : 0 < len) (hlo : 0 < lo) (hdvd : 4096 ∣ lo)
    (hclosed : Closed pd limit) :
    (scanFree pd lo limit len ≠ 0 → Gap pd lo limit len (scanFree pd lo limit len)) ∧
      (scanFree pd lo limit len = 0 → ∀ r, ¬ Gap pd lo limit len r) := by
  have hscan : Scanning pd lo limit len 0 lo lo :=
    ⟨hlen, ⟨hdvd, le_rfl⟩, nofun, fun r hr => hr.above⟩
  exact hscan.result hlo hclosed (by omega)

/-- Whatever the hint, the search is right for all requests exactly if no hole in the tables
reaches across the limit. -/
theorem findFree_right_iff (pd : Space) (limit : Nat) : (∀ c lo len, 4096 ∣ c → 4096 ∣ lo → 0 < lo →
    lo ≤ limit → 0 < len → len + 4095 < 2 ^ 64 → FindRight pd c lo limit len) ↔ Closed pd limit :=
    by
  constructor
  · intro hright a hpos hlt hdvd hfree
    by_contra hcross
    obtain ⟨hnx, hdvd', -⟩ := chunk_spec pd a
    have hle : (chunk pd a).2 ≤ a + 2 ^ 39 := by
      unfold chunk entryEnd
      split
      · split
        · split <;> dsimp only <;> omega
        all_goals dsimp only; omega
      all_goals dsimp only; omega
    have hround : roundUp ((chunk pd a).2 - a) = (chunk pd a).2 - a := by
      unfold roundUp
      omega
    have hres := (hright a a ((chunk pd a).2 - a) hdvd hdvd hpos hlt.le (by omega) (by omega)).1
    have hfind : findFree pd a a limit ((chunk pd a).2 - a) = a := by
      simp [findFree, hround, scanFree, scanFrom, hlt, hfree]
    rw [hfind] at hres
    have := (hres hpos.ne').below
    omega
  intro hclosed c lo len hc hlo hpos hle hlen hwrap
  have hround : roundUp len = (len + 4095) / 4096 * 4096 := by
    rw [roundUp, Nat.mod_eq_of_lt hwrap]
  unfold FindRight findFree
  rw [hround]
  dsimp only
  have hsize : 0 < (len + 4095) / 4096 * 4096 := by omega
  have hscan := scanFree_right hsize hpos hlo hclosed
  split_ifs with hhint hzero hzero
  · exact hscan
  · have hfrom := (scanFree_right hsize (hpos.trans hhint.1) hc hclosed).1 hzero
    exact ⟨fun _ => { hfrom with above := hhint.1.le.trans hfrom.above }, fun h => absurd h hzero⟩
  · exact hscan
  · exact absurd rfl hzero

/-- Nothing is mapped, one page may be used, and two are asked for. -/
theorem findFree_beyond : ¬ FindRight (fun _ => .none) 0 4096 8192 8192 := by
  rintro ⟨hfound, -⟩
  have hbelow := (hfound (by decide +kernel)).below
  revert hbelow
  decide +kernel

end SamaraOS.Vmm
