import SamaraOS.Core.PageCache

/-!
# Page frames and page table entries (`vmm.c`)

What `vmm_copy_to` does to the entry of a page before it writes to the page, with the counts of
the frames.  The counts of swap slots and of lazy shared pages are left out.
-/

namespace SamaraOS.Frames

open Function List Option

structure Mem where
  /-- `refcnt`; frame 0 is not one of the pool's. -/
  refs : Nat → Nat
  maxPfn : Nat
  hint : Nat
  /-- The frames of shared memory, 0 for a page that was not touched. -/
  shm : Nat → Nat → Nat

inductive Pte where
  | lazy (rw : Bool)
  /-- `PTE_SHL`: a lazy page of shared memory. -/
  | shl (seg page : Nat) (rw : Bool)
  | swap (slot : Nat) (rw : Bool)
  | page (frame : Nat) (rw cow shared : Bool)
  deriving DecidableEq

def Mem.set (m : Mem) (f n : Nat) : Mem := { m with refs := update m.refs f n }

def pmmAlloc (m : Mem) : Option (Nat × Mem) :=
  (((range m.maxPfn).map fun n => (m.hint + n) % m.maxPfn).find? fun i => m.refs i = 0).map
    fun i => (i, { m.set i 1 with hint := i + 1 })

def ours (m : Mem) (f : Nat) : Bool := f < m.maxPfn && m.refs f ≠ 255

def pmmRef (m : Mem) (f : Nat) : Mem :=
  if ours m f ∧ m.refs f < 254 then m.set f (m.refs f + 1) else m

def pmmUnref (m : Mem) (f : Nat) : Mem :=
  if ours m f ∧ m.refs f ≠ 0 ∧ m.refs f ≠ 254 then m.set f (m.refs f - 1) else m

/-- For a frame of the pool the page cache counts in the same way. -/
theorem pmmRef_cache {m : Mem} {f : Nat} (h : ours m f) :
    (pmmRef m f).refs = (PageCache.pmmRef { refcnt := m.refs } f).refcnt := by
  unfold pmmRef PageCache.pmmRef PageCache.refUp
  by_cases hlt : m.refs f < 254 <;> simp [h, hlt, Mem.set]

theorem pmmUnref_cache {m : Mem} {f : Nat} (h : ours m f) :
    (pmmUnref m f).refs = (PageCache.pmmUnref { refcnt := m.refs } f).refcnt := by
  by_cases hkeep : m.refs f = 0 ∨ m.refs f = 254
  · have hval : PageCache.refDown (m.refs f) = m.refs f := by
      unfold PageCache.refDown
      split <;> omega
    rw [pmmUnref, if_neg (by tauto)]
    simp [PageCache.pmmUnref, hval]
  · rw [not_or] at hkeep
    simp [pmmUnref, PageCache.pmmUnref, PageCache.refDown, h, hkeep, Mem.set]

/-- What `vmm_copy_to` does to the entry of a page: it is brought in, and copied if it is shared
for fork.  `readOk` says whether a read of the swap succeeds. -/
def bringIn (readOk : Bool) (m : Mem) : Pte → Pte × Mem
  | .lazy rw =>
    match pmmAlloc m with
    | none => (.lazy rw, m)
    | some (n, m) => (.page n rw false false, m)
  | .shl seg k rw =>
    match pmmAlloc m with
    | none => (.shl seg k rw, m)
    | some (n, m) =>
      if m.shm seg k = 0 then
        (.page n rw false true,
          pmmRef { m with shm := update m.shm seg (update (m.shm seg) k n) } n)
      else (.page (m.shm seg k) rw false true, pmmUnref (pmmRef m (m.shm seg k)) n)
  | .swap slot rw =>
    -- the frame that `vmm_fault_in` takes first is given back
    let m := match pmmAlloc m with
      | none => m
      | some (n, m) => pmmUnref m n
    match pmmAlloc m with
    | none => (.swap slot rw, m)
    | some (n, m) => if readOk then (.page n rw false false, m) else (.swap slot rw, pmmUnref m n)
  | .page f rw cow shared =>
    if cow then
      if m.refs f ≠ 1 then
        match pmmAlloc m with
        | none => (.page f rw cow shared, m)
        | some (n, m) => (.page n true false shared, pmmUnref m f)
      else (.page f true false shared, m)
    else (.page f rw cow shared, m)

def one (f g : Nat) : Nat := if g = f then 1 else 0

theorem one_of_ne {f g : Nat} (he : g ≠ f) : one f g = 0 := if_neg he

theorem pmmAlloc_some {m m' : Mem} {n : Nat} (h : pmmAlloc m = some (n, m')) :
    n < m.maxPfn ∧ m.refs n = 0 ∧ m'.refs = update m.refs n 1 ∧ m'.maxPfn = m.maxPfn := by
  obtain ⟨i, hi, he⟩ := map_eq_some_iff.1 h
  cases he
  have hzero : m.refs n = 0 := by simpa using find?_some hi
  obtain ⟨k, hk, rfl⟩ := mem_map.1 (mem_of_find?_eq_some hi)
  have hpos : 0 < m.maxPfn := by
    have := mem_range.1 hk
    omega
  exact ⟨Nat.mod_lt _ hpos, hzero, rfl, rfl⟩

end SamaraOS.Frames
