import SamaraOS.Lib.Dlist

/-!
# The kernel heap

One arena of `core/heap.c`.  Memory maps an address to the block header found there;
payloads are not modelled, but whoever owns one may leave anything at addresses that
are no block of the list.  Sums of sizes and addresses stay inside the arena and are
plain numbers; where a request can wrap, the `2 ^ 64` is written out.
-/

namespace SamaraOS.Kmalloc

open Dlist

structure Hdr where
  size : Nat
  free : Bool
  mg : BitVec 32
  deriving DecidableEq

def mgUsed : BitVec 32 := 0x5a11c0de
def mgFree : BitVec 32 := 0xf4eeb10c

/-- `sizeof(block_t)` -/
def hsz : Nat := 32

structure Arena where
  base : Nat
  size : Nat
  head : Option Nat
  rover : Option Nat
  used : Nat

structure Heap where
  mem : Mem Hdr
  arena : Arena

def align8 (n : Nat) : Nat := (n + 15) % 2 ^ 64 / 16 * 16

def arenaInit (m : Mem Hdr) (base size : Nat) : Heap where
  mem := m.set base ⟨⟨size - hsz, true, mgFree⟩, none, none⟩
  arena := ⟨base, size, some base, some base, 0⟩

def splitAt (m : Mem Hdr) (b n : Nat) : Mem Hdr :=
  insertAfter m b (b + hsz + n) { (m b).val with size := n }
    ⟨(m b).val.size - n - hsz, true, mgFree⟩

/-- `b` swallows the block after it.  The callers have looked that there is one. -/
def mergeNext (h : Heap) (b : Nat) : Heap :=
  match (h.mem b).next with
  | none => h
  | some nx =>
    let size := (h.mem b).val.size + (hsz + (h.mem nx).val.size)
    { mem := dropNext h.mem b { (h.mem b).val with size }
      arena := { h.arena with
        rover := if h.arena.rover = some nx then some b else h.arena.rover } }

def fits (m : Mem Hdr) (n b : Nat) : Bool := (m b).val.free && n ≤ (m b).val.size

/-- The loop of `arena_alloc`, from `b` around the list back to `start`. -/
def search (m : Mem Hdr) (head start n : Nat) : Nat → Nat → Option Nat
  | 0, _ => none
  | fuel + 1, b =>
    if fits m n b then some b
    else
      let b := (m b).next.getD head
      if b = start then none else search m head start n fuel b

def carve (m : Mem Hdr) (b n : Nat) : Mem Hdr :=
  if (n + hsz + 16) % 2 ^ 64 ≤ (m b).val.size then splitAt m b n else m

def arenaAlloc (h : Heap) (n : Nat) : Heap × Option Nat :=
  match h.arena.head with
  | none => (h, none)
  | some head =>
    if n = 0 then (h, none)
    else
      let n := align8 n
      let start := h.arena.rover.getD head
      match search h.mem head start n h.arena.size start with
      | none => (h, none)
      | some b =>
        let m := carve h.mem b n
        let m := setVal m b { (m b).val with free := false, mg := mgUsed }
        ({ mem := m
           arena := { h.arena with
             used := h.arena.used + ((m b).val.size + hsz)
             rover := some ((m b).next.getD head) } }, some (b + hsz))

inductive Freed where
  | done | doubleFree | badFree
  deriving DecidableEq

def hdrOf (p : Nat) : Nat := (p + 2 ^ 64 - hsz) % 2 ^ 64

def markFree (h : Heap) (b : Nat) : Heap where
  mem := setVal h.mem b { (h.mem b).val with free := true, mg := mgFree }
  arena := { h.arena with used := h.arena.used - ((h.mem b).val.size + hsz) }

def joinNext (h : Heap) (b : Nat) : Heap :=
  match (h.mem b).next with
  | none => h
  | some nx => if (h.mem nx).val.free then mergeNext h b else h

def joinPrev (h : Heap) (b : Nat) : Heap :=
  match (h.mem b).prev with
  | none => h
  | some pv => if (h.mem pv).val.free then mergeNext h pv else h

/-- `free_locked` after it has found the header `b`. -/
def freeBlock (h : Heap) (b : Nat) : Heap × Freed :=
  if (h.mem b).val.mg ≠ mgUsed then
    (h, if (h.mem b).val.mg = mgFree then .doubleFree else .badFree)
  else (joinPrev (joinNext (markFree h b) b) b, .done)

def freeLocked (h : Heap) (p : Nat) : Heap × Freed := freeBlock h (hdrOf p)

/-- `kgrow` of the block `b` to `n` bytes, a multiple of 16. -/
def growBlock (h : Heap) (b n : Nat) : Heap × Bool :=
  let size := (h.mem b).val.size
  if n ≤ size then (h, true)
  else
    match (h.mem b).next with
    | none => (h, false)
    | some nx =>
      if (h.mem nx).val.free ∧ n ≤ size + hsz + (h.mem nx).val.size then
        let h' := mergeNext h b
        let m := carve h'.mem b n
        ({ mem := m
           arena := { h'.arena with
             used := h.arena.used - (size + hsz) + ((m b).val.size + hsz) } }, true)
      else (h, false)

def kgrow (h : Heap) (p n : Nat) : Heap × Bool :=
  if p = 0 then (h, false) else growBlock h (hdrOf p) (align8 n)

def blocks (h : Heap) : List Nat := walk h.mem h.arena.size h.arena.head

inductive Event where
  | alloc (n : Nat)
  | free (p : Nat)
  | kgrow (p n : Nat)
  | store (x : Nat) (v : Node Hdr)

/-- What callers do: requests up to the size of the arena, frees of blocks and frees
that the canary turns down, growing of blocks, stores outside of the headers. -/
def enabled (h : Heap) : Event → Bool
  | .alloc n => n ≤ h.arena.size
  | .free p => hdrOf p ∈ blocks h ∨ (h.mem (hdrOf p)).val.mg ≠ mgUsed
  | .kgrow p _ => hdrOf p ∈ blocks h
  | .store x _ => x ∉ blocks h

def step (h : Heap) : Event → Heap
  | .alloc n => (arenaAlloc h n).1
  | .free p => (freeLocked h p).1
  | .kgrow p n => (kgrow h p n).1
  | .store x v => { h with mem := h.mem.set x v }

def next (h : Heap) (ev : Event) : Heap := if enabled h ev then step h ev else h

def play (h : Heap) (evs : List Event) : Heap := evs.foldl next h

end SamaraOS.Kmalloc
