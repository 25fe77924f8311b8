import Mathlib

/-!
# The page cache (pcache.c)

A file that has been mapped has a record of the frames of its pages.  The cache holds one
reference on every frame and each page table entry another.  Frames are counted by a byte
that sticks at 254 (vmm.c).

The bytes are left out: `dirty` marks a frame with stores through a shared mapping that are
not in the file's data, which `sync_nl` finds out by comparing.  `own` says that the file has a
buffer, unlike borrowed boot data and files dropped from memory.  Sizes are in pages.
-/

namespace SamaraOS.PageCache

open Function

structure Entry where
  frame : Nat
  /-- The bit of the clock. -/
  seen : Bool
  deriving DecidableEq, Repr

structure Pcn where
  node : Nat
  fr : List (Option Entry) := []
  shared : Bool := false
  deriving DecidableEq, Repr

structure FileInfo where
  pages : Nat
  own : Bool
  deriving DecidableEq, Repr

structure Pte where
  space : Nat
  va : Nat
  frame : Nat
  rw : Bool
  /-- A shared mapping. -/
  shared : Bool
  deriving DecidableEq, Repr

structure Sys where
  cache : List Pcn := []
  handN : Option Nat := none
  handI : Nat := 0
  npages : Nat := 0
  nshared : Nat := 0
  refcnt : Nat → Nat := fun _ => 0
  dirty : Nat → Bool := fun _ => false
  ptes : List Pte := []
  /-- References held by others. -/
  ext : Nat → Nat := fun _ => 0
  files : Nat → FileInfo := fun _ => { pages := 0, own := true }

section

variable (s : Sys)

def refUp (n : Nat) : Nat := if n < 254 then n + 1 else n

def refDown (n : Nat) : Nat := if n = 254 then 254 else n - 1

def pmmRef (fr : Nat) : Sys :=
  { s with refcnt := update s.refcnt fr (refUp (s.refcnt fr)) }

def pmmUnref (fr : Nat) : Sys :=
  { s with refcnt := update s.refcnt fr (refDown (s.refcnt fr)) }

def pmmAlloc (choice : Option Nat) : Option Nat :=
  choice.filter fun fr => s.refcnt fr = 0

def indexOf (n : Nat) : Nat := s.cache.findIdx fun c => c.node = n

def pcnOf (n : Nat) : Option Pcn := s.cache[indexOf s n]?

def setPcn (n : Nat) (c : Pcn) : Sys := { s with cache := s.cache.set (indexOf s n) c }

structure Alloc where
  pcn : Bool
  array : Bool
  frame : Option Nat
  table : Bool

def getPcn (n : Nat) (a : Alloc) : Option Sys :=
  match pcnOf s n with
  | some _ => some s
  | none => if a.pcn then some { s with cache := { node := n } :: s.cache } else none

def growPcn (n i : Nat) (a : Alloc) : Option Sys :=
  match pcnOf s n with
  | none => none
  | some c =>
    if i < c.fr.length then some s
    else if a.array then
      let cap := max (s.files n).pages (i + 1)
      some (setPcn s n { c with fr := c.fr ++ List.replicate (cap - c.fr.length) none })
    else none

def takeFrame (n i : Nat) (a : Alloc) : Sys × Option Nat :=
  match pcnOf s n with
  | none => (s, none)
  | some c =>
    match c.fr.getD i none with
    | some e =>
      (pmmRef (setPcn s n { c with fr := c.fr.set i (some { e with seen := true }) }) e.frame,
        some e.frame)
    | none =>
      match pmmAlloc s a.frame with
      | none => (s, none)
      | some fr =>
        let s := setPcn s n { c with fr := c.fr.set i (some ⟨fr, true⟩) }
        (pmmRef { s with
          npages := s.npages + 1
          refcnt := update s.refcnt fr 1
          dirty := update s.dirty fr false } fr, some fr)

def getNl (n i : Nat) (a : Alloc) : Sys × Option Nat :=
  if (s.files n).pages ≤ i then (s, none)
  else
    match getPcn s n a with
    | none => (s, none)
    | some s =>
      match growPcn s n i a with
      | none => (s, none)
      | some s => takeFrame s n i a

def setShared (n : Nat) : Sys :=
  match pcnOf s n with
  | none => s
  | some c =>
    if c.shared then s
    else { setPcn s n { c with shared := true } with nshared := s.nshared + 1 }

def unrefAll (frames : List Nat) : Sys := frames.foldl pmmUnref s

def Pcn.frames (c : Pcn) : List Nat := c.fr.filterMap fun e => e.map Entry.frame

def dropNl (n : Nat) : Sys :=
  match pcnOf s n with
  | none => s
  | some c =>
    unrefAll
      { s with
        cache := s.cache.eraseIdx (indexOf s n)
        npages := s.npages - c.frames.length
        nshared := if c.shared then s.nshared - 1 else s.nshared
        handN := if s.handN = some n then none else s.handN }
      c.frames

def unmap (space va : Nat) : Sys :=
  match s.ptes.findIdx? fun p => p.space = space ∧ p.va = va with
  | none => s
  | some i =>
    match s.ptes[i]? with
    | none => s
    | some p => pmmUnref { s with ptes := s.ptes.eraseIdx i } p.frame

def vmmMapCache (space va fr : Nat) (w sh table : Bool) : Sys × Bool :=
  if table then
    let s := unmap (pmmRef s fr) space va
    ({ s with ptes := ⟨space, va, fr, sh && w, sh⟩ :: s.ptes }, true)
  else (s, false)

def pcMap (space n : Nat) (w sh : Bool) : List Alloc → Nat → Nat → Sys → Sys
  | [], _, _, s => s
  | a :: np, va, i, s =>
    if (s.files n).pages ≤ i then
      -- past the end: zero pages on touch
      unmapAll space (np.length + 1) va s
    else
      match getNl s n i a with
      | (s, none) => s
      | (s, some fr) =>
        let s := if sh then setShared s n else s
        let r := vmmMapCache s space va fr w sh a.table
        let s := pmmUnref r.1 fr
        if r.2 then pcMap space n w sh np (va + 1) (i + 1) s else s
where
  unmapAll (space : Nat) : Nat → Nat → Sys → Sys
    | 0, _, s => s
    | k + 1, va, s => unmapAll space k (va + 1) (unmap s space va)

def syncNl (c : Pcn) (first fin : Nat) : Sys :=
  if (s.files c.node).own then
    { s with
      dirty := fun f =>
        if ∃ i, i < c.fr.length ∧ first ≤ i ∧ i < fin ∧ i < (s.files c.node).pages ∧
            (c.fr.getD i none).map Entry.frame = some f then false
        else s.dirty f }
  else s

def pcSyncRange (n first fin : Nat) : Sys :=
  match pcnOf s n with
  | none => s
  | some c => if c.shared then syncNl s c first fin else s

/-- One file of `pc_sync_all`; a record that nobody maps is not shared any more. -/
def syncOne (n : Nat) : Sys :=
  match pcnOf s n with
  | none => s
  | some c =>
    if c.shared then
      let s := syncNl s c 0 c.fr.length
      if c.frames.any fun fr => 1 < s.refcnt fr then s
      else { setPcn s n { c with shared := false } with nshared := s.nshared - 1 }
    else s

def pcSyncAll : Sys :=
  if s.nshared = 0 then s else (s.cache.map Pcn.node).foldl syncOne s

def pcChanged (n : Nat) : Sys :=
  match pcnOf s n with
  | none => s
  | some c =>
    if c.shared then { s with dirty := fun f => if f ∈ c.frames then false else s.dirty f }
    else dropNl s n

structure Dropped where
  node : Nat
  page : Nat
  frame : Nat
  deriving DecidableEq, Repr

def nextNode (n : Nat) : Option Nat :=
  (s.cache[indexOf s n + 1]?.or s.cache.head?).map Pcn.node

def visit (n : Nat) (c : Pcn) (i : Nat) : Sys × Option Dropped :=
  match c.fr.getD i none with
  | none => (s, none)
  | some e =>
    if e.seen then
      (setPcn s n { c with fr := c.fr.set i (some { e with seen := false }) }, none)
    else if s.refcnt e.frame ≠ 1 then (s, none)
    else if c.shared then (s, none)
    else
      let s := pmmUnref (setPcn s n { c with fr := c.fr.set i none }) e.frame
      ({ s with npages := s.npages - 1 }, some ⟨n, i, e.frame⟩)

end

def reclaimLoop (want : Nat) : Nat → Nat → List Dropped → Sys → Sys × List Dropped
  | 0, _, got, s => (s, got)
  | fuel + 1, steps, got, s =>
    match s.handN with
    | none => (s, got)
    | some n =>
      match pcnOf s n with
      | none => (s, got)
      | some c =>
        if want ≤ got.length ∨ s.npages * 2 + 64 ≤ steps then (s, got)
        else if c.fr.length ≤ s.handI then
          let next := nextNode s n
          let s := { s with handN := next, handI := 0 }
          if next = some n ∧ c.fr.length = 0 then (s, got)
          else reclaimLoop want fuel (steps + 1) got s
        else
          let r := visit { s with handI := s.handI + 1 } n c s.handI
          reclaimLoop want fuel (steps + 1) (got ++ r.2.toList) r.1

def pcReclaim (s : Sys) (want : Nat) : Sys × List Dropped :=
  let s := if s.handN = none then
    { s with handN := s.cache.head?.map Pcn.node, handI := 0 } else s
  reclaimLoop want (s.npages * 2 + 64) 0 [] s

inductive Event where
  | map (space n va first : Nat) (w sh : Bool) (allocs : List Alloc)
  | unmap (space va : Nat)
  /-- `fork` copies an entry of a page table. -/
  | copy (space va space' : Nat)
  /-- `mprotect`. -/
  | protect (space va : Nat) (w : Bool)
  /-- A store through a mapping. -/
  | store (space va : Nat)
  | changed (n : Nat)
  /-- The size of a file changes, and `fs_touch` says so. -/
  | resize (n pages : Nat)
  /-- A file gets a buffer of its own, or is dropped from memory. -/
  | setOwn (n : Nat) (own : Bool)
  | syncRange (n first fin : Nat)
  | syncAll
  | free (n : Nat)
  | reclaim (want : Nat)
  /-- Frames of others. -/
  | hold (fr : Nat)
  | release (fr : Nat)

def pteAt (s : Sys) (space va : Nat) : Option Pte :=
  s.ptes.find? fun p => p.space = space ∧ p.va = va

/-- `vmm_set_writable` on one page; a private page whose frame others have, too, waits for the
write fault. -/
def vmmSetWritable (s : Sys) (space va : Nat) (w : Bool) : Sys :=
  { s with ptes := s.ptes.map fun p =>
      if p.space = space ∧ p.va = va then
        { p with rw := w && (p.shared || decide (s.refcnt p.frame ≤ 1)) }
      else p }

def next (s : Sys) : Event → Sys
  | .map space n va first w sh allocs => pcMap space n w sh allocs va first s
  | .unmap space va => unmap s space va
  | .copy space va space' =>
    match pteAt s space va with
    | none => s
    | some p =>
      let s := unmap (pmmRef s p.frame) space' va
      { s with ptes := { p with space := space' } :: s.ptes }
  | .protect space va w => vmmSetWritable s space va w
  | .store space va =>
    match pteAt s space va with
    | none => s
    | some p => if p.rw then { s with dirty := update s.dirty p.frame true } else s
  | .changed n => pcChanged s n
  | .resize n pages =>
    pcChanged { s with files := update s.files n { s.files n with pages := pages } } n
  | .setOwn n own => { s with files := update s.files n { s.files n with own := own } }
  | .syncRange n first fin => pcSyncRange s n first fin
  | .syncAll => pcSyncAll s
  | .free n => dropNl s n
  | .reclaim want => (pcReclaim s want).1
  | .hold fr =>
    if s.refcnt fr = 0 then
      { s with refcnt := update s.refcnt fr 1, ext := update s.ext fr (s.ext fr + 1) }
    else s
  | .release fr =>
    if s.ext fr = 0 then s
    else pmmUnref { s with ext := update s.ext fr (s.ext fr - 1) } fr

def play (s : Sys) (events : List Event) : Sys := events.foldl next s

def boot : Sys := {}

end SamaraOS.PageCache
