import Mathlib

/-!
# Lazily attached shared memory

A segment is a slot of `shm[]`: the node it belongs to and a table of frames, 0 where no page was
touched yet.  Attaching writes page table entries that hold no frame but the number of the slot
and of the page.  The slot counts them in `nlz`; once its node is gone it lives until the last of
them is touched, unmapped or thrown away with its address space.  `do_unlink` makes the node let
go with its last name, whether or not a file is open on it; a node without a name, such as a memfd,
does with the last close.
-/

namespace SamaraOS.Shm

def enc (slot page : Nat) : Nat := (slot * 2 ^ 40 ||| page * 2 ^ 12) % 2 ^ 64

def slotOf (e : Nat) : Nat := e / 2 ^ 40 % 2 ^ 8

def pageOf (e : Nat) : Nat := e / 2 ^ 12 % 2 ^ 28

theorem enc_fields {slot page : Nat} (hs : slot < 2 ^ 8) (hp : page < 2 ^ 28) :
    slotOf (enc slot page) = slot ∧ pageOf (enc slot page) = page := by
  have hor : slot * 2 ^ 40 ||| page * 2 ^ 12 = slot * 2 ^ 40 + page * 2 ^ 12 := by
    rw [Nat.mul_comm slot, ← Nat.two_pow_add_eq_or_of_lt (by omega)]
  rw [slotOf, pageOf, enc, hor]
  omega

structure Entry where
  sp : Nat
  va : Nat
  e : Nat
deriving DecidableEq

def Entry.key (x : Entry) : Nat × Nat := (x.sp, x.va)

/-! ## The table -/

def shmMax : Nat := 128

/-- `left` is only for the proofs: whether the node was gone when it let go of the slot. -/
structure Slot where
  node : Option Nat
  fr : List Nat
  n : Nat
  nlz : Int
  dead : Bool
  left : Bool

def Slot.idle : Slot := ⟨none, [], 0, 0, false, false⟩

structure Freed where
  slot : Nat
  gone : Bool
  nlz : Int
  ptes : Nat

/-- `taken` and `dropped` count, per frame, the references that the table took over and gave back
with `pmm_unref`; they and `log` are only for the proofs.  A node has names (the entry of a System V
segment is one) and open files. -/
structure State where
  names : Nat → Nat
  opens : Nat → Nat
  slot : Nat → Slot
  lazy : List Entry
  taken : Nat → Nat
  dropped : Nat → Nat
  log : List Freed

def State.init : State := ⟨fun _ => 0, fun _ => 0, fun _ => Slot.idle, [], fun _ => 0, fun _ => 0, []⟩

namespace State

variable (s : State)

def ptes (i : Nat) : Nat := s.lazy.countP fun x => slotOf x.e == i

def held (f : Nat) : Nat := ∑ i ∈ Finset.range shmMax, (s.slot i).fr.count f

def setSlot (i : Nat) (t : Slot) : State := { s with slot := Function.update s.slot i t }

def freeSlot (i : Nat) (gone : Bool) : State :=
  { s with
    slot := Function.update s.slot i
      { s.slot i with node := none, fr := [], n := 0, dead := false }
    dropped := fun f => s.dropped f + if f = 0 then 0 else ((s.slot i).fr.take (s.slot i).n).count f
    log := ⟨i, gone, (s.slot i).nlz, s.ptes i⟩ :: s.log }

def gone (node : Nat) : Bool := s.names node == 0 && s.opens node == 0

def dropSlot (node i : Nat) : State :=
  if (s.slot i).node = some node then
    if 0 < (s.slot i).nlz then
      s.setSlot i { s.slot i with node := none, dead := true, left := s.gone node }
    else s.freeSlot i (s.gone node)
  else s

def shmDrop (node : Nat) : State := (List.range shmMax).foldl (fun s i => s.dropSlot node i) s

def setNames (node k : Nat) : State := { s with names := Function.update s.names node k }

def setOpens (node k : Nat) : State := { s with opens := Function.update s.opens node k }

/-- `do_unlink`, and `sv_free` for a segment: the name goes in the same call. -/
def unlink (node : Nat) : State :=
  let s' := s.setNames node (s.names node - 1)
  if s.names node ≤ 1 then s'.shmDrop node else s'

/-- `fs_release`. -/
def close (node : Nat) : State :=
  let s' := s.setOpens node (s.opens node - 1)
  if s'.gone node then s'.shmDrop node else s'

def lzPut (e : Nat) : State :=
  let i := slotOf e
  let s := s.setSlot i { s.slot i with nlz := (s.slot i).nlz - 1 }
  if (s.slot i).nlz ≤ 0 ∧ (s.slot i).dead = true then s.freeSlot i (s.slot i).left else s

def lzDup (e : Nat) : State :=
  s.setSlot (slotOf e) { s.slot (slotOf e) with nlz := (s.slot (slotOf e)).nlz + 1 }

def findSlot (node : Nat) : Option Nat :=
  ((List.range shmMax).find? fun i => (s.slot i).node == some node).or
    ((List.range shmMax).find? fun i => (s.slot i).node.isNone && !(s.slot i).dead)

/-- The table grown to `pages` entries; `pages * 8` is a 32-bit product. -/
def grown (i node pages : Nat) : Slot :=
  let old := if (s.slot i).node = some node then (s.slot i).fr else []
  { s.slot i with
    node := some node
    fr := (old ++ List.replicate pages 0).take (pages * 8 % 2 ^ 32 / 8)
    n := pages }

/-- `shm_slot`; its `pages` is a 32-bit number and `memory` says whether `kmalloc` has room. -/
def shmSlot (node pages : Nat) (memory : Bool) : State × Option Nat :=
  match s.findSlot node with
  | none => (s, none)
  | some i =>
    if (s.slot i).node = some node ∧ pages % 2 ^ 32 ≤ (s.slot i).n then (s, some i)
    else if memory then (s.setSlot i (s.grown i node (pages % 2 ^ 32)), some i)
    else (s, none)

/-- `shm_lz_frame` and `shm_pg`: the spare frame goes in if nobody had one yet. -/
def place (i k spare : Nat) : State :=
  if (s.slot i).fr[k]? = some 0 ∧ spare ≠ 0 then
    { s.setSlot i { s.slot i with fr := (s.slot i).fr.set k spare } with
      taken := fun f => s.taken f + if f = spare then 1 else 0 }
  else s

def entryAt (sp va : Nat) : Option Entry := s.lazy.find? fun x => x.key == (sp, va)

def release (x : Entry) : State := { s with lazy := s.lazy.erase x }.lzPut x.e

def erasePage (sp va : Nat) : State :=
  match s.entryAt sp va with
  | none => s
  | some x => s.release x

def add (x : Entry) : State := { s.lzDup x.e with lazy := x :: s.lazy }

def attachPage (sp va slot page : Nat) : State := (s.erasePage sp va).add ⟨sp, va, enc slot page⟩

def attach (sp va slot first : Nat) : Nat → Nat → State → State
  | 0, _, s => s
  | m + 1, k, s => attach sp va slot first m (k + 1) (s.attachPage sp (va + k) slot (first + k))

def erasePages (sp : Nat) (vas : List Nat) : State := vas.foldl (fun s va => s.erasePage sp va) s

def pagesOf (sp : Nat) : List Nat := (s.lazy.filter fun x => x.sp == sp).map Entry.va

def destroy (sp : Nat) : State := s.erasePages sp (s.pagesOf sp)

def faultIn (sp va fr : Nat) : State :=
  match s.entryAt sp va with
  | none => s
  | some x => if fr = 0 then s else (s.place (slotOf x.e) (pageOf x.e) fr).release x

/-- `clone_level` on the untouched pages; `limit` of them are copied before the memory ends. -/
def cloneSpace (sp new limit : Nat) : State :=
  if s.pagesOf new = [] ∧ sp ≠ new then
    let src := s.lazy.filter fun x => x.sp == sp
    let s' := (src.take limit).foldl (fun s x => s.add ⟨new, x.va, x.e⟩) s
    if src.length ≤ limit then s' else s'.destroy new
  else s

end State

/-- `map` is `mmap` of a segment's node, and `shmat` with `first = 0`; `pages` of the `np` entries
are written before the page tables run out of memory, and `undo` is `mmap`'s clean-up then. -/
inductive Op
  | map (sp va node first np pages : Nat) (memory undo : Bool)
  | page (node pages k fr : Nat) (memory : Bool)
  | fault (sp va fr : Nat)
  | unmap (sp : Nat) (vas : List Nat)
  | fork (sp new limit : Nat)
  | exit (sp : Nat)
  | link (node : Nat)
  | openNode (node : Nat)
  | unlink (node : Nat)
  | close (node : Nat)

def step (s : State) : Op → State
  | .map sp va node first np pages memory undo =>
    match s.shmSlot node (first + np) memory with
    | (s, none) => s
    | (s, some i) =>
      let s := State.attach sp va i first (min np pages) 0 s
      if undo then s.erasePages sp ((List.range np).map (va + ·)) else s
  | .page node pages k fr memory =>
    match s.shmSlot node pages memory with
    | (s, none) => s
    | (s, some i) => s.place i k fr
  | .fault sp va fr => s.faultIn sp va fr
  | .unmap sp vas => s.erasePages sp vas
  | .fork sp new limit => s.cloneSpace sp new limit
  | .exit sp => s.destroy sp
  | .link node => s.setNames node (s.names node + 1)
  | .openNode node => s.setOpens node (s.opens node + 1)
  | .unlink node => s.unlink node
  | .close node => s.close node

def run (s : State) (ops : List Op) : State := ops.foldl step s

/-- An attach asks for pages that an entry can encode, and the last name of a segment goes when no
file is open on it. -/
def OpOk (s : State) : Op → Prop
  | .map _ _ _ first np _ _ _ => first + np ≤ 2 ^ 28
  | .page _ pages _ _ _ => pages ≤ 2 ^ 28
  | .unlink node => s.names node ≤ 1 → s.opens node = 0
  | _ => True

def RunOk (s : State) : List Op → Prop
  | [] => True
  | op :: ops => OpOk s op ∧ RunOk (step s op) ops

end SamaraOS.Shm
