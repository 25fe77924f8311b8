import SamaraOS.Lib.Frame

/-!
# Memory files and their seals (`syscall.c`, `file.c`)

The bytes of a memory file are in the frames that every shared mapping maps.  `node_truncate`
gives the node a buffer of its own as well, and once it is there the short way of `read` and
`write` goes to the buffer.  Both are kept here, with the pages that any process has mapped.
-/

namespace SamaraOS.Seals

inductive Errno where
  | eperm | ebadf | enomem | einval | eopnotsupp | efbig
  deriving DecidableEq, Repr

structure Pte where
  pd : Nat
  va : Nat
  page : Nat
  shared : Bool
  rw : Bool
  deriving DecidableEq

structure Memfd where
  seals : UInt8
  size : UInt64
  frames : Nat → UInt8
  /-- `node->data`. -/
  data : Option (Nat → UInt8)
  ptes : List Pte

abbrev Call := EStateM Errno Memfd Unit

def sealSeal : UInt8 := 1
def sealShrink : UInt8 := 2
def sealGrow : UInt8 := 4
def sealWrite : UInt8 := 8

def Memfd.has (m : Memfd) (s : UInt8) : Bool := m.seals &&& s != 0

/-- `memfd_create`. -/
def create (flags : UInt64) : Memfd :=
  ⟨(if flags &&& 2 != 0 then 0 else 1) ||| (if flags &&& 8 != 0 then 0x20 else 0), 0,
    fun _ => 0, none, []⟩

/-! ## Descriptors -/

def addSeals (arg : UInt64) : Call := fun m =>
  if m.has sealSeal then .error .eperm m
  else .ok () { m with seals := m.seals ||| arg.toUInt8 }

def overwrite (f : Nat → UInt8) (off : Nat) (buf : List UInt8) : Nat → UInt8 := fun i =>
  if off ≤ i then (buf[i - off]?).getD (f i) else f i

def write (append : Bool) (off : UInt64) (buf : List UInt8) (room : Nat) : Call := fun m =>
  let off := if append then m.size else off
  if m.has 24 then .error .eperm m
  else if buf = [] then .ok () m
  else if room < buf.length then
    .error .enomem { m with frames := overwrite m.frames off.toNat (buf.take room) }
  else
    .ok () { m with
      frames := overwrite m.frames off.toNat buf
      size := if m.size < off + buf.length.toUInt64 then off + buf.length.toUInt64 else m.size }

def zeroFrom (f : Nat → UInt8) (lo hi : Nat) : Nat → UInt8 := fun i =>
  if lo ≤ i ∧ i < hi then 0 else f i

def writeFast (off : UInt64) (buf : List UInt8) (room : Nat) : Call := fun m =>
  match m.data with
  | some d =>
    if m.seals = 0 ∧ off.toNat + buf.length < room then
      .ok () { m with
        data := some (overwrite (zeroFrom d m.size.toNat off.toNat) off.toNat buf)
        size := if m.size < off + buf.length.toUInt64 then off + buf.length.toUInt64 else m.size }
    else .ok () m
  | none => .ok () m

def doWrite (writable append : Bool) (off : UInt64) (buf : List UInt8) (room : Nat) : Call :=
  if writable then write append off buf room else throwThe Errno .ebadf

def low32 (n : UInt64) : UInt64 := n.toUInt32.toUInt64

/-- `node_truncate`; a new buffer starts with the bytes `junk`, and `mem` says whether there is
one. -/
def nodeTruncate (len : UInt64) (junk : Nat → UInt8) (mem : Bool) : Call := fun m =>
  if m.size < low32 len ∧ !mem then .error .enomem m
  else
    let data := if m.size < low32 len then
        some (zeroFrom (m.data.getD junk) m.size.toNat (low32 len).toNat)
      else m.data
    .ok () { m with
      data := data.map fun d => zeroFrom d (low32 len).toNat ((low32 len).toNat + 1)
      size := low32 len }

def truncRefused (m : Memfd) (len : UInt64) : Bool :=
  (m.has sealShrink && len < m.size) || (m.has sealGrow && m.size < len)

def ftruncate (len : UInt64) (junk : Nat → UInt8) (mem : Bool) : Call := fun m =>
  if truncRefused m len then .error .eperm m
  else if 0x100000 < len ∧ m.data.isNone then .ok () { m with size := len }
  else nodeTruncate len junk mem m

def fallocCheck (writable : Bool) (mode off len : UInt64) : Except Errno Unit := do
  unless writable do throw .ebadf
  if 2 ^ 63 ≤ off ∨ 2 ^ 63 ≤ len ∨ len = 0 then throw .einval
  if mode &&& ~~~(1 ||| 2 ||| 16) ≠ 0 then throw .eopnotsupp
  if mode &&& 2 ≠ 0 ∧ mode &&& 1 = 0 then throw .eopnotsupp
  if 0x7FFFFFFF < off + len then throw .efbig

def punch (mode off len : UInt64) (m : Memfd) : Memfd :=
  if mode &&& (2 ||| 16) ≠ 0 then
    { m with
      data := m.data.map fun d =>
        zeroFrom d (min off m.size).toNat (min (off + len) m.size).toNat }
  else m

/-- The last lines of `fallocate`, and all of it for mode 0. -/
def extend (e : UInt64) (junk : Nat → UInt8) (mem : Bool) : Call := fun m =>
  if m.size < e then nodeTruncate e junk mem m else .ok () m

def fallocate (writable : Bool) (mode off len : UInt64) (junk : Nat → UInt8) (mem : Bool) :
    Call := fun m =>
  if mode = 0 then extend (off + len) junk mem m
  else
    match fallocCheck writable mode off len with
    | .error e => .error e m
    | .ok () =>
      let m := punch mode off len m
      if mode &&& 1 = 0 then extend (off + len) junk mem m else .ok () m

def pageSize : Nat := 4096

def Pte.within (pd lo hi : Nat) (p : Pte) : Bool := p.pd = pd && lo ≤ p.va && p.va < hi

def freeRange (pd lo hi : Nat) (m : Memfd) : Memfd :=
  { m with ptes := m.ptes.filter fun p => !p.within pd lo hi }

/-- `do_mmap` of `n` pages from page `first` on.  A mapping at a fixed address takes away what
was there, also if it fails. -/
def mmap (pd va first n : Nat) (shared rw mem : Bool) : Call := fun m =>
  let m := freeRange pd va (va + n * pageSize) m
  if shared && rw && m.has sealWrite then .error .eperm m
  else if !mem then .error .enomem m
  else
    .ok () { m with
      ptes := (List.range n).map (fun k => ⟨pd, va + k * pageSize, first + k, shared, rw⟩) ++
        m.ptes }

def munmap (pd lo hi : Nat) : Call := fun m => .ok () (freeRange pd lo hi m)

def mprotect (pd lo hi : Nat) (rw : Bool) : Call := fun m =>
  .ok () { m with
    ptes := m.ptes.map fun p => if p.within pd lo hi then { p with rw := rw } else p }

/-- `vmm_clone_space`: shared pages stay shared. -/
def fork (pd npd : Nat) : Call := fun m =>
  .ok () { m with
    ptes := (m.ptes.filter (·.pd = pd)).map (fun p => { p with pd := npd }) ++ m.ptes }

/-- A store of user code: a private page is copied first, a read-only one faults. -/
def store (pd va off : Nat) (b : UInt8) : Call := fun m =>
  match m.ptes.find? fun p => p.pd = pd && p.va = va with
  | some p =>
    if p.rw && p.shared && decide (off < pageSize) then
      .ok () { m with frames := overwrite m.frames (p.page * pageSize + off) [b] }
    else .ok () m
  | none => .ok () m

inductive Op where
  | addSeals (arg : UInt64)
  | write (writable append : Bool) (off : UInt64) (buf : List UInt8) (room : Nat)
  | writeFast (off : UInt64) (buf : List UInt8) (room : Nat)
  | ftruncate (len : UInt64) (junk : Nat → UInt8) (mem : Bool)
  | fallocate (writable : Bool) (mode off len : UInt64) (junk : Nat → UInt8) (mem : Bool)
  | mmap (pd va first n : Nat) (shared rw mem : Bool)
  | munmap (pd lo hi : Nat)
  | mprotect (pd lo hi : Nat) (rw : Bool)
  | fork (pd npd : Nat)
  | store (pd va off : Nat) (b : UInt8)

def Op.call : Op → Call
  | .addSeals arg => Seals.addSeals arg
  | .write writable append off buf room => doWrite writable append off buf room
  | .writeFast off buf room => Seals.writeFast off buf room
  | .ftruncate len junk mem => Seals.ftruncate len junk mem
  | .fallocate writable mode off len junk mem => Seals.fallocate writable mode off len junk mem
  | .mmap pd va first n shared rw mem => Seals.mmap pd va first n shared rw mem
  | .munmap pd lo hi => Seals.munmap pd lo hi
  | .mprotect pd lo hi rw => Seals.mprotect pd lo hi rw
  | .fork pd npd => Seals.fork pd npd
  | .store pd va off b => Seals.store pd va off b

def next (m : Memfd) (op : Op) : Memfd := finalState (op.call m)

def view (m : Memfd) (i : Nat) : UInt8 := (m.data.getD m.frames) i

def WritableShared (m : Memfd) : Prop := ∃ p ∈ m.ptes, p.shared ∧ p.rw

end SamaraOS.Seals
