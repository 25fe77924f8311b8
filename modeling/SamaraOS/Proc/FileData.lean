import SamaraOS.Lib.Splice

/-!
# File contents (file.c)

`node_reserve`, `node_write_at` and `node_truncate` work on 32-bit offsets and lengths; the
system calls hand them 64-bit ones.  `node_nb_rw` is the path without the big lock.

A node's buffer holds `cap` bytes; a node without a capacity borrows its bytes from the boot
archive.  An access outside the buffer is a `fault`, a loop that does not end a `hang`.  Files in
`/dev/shm` and memfds, whose bytes live in frames, the control files under `/proc` and
modification times are left out.  The contents are those after dirty mapped pages were written
back.
-/

namespace SamaraOS.File

abbrev Byte := BitVec 8

def wrap32 (n : Nat) : Nat := n % 2 ^ 32

def intOf (n : Nat) : Int := (BitVec.ofNat 32 n).toInt

structure Node where
  bytes : List Byte
  cap : Nat
  /-- `data` is not `NULL`. -/
  here : Bool := true
  isFile : Bool := true
  dev : Bool := false
  /-- Mapped pages are cached. -/
  pc : Bool := false
  lazy : Bool := false
  hl : Bool := false
  sealed : Bool := false
  /-- A name that `do_write` treats specially. -/
  special : Bool := false
  deriving DecidableEq, Repr

def Node.size (nd : Node) : Nat := nd.bytes.length

structure Env where
  /-- The mount that the file sits on is read-only. -/
  ro : Bool
  /-- A tmpfs has no room for a file of this size. -/
  full : Nat → Bool
  /-- The file is on a mounted volume. -/
  mounted : Bool
  /-- There is memory for a buffer of this capacity. -/
  room : Nat → Bool
  /-- A sync is walking the tree. -/
  syncing : Bool
  /-- Some inotify watch exists. -/
  watched : Bool

inductive Outcome (σ : Type) where
  | ret (r : Int) (s : σ)
  | fault
  | hang
  deriving DecidableEq, Repr

section

variable (env : Env) (nd : Node)

def mntGrow (newsize : Nat) : Option Int :=
  if env.ro then some (-30)
  else if nd.size < newsize ∧ env.full newsize then some (-28) else none

def growStep (c : Nat) : Nat :=
  if c < 2 ^ 20 then c * 2 else wrap32 (c + c / 4)

def growCap : Nat → Nat → Nat → Option Nat
  | 0, _, _ => none
  | k + 1, c, m => if c < m then growCap k (growStep c) m else some c

def nodeReserve (need : Nat) : Outcome Node :=
  let m := wrap32 (need + 1)
  if m ≤ nd.cap then .ret 0 nd
  else
    let c := max (if nd.cap = 0 then 64 else nd.cap) (wrap32 (nd.size + 1))
    match growCap (2 ^ 32) c m with
    | none => .hang
    | some c => if env.room c then .ret 0 { nd with cap := c, here := true } else .ret (-12) nd

/-- `memset` of the gap, `memcpy` and the byte behind the end. -/
def putBytes (off : Nat) (buf : List Byte) : Outcome Node :=
  let fin := wrap32 (off + buf.length)
  let size := max nd.size fin
  if (nd.size < off ∧ nd.cap < off) ∨ (buf ≠ [] ∧ nd.cap < off + buf.length) ∨ nd.cap ≤ size then
    .fault
  else .ret (intOf buf.length) { nd with bytes := (splice 0 nd.bytes off buf).take size }

/-- `off` is a 32-bit offset. -/
def nodeWriteAt (off : Nat) (buf : List Byte) : Outcome Node :=
  let fin := wrap32 (off + buf.length)
  if !nd.isFile then .ret (-21) nd
  else
    match mntGrow env nd fin with
    | some e => .ret e nd
    | none =>
      match nodeReserve env nd (wrap32 (max fin nd.size)) with
      | .ret r nd => if r < 0 then .ret (-12) nd else putBytes nd off buf
      | o => o

def setSize (len : Nat) : Outcome Node :=
  if (nd.size < len ∧ nd.cap < len) ∨ (nd.here ∧ nd.cap ≤ len) then .fault
  else .ret 0 { nd with bytes := nd.bytes.take len ++ List.replicate (len - nd.size) 0 }

def resize (len : Nat) : Outcome Node :=
  if nd.size < len then
    match nodeReserve env nd len with
    | .ret r nd => if r < 0 then .ret (-12) nd else setSize nd len
    | o => o
  else setSize nd len

/-- `len` is a 32-bit length. -/
def nodeTruncate (len : Nat) : Outcome Node :=
  if !nd.isFile then .ret (-21) nd
  else
    match mntGrow env nd len with
    | some e => .ret e nd
    | none =>
      if nd.here ∧ nd.cap = 0 then
        -- a borrowed buffer is copied
        match nodeReserve env nd (wrap32 nd.size) with
        | .ret r nd => if r < 0 then .ret (-12) nd else resize env nd len
        | o => o
      else resize env nd len

/-- `truncate` and `ftruncate` with a 64-bit length. -/
def sysTruncate (len : Nat) : Outcome Node :=
  nodeTruncate env nd (wrap32 len)

end

structure OpenFile where
  node : Node
  off : Nat
  append : Bool := false
  deriving DecidableEq, Repr

inductive Req where
  | read (n : Nat) (pos : Option Nat)
  | write (buf : List Byte) (pos : Option Nat)
  deriving DecidableEq, Repr

structure Done where
  file : OpenFile
  out : List Byte := []
  deriving DecidableEq, Repr

section

variable (env : Env) (f : OpenFile)

def fileRead (n : Nat) : Outcome Done :=
  if f.node.size ≤ f.off then .ret 0 ⟨f, []⟩
  else
    let k := min (wrap32 (f.node.size - f.off)) (wrap32 n)
    .ret (intOf k) ⟨{ f with off := f.off + k }, (f.node.bytes.drop f.off).take k⟩

def fileWrite (buf : List Byte) : Outcome Done :=
  let off := if f.append then f.node.size else f.off
  match nodeWriteAt env f.node (wrap32 off) (buf.take (wrap32 buf.length)) with
  | .ret r nd => .ret r ⟨{ f with node := nd, off := if 0 < r then off + r.toNat else off }, []⟩
  | .fault => .fault
  | .hang => .hang

def Req.pos : Req → Option Nat
  | .read _ pos => pos
  | .write _ pos => pos

def slowRw (req : Req) : Outcome Done :=
  let g := { f with off := req.pos.getD f.off }
  let r := match req with
    | .read n _ => fileRead g n
    | .write buf _ => fileWrite env g buf
  match r, req.pos with
  | .ret r d, some _ => .ret r { d with file := { d.file with off := f.off } }
  | r, _ => r

def leavesAlone (wr : Bool) : Bool :=
  let nd := f.node
  !nd.isFile || nd.dev || nd.pc || nd.lazy || nd.hl || (wr && nd.sealed) || env.watched ||
    (wr && (nd.cap == 0 || env.syncing || nd.special))

def span (wr : Bool) (n off : Nat) : Option Nat :=
  if wr then
    if (f.node.size < off + n ∧ env.mounted) ∨ f.node.cap ≤ off + n ∨ 0xFFFFF000 < off + n then none
    else some n
  else some (if f.node.size ≤ off then 0 else min (f.node.size - off) n)

def claim (wr : Bool) (n : Nat) : Nat → Option (Option (Nat × Nat))
  | 0 => none
  | k + 1 =>
    let off := if wr && f.append then f.node.size else f.off
    if (wr && f.append && env.mounted) = true then some none
    else
      match span env f wr n off with
      | none => some none
      | some m =>
        if 0xFFFFF000 < off + m then some none
        else if f.off = off then some (some (off, m))
        else claim wr n k

end

def readLoop (nd : Node) (off k : Nat) : Nat → List Byte → List Byte × Bool
  | 0, out => (out, false)
  | fuel + 1, out =>
    if k ≤ out.length then (out, false)
    else if !nd.here || nd.pc || nd.lazy then (out, true)
    else
      let lim := if nd.cap = 0 then nd.size else nd.cap - 1
      let p := off + out.length
      if lim ≤ p then (out, false)
      else
        let c := min (min (k - out.length) 2048) (lim - p)
        readLoop nd off k fuel (out ++ (nd.bytes.drop p).take c)

def writeLoop (off : Nat) : Nat → Node → List Byte → Nat → Node × Nat × Bool
  | 0, nd, _, done => (nd, done, false)
  | fuel + 1, nd, rest, done =>
    if rest = [] then (nd, done, false)
    else if !nd.here || nd.pc || nd.lazy then (nd, done, true)
    else
      let c := rest.take 2048
      if nd.cap - 1 < off + done + c.length then (nd, done, true)
      else
        writeLoop off fuel { nd with bytes := splice 0 nd.bytes (off + done) c } (rest.drop 2048)
          (done + c.length)

inductive Nb where
  /-- `NB_SLOW`, with the file as it is then. -/
  | slow (f : OpenFile)
  | spin
  | ret (r : Int) (d : Done)
  deriving DecidableEq, Repr

def nbCopy (f : OpenFile) (req : Req) (off k : Nat) : Nb :=
  let moved (done : Nat) : Nat :=
    if req.pos.isSome then f.off else off + k - (k - done)
  match req with
  | .read _ _ =>
    let r := readLoop f.node off k (k + 1) []
    let g := { f with off := moved r.1.length }
    if r.2 && r.1.length == 0 then .slow g else .ret r.1.length ⟨g, r.1⟩
  | .write buf _ =>
    let r := writeLoop off (k + 1) f.node (buf.take k) 0
    let g := { f with node := r.1, off := moved r.2.1 }
    if r.2.2 && r.2.1 == 0 then .slow g else .ret r.2.1 ⟨g, []⟩

/-- `node_nb_rw`, with at most `fuel` rounds of the loop that claims the offset. -/
def nbRw (env : Env) (fuel : Nat) (f : OpenFile) (req : Req) : Nb :=
  let wr := match req with
    | .read _ _ => false
    | .write _ _ => true
  let n := match req with
    | .read n _ => n
    | .write buf _ => buf.length
  if leavesAlone env f wr then .slow f
  else
    match req.pos with
    | some off =>
      match span env f wr n off with
      | none => .slow f
      | some k => nbCopy f req off k
    | none =>
      match claim env f wr n fuel with
      | none => .spin
      | some none => .slow f
      | some (some (off, k)) => nbCopy f req off k

/-- The system call: the short path if the position is not negative as a signed number, and
the path under the big lock if that is left. -/
def sysRw (env : Env) (fuel : Nat) (f : OpenFile) (req : Req) : Outcome Done :=
  if req.pos.any fun pos => 2 ^ 63 ≤ pos then slowRw env f req
  else
    match nbRw env fuel f req with
    | .slow g => slowRw env g req
    | .spin => .hang
    | .ret r d => .ret r d

end SamaraOS.File
