import SamaraOS.Lib.Siblings

/-!
# The size limit of a tmpfs

Files live in memory, in one tree for all volumes; a node with a `mount_id` is the root of a
volume.  A tmpfs mounted with a size keeps in its slot of the mount table how many bytes the last
walk found and how many were added since; growing a file asks there (`mnt_grow`, `mnt_newnode`).
The calls that write, cut, make, link, unlink and move files get nodes: paths are resolved before.
Only the three counters of each slot of the mount table change here.
-/

namespace SamaraOS.Quota

open Siblings

inductive Kind where
  | file
  | dir
  | link
  deriving DecidableEq, Repr

inductive Volume where
  | pseudo
  | fat
  | ext
  | tmp
  deriving DecidableEq, Repr

/-- The fields of `fs_node_t` the quota depends on. `hl` is set on an extra name of a file, `hn`
on the file itself: its extra names, newest first. -/
structure Info where
  name : String
  kind : Kind
  size : Nat := 0
  dev : Bool := false
  mountId : Nat := 0
  hl : Option Nat := none
  hn : List Nat := []
  deriving DecidableEq, Repr

/-- A slot of `tab`, without the counters. -/
structure Mnt where
  used : Bool := true
  ro : Bool := false
  kind : Volume
  node : Nat
  limit : Nat := 0
  nino : Nat := 0
  deriving DecidableEq, Repr

structure Use where
  usedB : Nat := 0
  added : Nat := 0
  cnt : Nat := 0
  deriving DecidableEq, Repr

structure State where
  tree : Siblings Info
  use : Nat → Use

inductive Errno where
  | ENOENT
  | ENOMEM
  | EBUSY
  | EEXIST
  | EXDEV
  | ENOTDIR
  | EISDIR
  | EINVAL
  | ENOSPC
  | EROFS
  | EMLINK
  | EPERM
  | ENOTEMPTY
  deriving DecidableEq, Repr

def State.setUse (st : State) (k : Nat) (u : Use) : State :=
  { st with use := fun j => if j = k then u else st.use j }

/-- What the nodes of one directory share: the directory, the root of their volume (none: the
root of everything) and the deepest slot of the mount table above them. -/
structure Place where
  up : Option Nat := none
  owner : Option Nat := none
  entry : Option Nat := none
  deriving DecidableEq, Repr

section

variable (ms : List Mnt)

def findAt (n : Nat) : Option Nat := ms.findIdx? fun e => e.used && e.node == n

def inner (s : Place) (i : Nat) (a : Info) : Place where
  up := some i
  owner := if a.mountId ≠ 0 then some i else s.owner
  entry := (findAt ms i).or s.entry

def look (t : Siblings Info) (i : Nat) : Option (Place × Info × Siblings Info) :=
  find (inner ms) {} i t

def mntFind (t : Siblings Info) (n : Nat) : Option Nat :=
  (look ms t n).bind fun r => (inner ms r.1 n r.2.1).entry

def fsOwner (t : Siblings Info) (n : Nat) : Option Nat :=
  (look ms t n).bind fun r => (inner ms r.1 n r.2.1).owner

def slotRo (k : Option Nat) : Bool := (k.bind fun k => ms[k]?).any (·.ro)

def mntRo (t : Siblings Info) (n : Nat) : Bool := slotRo ms (mntFind ms t n)

def walk : Siblings Info → Nat × Nat
  | nil => (0, 0)
  | node _ c child next =>
    if c.hl.isSome then walk next
    else
      let below := if c.kind = .dir ∧ c.mountId = 0 then walk child else (0, 0)
      ((if c.kind = .file ∧ c.dev = false then c.size else 0) + below.1 + (walk next).1,
        1 + below.2 + (walk next).2)

def recount (st : State) (e : Mnt) (u : Use) : Use :=
  match look ms st.tree e.node with
  | none => u
  | some (_, _, kids) =>
    { usedB := (walk kids).1 % 2 ^ 64, added := 0, cnt := (1 + (walk kids).2) % 2 ^ 32 }

def mntGrow (st : State) (n new : Nat) : Option Errno × State :=
  match look ms st.tree n with
  | none => (none, st)
  | some (s, a, _) =>
    match (inner ms s n a).entry with
    | none => (none, st)
    | some k =>
      match ms[k]? with
      | none => (none, st)
      | some e =>
        if e.ro then (some .EROFS, st)
        else if e.kind ≠ .tmp ∨ e.limit = 0 ∨ new ≤ a.size then (none, st)
        else
          let d := new - a.size
          let u := st.use k
          if e.limit < (u.usedB + u.added + d) % 2 ^ 64 then
            let u := recount ms st e u
            if e.limit < (u.usedB + d) % 2 ^ 64 then (some .ENOSPC, st.setUse k u)
            else (none, st.setUse k { u with added := (u.added + d) % 2 ^ 64 })
          else (none, st.setUse k { u with added := (u.added + d) % 2 ^ 64 })

def mntNewnode (st : State) (dir : Nat) : Option Errno × State :=
  match (mntFind ms st.tree dir) with
  | none => (none, st)
  | some k =>
    match ms[k]? with
    | none => (none, st)
    | some e =>
      if e.ro then (some .EROFS, st)
      else if e.kind ≠ .tmp ∨ e.nino = 0 then (none, st)
      else
        let u := recount ms st e (st.use k)
        (if e.nino ≤ u.cnt then some .ENOSPC else none, st.setUse k u)

/-! ## Calls -/

def real (t : Siblings Info) (i : Nat) : Nat :=
  match look ms t i with
  | some (_, a, _) => a.hl.getD i
  | none => i

def findChild (name : String) : Siblings Info → Option (Nat × Info × Siblings Info)
  | nil => none
  | node i a child next => if a.name = name then some (i, a, child) else findChild name next

def setSize (st : State) (n : Nat) (z : Nat → Nat) : State :=
  { st with tree := modify n (fun a => { a with size := z a.size }) st.tree }

/-- `node_write_at` and `node_truncate`: `new` is asked of the quota, `z` is the size after it,
`mem` says whether `node_reserve` finds the memory.  An open file whose last name is gone is in no
directory: it grows freely. -/
def resize (st : State) (n new : Nat) (mem : Bool) (z : Nat → Nat) : Option Errno × State :=
  match look ms st.tree n with
  | none => (none, st)
  | some (_, a, _) =>
    if a.kind ≠ .file then (some .EISDIR, st)
    else
      match mntGrow ms st n new with
      | (some err, st) => (some err, st)
      | (none, st) =>
        if mem then (none, setSize st n z) else (some .ENOMEM, st)

def nodeWriteAt (st : State) (n off len : Nat) (mem : Bool) : Option Errno × State :=
  let stop := (off + len) % 2 ^ 32
  resize ms st n stop mem fun size => max size stop

def nodeTruncate (st : State) (n len : Nat) (mem : Bool) : Option Errno × State :=
  resize ms st n (len % 2 ^ 32) mem fun _ => len % 2 ^ 32

/-- A name in a directory `shm` of a directory `dev`.  Its bytes are in frames, and no volume is
asked for them.  A memfd is in no directory. -/
def isShm (t : Siblings Info) (n : Nat) : Bool :=
  ((look ms t n).bind fun r => r.1.up.bind (look ms t)).any fun r =>
    r.2.1.name == "shm" && (r.1.up.bind (look ms t)).any fun q => q.2.1.name == "dev"

/-- `shm_rw` for writing; `mem` says whether it finds the table and the frames. -/
def shmWrite (st : State) (n off len : Nat) (mem : Bool) : Option Errno × State :=
  if len = 0 then (none, st)
  else if mem then (none, setSize st n fun size => max size ((off + len) % 2 ^ 64))
  else (some .ENOMEM, st)

def fileWrite (st : State) (n off len : Nat) (mem : Bool) : Option Errno × State :=
  if isShm ms st.tree n then shmWrite st n off len mem else nodeWriteAt ms st n off len mem

/-- `bare` says whether the node has no buffer. -/
def ftruncate (st : State) (n len : Nat) (mem bare : Bool) : Option Errno × State :=
  if isShm ms st.tree n && decide (2 ^ 20 < len) && bare then
    (none, setSize st n fun _ => len % 2 ^ 64)
  else nodeTruncate ms st n len mem

/-- Nothing hangs below a node that is no directory, nor below an extra name. -/
def leaf (a : Info) : Bool := a.kind != .dir || a.hl.isSome

/-- open with `O_CREAT`, mkdir, symlink and mknod. -/
def create (st : State) (dir : Nat) (name : String) (kind : Kind) (dev : Bool) (target : String)
    (new : Nat) : Option Errno × State :=
  match look ms st.tree dir with
  | none => (some .ENOENT, st)
  | some (_, b, kids) =>
    if leaf b then (some .ENOTDIR, st)
    else if (findChild name kids).isSome then (some .EEXIST, st)
    else if mntRo ms st.tree dir then (some .EROFS, st)
    else
      match mntNewnode ms st dir with
      | (some err, st) => (some err, st)
      | (none, st) =>
        if new ∈ st.tree.ids then (some .ENOMEM, st)
        else
          let size := if kind = .link then target.utf8ByteSize else 0
          let made : Info := { name := name, kind := kind, dev := dev, size := size }
          (none, { st with tree := attach dir new made nil st.tree })

def doLink (st : State) (src dir : Nat) (name : String) (new : Nat) : Option Errno × State :=
  let src := real ms st.tree src
  match look ms st.tree src, look ms st.tree dir with
  | some (_, a, _), some (_, b, kids) =>
    if a.kind = .dir then (some .EPERM, st)
    else if a.dev then (some .EPERM, st)
    else if leaf b then (some .ENOTDIR, st)
    else if (findChild name kids).isSome then (some .EEXIST, st)
    else if fsOwner ms st.tree src ≠ fsOwner ms st.tree dir then (some .EXDEV, st)
    else if mntRo ms st.tree dir then (some .EROFS, st)
    else if ((fsOwner ms st.tree src).bind (look ms st.tree)).any
        (fun r => r.2.1.mountId ≠ 0 && r.2.1.mountId < 8) then (some .EPERM, st)
    else if 60000 < a.hn.length then (some .EMLINK, st)
    else if new ∈ st.tree.ids then (some .ENOMEM, st)
    else
      let extra : Info := { name := name, kind := a.kind, hl := some src }
      let t := modify src (fun a => { a with hn := new :: a.hn }) st.tree
      (none, { st with tree := attach dir new extra nil t })
  | _, _ => (some .ENOENT, st)

def moveNode (t : Siblings Info) (n dir : Nat) (f : Info → Info) : Siblings Info :=
  match look ms t n with
  | none => t
  | some (_, a, kids) => attach dir n (f a) kids (detach n t)

def fsDropName (t : Siblings Info) (n : Nat) : Siblings Info :=
  match look ms t n with
  | none => t
  | some (_, a, _) =>
    match a.hl with
    | some f => detach n (modify f (fun b => { b with hn := b.hn.erase n }) t)
    | none =>
      match a.hn with
      | [] => detach n t
      | x :: rest =>
        match look ms t x with
        | none => detach n t
        | some (s, b, _) =>
          match s.up with
          | none => detach n t
          | some dir =>
            moveNode ms (detach x t) n dir fun a => { a with name := b.name, hn := rest }

/-- `busy` says whether some process has the directory as its working directory. -/
def doUnlink (st : State) (n : Nat) (rmdir busy : Bool) : Option Errno × State :=
  match look ms st.tree n with
  | none => (some .ENOENT, st)
  | some (s, a, kids) =>
    if rmdir && a.kind != .dir then (some .ENOTDIR, st)
    else if rmdir && !kids.ids.isEmpty then (some .ENOTEMPTY, st)
    else if rmdir && (s.up.isNone || busy) then (some .EBUSY, st)
    else if !rmdir && a.kind == .dir then (some .EISDIR, st)
    else if s.up.isNone then (some .EBUSY, st)
    else if slotRo ms s.entry then (some .EROFS, st)
    else (none, { st with tree := fsDropName ms st.tree n })

/-- `fs_owner` of the parent; the root has none and counts as its own. -/
def upOwner (s : Place) (n : Nat) (a : Info) : Option Nat :=
  if s.up.isNone then (inner ms s n a).owner else s.owner

def renamed (t : Siblings Info) (src dir : Nat) (name : String) : Siblings Info :=
  moveNode ms t src dir fun a => { a with name := name }

def moveOver (st : State) (src dir : Nat) (name : String) (busy : Bool) (a : Info)
    (there : Siblings Info) : Option Errno × State :=
  match findChild name there with
  | none => (none, { st with tree := renamed ms st.tree src dir name })
  | some (x, c, below) =>
    if x = src ∨ c.hl.getD x = a.hl.getD src then (none, st)
    else if c.kind = .dir ∧ a.kind ≠ .dir then (some .EISDIR, st)
    else if c.kind ≠ .dir ∧ a.kind = .dir then (some .ENOTDIR, st)
    else if c.kind = .dir ∧ below.ids ≠ [] then (some .ENOTEMPTY, st)
    else
      match doUnlink ms st x (c.kind == .dir) busy with
      | (some err, st) => (some err, st)
      | (none, st) => (none, { st with tree := renamed ms st.tree src dir name })

def doRename (st : State) (src dir : Nat) (name : String) (busy : Bool) : Option Errno × State :=
  match look ms st.tree src, look ms st.tree dir with
  | some (s, a, kids), some (_, b, there) =>
    if leaf b then (some .ENOTDIR, st)
    else if mntRo ms st.tree dir || slotRo ms s.entry then (some .EROFS, st)
    else
      let across : Bool := upOwner ms s src a ≠ fsOwner ms st.tree dir
      match if across then mntNewnode ms st dir else (none, st) with
      | (some err, st) => (some err, st)
      | (none, st) =>
        if across && (a.hl.isSome || !a.hn.isEmpty) then (some .EXDEV, st)
        else if a.kind = .dir ∧ dir ∈ src :: kids.ids then (some .EINVAL, st)
        else moveOver ms st src dir name busy a there
  | _, _ => (some .ENOENT, st)

inductive Op where
  | write (n off len : Nat) (mem : Bool)
  | truncate (n len : Nat) (mem : Bool)
  | ftruncate (n len : Nat) (mem bare : Bool)
  | create (dir : Nat) (name : String) (kind : Kind) (dev : Bool) (target : String) (new : Nat)
  | link (src dir : Nat) (name : String) (new : Nat)
  | unlink (n : Nat) (rmdir busy : Bool)
  | rename (src dir : Nat) (name : String) (busy : Bool)

def exec (st : State) : Op → Option Errno × State
  | .write n off len mem => fileWrite ms st (real ms st.tree n) off len mem
  | .truncate n len mem => nodeTruncate ms st (real ms st.tree n) len mem
  | .ftruncate n len mem bare => ftruncate ms st (real ms st.tree n) len mem bare
  | .create dir name kind dev target new => create ms st dir name kind dev target new
  | .link src dir name new => doLink ms st src dir name new
  | .unlink n rmdir busy => doUnlink ms st n rmdir busy
  | .rename src dir name busy => doRename ms st src dir name busy

def run (st : State) (ops : List Op) : State := ops.foldl (fun st op => (exec ms st op).2) st

end

end SamaraOS.Quota
