import SamaraOS.Fs.Path

/-!
# System calls on names (syscall.c)

Each call takes the directories its paths start from, the working directory of its process or
that of a directory descriptor, and valid user strings.  What the
mount table answers for a directory and whether memory is left is the call's `Env`.
-/

namespace SamaraOS.Fs

structure Env where
  /-- `mnt_ro`. -/
  ro : Id → Bool
  /-- `mnt_newnode` has room in this directory. -/
  room : Id → Bool
  mem : Bool

structure OpenFlags where
  creat : Bool := false
  excl : Bool := false
  directory : Bool := false
  write : Bool := false
  trunc : Bool := false
  deriving DecidableEq, Repr

structure Sys where
  fs : Store
  /-- The working directory of each process. -/
  cwd : List Id

def cwdOf (s : Sys) (i : Nat) : Id :=
  s.cwd.getD i s.fs.root

section

variable (env : Env) (fs : Store)

/-- `mnt_ro`, `mnt_newnode`. -/
def mayAdd (dir : Id) : Except Errno Unit :=
  if env.ro dir then .error .erofs else if env.room dir then .ok () else .error .enospc

def targetPath (parent : Id) (target : Path) : Except Errno Path :=
  if target.head? = some '/' then .ok (target.take 255)
  else if 120 < target.length then .error .enametoolong
  else .ok (fsPath fs parent 128 ++ '/' :: target)

def placeOf (full : Path) : Except Errno (Id × Name) :=
  let name := baseName full
  if fsNameMax ≤ name.length then .error .enametoolong
  else
    match if dirPart full = [] then some fs.root else fsResolve fs fs.root (dirPart full) with
    | none => .error .enoent
    | some p => if fs.isDir p then .ok (p, name) else .error .enoent

/-- `O_CREAT` through a dangling symlink makes the target. -/
def chase : Nat → Id → Name → Except Errno (Id × Name)
  | 0, parent, name => .ok (parent, name)
  | k + 1, parent, name =>
    match (findChild fs parent name).bind fs.node with
    | none => .ok (parent, name)
    | some ex =>
      if ex.type ≠ .link then .ok (parent, name)
      else do
        let full ← targetPath fs parent ex.data
        let (parent, name) ← placeOf fs full
        chase k parent name

def openNode (n : Id) (fl : OpenFlags) : Store × Except Errno Id :=
  match fs.node n with
  | none => (fs, .error .enoent)
  | some nd =>
    let plain := nd.dev == 0 && nd.type == .file
    if fl.directory && nd.type != .dir then (fs, .error .enotdir)
    else if nd.type == .dir && fl.write then (fs, .error .eisdir)
    else if plain && (fl.write || fl.trunc) && env.ro n then (fs, .error .erofs)
    else
      let fs := if plain && fl.trunc && fl.write then fs.upd n fun r => { r with data := [] } else fs
      if !env.mem then (fs, .error .enomem)
      -- a device has a file of its own kind that does not hold the node
      else if nd.dev != 0 then (fs, .ok n)
      else (fsOpen fs n, .ok n)

end

/-! ## The calls

A call is written over the lookups from the directory its path starts from; `link` and `rename`
take two paths, each with a directory of its own. -/

structure Walks where
  lookup : Path → Option Id
  peek : Path → Bool → Option Id
  dent : Path → Option Id
  parent : Path → Except Errno (Id × Name)
  /-- Where `O_CREAT` makes the target of a dangling symlink. -/
  chase : Id → Name → Except Errno (Id × Name)

def Walks.plain (fs : Store) (base : Id) : Walks where
  lookup := Fs.lookup fs base
  peek := lookupPeek fs base
  dent := lookupDent fs base
  parent := lookupParent fs base
  chase := Fs.chase fs 8

section

variable (env : Env) (fs : Store) (w w' : Walks)

def openBy (path : Path) (fl : OpenFlags) : Store × Except Errno Id :=
  match w.lookup path with
  | some n => if fl.creat && fl.excl then (fs, .error .eexist) else openNode env fs n fl
  | none =>
    if !fl.creat then (fs, .error .enoent)
    else
      let place := do
        let (parent, name) ← w.parent path
        let (parent, name) ← w.chase parent name
        mayAdd env parent
        return (parent, name)
      match place with
      | .error e => (fs, .error e)
      | .ok (parent, name) =>
        match if env.mem then fsCreate fs parent name .file else none with
        | none => (fs, .error .eacces)
        | some (fs, n) => openNode env fs n fl

def mkdirBy (path : Path) : Except Errno Store := do
  if (w.lookup path).isSome then throw .eexist
  let (parent, name) ← w.parent path
  mayAdd env parent
  match if env.mem then fsCreate fs parent name .dir else none with
  | none => throw .eexist
  | some (fs, _) => return fs

def symlinkBy (target path : Path) : Except Errno Store := do
  let (parent, name) ← w.parent path
  if (findChild fs parent name).isSome then throw .eexist
  mayAdd env parent
  match if env.mem then fsSymlink fs parent name target else none with
  | none => throw .enomem
  | some fs => return fs

def linkBy (src dst : Path) (follow : Bool) : Except Errno Store := do
  let some n := w.peek src follow | throw .enoent
  let some nd := fs.node n | throw .enoent
  if nd.type = .dir then throw .eperm
  if nd.dev ≠ 0 ∨ nd.unlinked = true then
    throw (if nd.unlinked then .enoent else .eperm)
  let (parent, name) ← w'.parent dst
  if (findChild fs parent name).isSome then throw .eexist
  let owner := fsOwner fs (some n)
  if owner ≠ fsOwner fs (some parent) then throw .exdev
  if env.ro parent then throw .erofs
  -- fat volumes have the ids 1..7
  if (fs.node owner).any fun r => r.mountId != 0 && r.mountId.toNat < 8 then throw .eperm
  if 60000 < nd.xl.toNat then throw .emlink
  if !env.mem then throw .enomem
  return fsHlink fs n parent name

def unlinkBy (cwds : List Id) (path : Path) (removedir : Bool) : Except Errno Store := do
  let some n := w.dent path | throw .enoent
  let some nd := fs.node n | throw .enoent
  if removedir then
    if nd.type ≠ .dir then throw .enotdir
    if nd.child ≠ [] then throw .enotempty
    if n = fs.root then throw .ebusy
    if n ∈ cwds then throw .ebusy
  else if nd.type = .dir then throw .eisdir
  let some parent := nd.parent | throw .ebusy
  if env.ro parent then throw .erofs
  return fsDropName fs n

/-- The checks of a rename onto an existing name; then that name is unlinked. -/
def clearBy (cwds : List Id) (path : Path) (src dst : Node) : Except Errno Store := do
  if dst.type = .dir ∧ src.type ≠ .dir then throw .eisdir
  if dst.type ≠ .dir ∧ src.type = .dir then throw .enotdir
  if dst.type = .dir ∧ dst.child ≠ [] then throw .enotempty
  unlinkBy env fs w cwds path (dst.type == .dir)

def renameBy (cwds : List Id) (src dst : Path) : Except Errno Store := do
  let some n := w.dent src | throw .enoent
  let some nd := fs.node n | throw .enoent
  let (parent, name) ← w'.parent dst
  if env.ro parent || nd.parent.any env.ro then throw .erofs
  let foreign := fsOwner fs nd.parent != fsOwner fs (some parent)
  if foreign && !env.room parent then throw .enospc
  if (nd.hl.isSome || nd.xl != 0) && foreign then throw .exdev
  if nd.type = .dir ∧ isAncestor fs n parent then throw .einval
  match findChild fs parent name with
  | none => return moveTo fs n parent name
  | some d =>
    let some dd := fs.node d | throw .enoent
    -- the same name, or two names of one file
    if d = n ∨ fs.real d = fs.real n then return fs
    let fs ← clearBy env fs w' cwds dst nd dd
    return moveTo fs n parent name

end

section

variable (env : Env) (fs : Store)

def doOpen (base : Id) (path : Path) (fl : OpenFlags) : Store × Except Errno Id :=
  openBy env fs (.plain fs base) path fl

def doMkdir (base : Id) (path : Path) : Except Errno Store :=
  mkdirBy env fs (.plain fs base) path

def doSymlink (base : Id) (target path : Path) : Except Errno Store :=
  symlinkBy env fs (.plain fs base) target path

def doLink (base base' : Id) (src dst : Path) (follow : Bool) : Except Errno Store :=
  linkBy env fs (.plain fs base) (.plain fs base') src dst follow

def doUnlink (cwds : List Id) (base : Id) (path : Path) (removedir : Bool) : Except Errno Store :=
  unlinkBy env fs (.plain fs base) cwds path removedir

def doRename (cwds : List Id) (base base' : Id) (src dst : Path) : Except Errno Store :=
  renameBy env fs (.plain fs base) (.plain fs base') cwds src dst

end

inductive Call where
  | open (path : Path) (fl : OpenFlags)
  /-- The last descriptor of a file description on the node is closed. -/
  | close (n : Id)
  | mkdir (path : Path)
  | symlink (target path : Path)
  | link (src dst : Path) (follow : Bool)
  | unlink (path : Path)
  | rmdir (path : Path)
  | rename (src dst : Path)
  | chdir (path : Path)
  | fchdir (fd : Id)
  deriving DecidableEq, Repr

structure Event where
  proc : Nat
  env : Env
  call : Call
  /-- The directory descriptor of the path; `none` is `AT_FDCWD`. -/
  dirfd : Option Id := none
  /-- That of the new path of `link` and `rename`. -/
  nfd : Option Id := none

/-- `dir_base`; a descriptor of anything but a directory makes the call fail. -/
def dirBase (s : Sys) (i : Nat) (fd : Option Id) (path : Path) : Id :=
  if path.head? = some '/' then cwdOf s i else fd.getD (cwdOf s i)

def doChdir (s : Sys) (i : Nat) (n : Id) : Sys :=
  if s.fs.isDir n then { s with cwd := s.cwd.set i n } else s

def orSame (fs : Store) (r : Except Errno Store) : Store :=
  match r with
  | .ok fs' => fs'
  | .error _ => fs

def next (s : Sys) (ev : Event) : Sys :=
  let base := dirBase s ev.proc ev.dirfd
  let base' := dirBase s ev.proc ev.nfd
  match ev.call with
  | .open path fl => { s with fs := (doOpen ev.env s.fs (base path) path fl).1 }
  | .close n =>
    if (s.fs.node n).any (0 < ·.refs) then { s with fs := fsRelease s.fs n } else s
  | .mkdir path => { s with fs := orSame s.fs (doMkdir ev.env s.fs (base path) path) }
  | .symlink target path =>
    { s with fs := orSame s.fs (doSymlink ev.env s.fs (base path) target path) }
  | .link src dst follow =>
    { s with fs := orSame s.fs (doLink ev.env s.fs (base src) (base' dst) src dst follow) }
  | .unlink path => { s with fs := orSame s.fs (doUnlink ev.env s.fs s.cwd (base path) path false) }
  | .rmdir path => { s with fs := orSame s.fs (doUnlink ev.env s.fs s.cwd (base path) path true) }
  | .rename src dst =>
    { s with fs := orSame s.fs (doRename ev.env s.fs s.cwd (base src) (base' dst) src dst) }
  | .chdir path =>
    match lookup s.fs (cwdOf s ev.proc) path with
    | none => s
    | some n => doChdir s ev.proc n
  | .fchdir fd => doChdir s ev.proc fd

def play (s : Sys) (evs : List Event) : Sys :=
  evs.foldl next s

end SamaraOS.Fs
