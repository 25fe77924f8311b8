import SamaraOS.Fs.Node

/-!
# Path lookup (fs.c, syscall.c)

`resolve` walks a path character by character.  A symlink in the middle of a path, or at
its end when it is to be followed, is replaced by its target and the rest of the path, in
a buffer of 1024 bytes, at most nine times.  A process that has not called `chroot` looks
names up from the root of the tree, and no directory is an alias of another one.
-/

namespace SamaraOS.Fs

inductive Errno where
  | eperm | enoent | enomem | eacces | ebusy | eexist | exdev | enotdir | eisdir | einval
  | enospc | erofs | emlink | enametoolong | enotempty | eio | enotblk | enodev
  deriving DecidableEq, Repr

variable (fs : Store)

def look (cur : Id) (part : Name) : Option Id :=
  if cur = fs.root ∧ part = ['.', '.'] then some cur else findChild fs cur part

def expand (target rest : Path) : Path :=
  let k := target.take 1000
  ((if rest ≠ [] ∧ k.length < 1000 then k ++ ['/'] else k) ++ rest).take 1022

def skipSlashes (p : Path) : Path :=
  p.dropWhile (· == '/')

/-- The end of a component: `p` is what follows it, `next` goes on from the node found and
`jump` follows a symlink found in a directory. -/
def enter (follow dent : Bool) (jump : Id → Path → Option Id) (p : Path) (part : Name)
    (cur : Id) (next : Id → Option Id) : Option Id :=
  if part = [] then next cur
  else do
    let m ← look fs cur part
    let rest := skipSlashes p
    let m := if rest ≠ [] || follow || !dent then fs.real m else m
    let nd ← fs.node m
    if nd.type = .link ∧ (rest ≠ [] ∨ follow = true) then jump cur (expand nd.data rest)
    else next m

def walk (follow dent : Bool) (jump : Id → Path → Option Id) :
    Path → Name → Id → Option Id
  | [], part, cur => enter fs follow dent jump [] part cur some
  | c :: p, part, cur =>
    if c = '/' then
      enter fs follow dent jump (c :: p) part cur fun m => walk follow dent jump p [] m
    else walk follow dent jump p (if part.length < fsNameMax - 1 then part ++ [c] else part) cur

def walkFrom (follow dent : Bool) (jump : Id → Path → Option Id) (cwd : Id) (path : Path) :
    Option Id :=
  match path with
  | [] => some cwd
  | c :: p => if c = '/' then walk fs follow dent jump p [] fs.root
    else walk fs follow dent jump (c :: p) [] cwd

def resolveIn (follow : Bool) : Nat → Bool → Id → Path → Option Id
  | 0, dent => walkFrom fs follow dent fun _ _ => none
  | k + 1, dent => walkFrom fs follow dent (resolveIn follow k false)

def resolve (cwd : Id) (path : Path) (follow dent : Bool) : Option Id :=
  resolveIn fs follow 9 dent cwd path

def fsResolve (cwd : Id) (path : Path) : Option Id :=
  resolve fs cwd path true false

def lookup (base : Id) (path : Path) : Option Id :=
  if path = [] then none else fsResolve fs base path

def lookupPeek (base : Id) (path : Path) (follow : Bool) : Option Id :=
  if path = [] then none else resolve fs base path follow false

def lookupDent (base : Id) (path : Path) : Option Id :=
  if path = [] then none else resolve fs base path false true

def stripSlashes (path : Path) : Path :=
  match path.rdropWhile (· == '/') with
  | [] => path.take 1
  | p => p

def baseName (path : Path) : Name :=
  path.rtakeWhile (· != '/')

def dirPart (path : Path) : Path :=
  (path.rdropWhile (· != '/')).dropLast

def lookupParent (base : Id) (path : Path) : Except Errno (Id × Name) :=
  if path = [] then .error .enoent
  else if 256 ≤ path.length then .error .enametoolong
  else
    let tmp := stripSlashes path
    let name := baseName tmp
    if fsNameMax ≤ name.length then .error .enametoolong
    else
      let parent :=
        if '/' ∉ tmp then some base
        else if dirPart tmp = [] then some fs.root
        else fsResolve fs base (dirPart tmp)
      match parent with
      | none => .error .enoent
      | some p => if fs.isDir p then .ok (p, name) else .error .enotdir

def pathParts : Nat → Id → List Name
  | 0, _ => []
  | k + 1, n =>
    if n = fs.root then []
    else match fs.node n with
      | none => []
      | some nd => (nd.parent.elim [] (pathParts k)) ++ [nd.name]

/-- `fs_path` into a buffer of `cap` bytes. -/
def fsPath (n : Id) (cap : Nat) : Path :=
  if n = fs.root then ['/']
  else ((pathParts fs 64 n).flatMap fun nm => '/' :: nm).take (cap - 1)

end SamaraOS.Fs
