import SamaraOS.Lib.Forest

/-!
# Nodes and names (fs.c)

The kernel keeps the whole tree in memory.  A node is a name and, unless it is an extra
hard link name, the file behind the name.  `child` is the chain `child`/`next` of a
directory, newest first; `hn` of a real node is the chain of its extra names, newest
first, and each of those names points back with `hl`.

A freed node is `none` in the store; writing to freed memory has no modelled effect.
Times, permission bits, inotify events and the page cache of a node are left out.
-/

namespace SamaraOS.Fs

abbrev Id := Nat

abbrev Name := List Char

abbrev Path := List Char

def fsNameMax : Nat := 128

inductive FsType where
  | file
  | dir
  | link
  deriving DecidableEq, Repr

structure Node where
  name : Name
  type : FsType
  parent : Option Id
  child : List Id := []
  /-- Contents of a file, target of a symlink. -/
  data : List Char := []
  dev : BitVec 8 := 0
  unlinked : Bool := false
  /-- Open file descriptions pointing here. -/
  refs : Nat := 0
  mountId : BitVec 8 := 0
  hl : Option Id := none
  hn : List Id := []
  xl : BitVec 16 := 0
  deriving DecidableEq, Repr

structure Store where
  node : Id → Option Node
  /-- Nodes from here on have never been allocated. -/
  fresh : Id
  root : Id

namespace Store

def put (fs : Store) (n : Id) (v : Option Node) : Store :=
  { fs with node := Function.update fs.node n v }

def upd (fs : Store) (n : Id) (f : Node → Node) : Store :=
  fs.put n ((fs.node n).map f)

def free (fs : Store) (n : Id) : Store :=
  fs.put n none

def type (fs : Store) (n : Id) : Option FsType :=
  (fs.node n).map (·.type)

def isDir (fs : Store) (n : Id) : Bool :=
  fs.type n == some .dir

def parent (fs : Store) (n : Id) : Option Id :=
  (fs.node n).bind (·.parent)

def child (fs : Store) (n : Id) : List Id :=
  (fs.node n).elim [] (·.child)

def mountId (fs : Store) (n : Id) : BitVec 8 :=
  (fs.node n).elim 0 (·.mountId)

def real (fs : Store) (n : Id) : Id :=
  ((fs.node n).bind (·.hl)).getD n

def forest (fs : Store) : Forest Id where
  parent := fs.parent
  kids := fs.child

end Store

variable (fs : Store)

def nodeNew (name : Name) (type : FsType) (parent : Option Id) : Store :=
  { (fs.put fs.fresh (some { name := name.take (fsNameMax - 1), type, parent })) with
    fresh := fs.fresh + 1 }

def linkChild (dir c : Id) : Store :=
  fs.upd dir fun d => { d with child := c :: d.child }

def hasName (name : Name) (c : Id) : Bool :=
  (fs.node c).any (·.name == name)

def findChild (dir : Id) (name : Name) : Option Id :=
  match fs.node dir with
  | none => none
  | some d =>
    if d.type ≠ .dir then none
    else if name = ['.'] then some dir
    else if name = ['.', '.'] then some (d.parent.getD dir)
    else d.child.find? (hasName fs name)

def fsDetach (n : Id) : Store :=
  match fs.parent n with
  | none => fs
  | some p =>
    (fs.upd p fun d => { d with child := d.child.erase n }).upd n fun c => { c with parent := none }

def fsAttach (dir n : Id) : Store :=
  linkChild (fs.upd n fun c => { c with parent := some dir }) dir n

/-- The last component is already split off: `name` holds no slash. -/
def fsCreate (dir : Id) (name : Name) (type : FsType) : Option (Store × Id) :=
  if !fs.isDir dir then none
  else if (findChild fs dir name).isSome then none
  else some (linkChild (nodeNew fs name type (some dir)) dir fs.fresh, fs.fresh)

def fsSymlink (dir : Id) (name : Name) (target : Path) : Option Store :=
  (fsCreate fs dir name .link).map fun r =>
    r.1.upd r.2 fun n => { n with data := target }

def fsHlink (t dir : Id) (name : Name) : Store :=
  match fs.node t with
  | none => fs
  | some nt =>
    let a := fs.fresh
    let fs := (nodeNew fs name nt.type (some dir)).upd a fun n => { n with hl := some t }
    let fs := fs.upd t fun n => { n with hn := a :: n.hn, xl := n.xl + 1 }
    linkChild fs dir a

def dropExtra (n t : Id) : Store :=
  let fs := fs.upd t fun r => { r with hn := r.hn.erase n, xl := r.xl - 1 }
  (fsDetach fs n).free n

/-- The node moves into the place of its newest other name `a`. -/
def dropPrimary (n a : Id) (rest : List Id) : Store :=
  match fs.node a with
  | none => fs
  | some na =>
    let fs := fs.upd n fun r => { r with hn := rest, xl := r.xl - 1 }
    let fs := (fsDetach fs a).free a
    let fs := (fsDetach fs n).upd n fun r => { r with name := na.name }
    match na.parent with
    | none => fs
    | some dir => fsAttach fs dir n

def dropLast (n : Id) : Store :=
  let fs := fsDetach fs n
  if (fs.node n).any (0 < ·.refs) then fs.upd n fun r => { r with unlinked := true }
  else fs.free n

def fsDropName (n : Id) : Store :=
  match fs.node n with
  | none => fs
  | some nd =>
    match nd.hl, nd.hn with
    | some t, _ => dropExtra fs n t
    | none, a :: rest => dropPrimary fs n a rest
    | none, [] => dropLast fs n

def fsOpen (n : Id) : Store :=
  fs.upd n fun r => { r with refs := r.refs + 1 }

def fsRelease (n : Id) : Store :=
  let fs := fs.upd n fun r => { r with refs := r.refs - 1 }
  if (fs.node n).any fun r => r.refs == 0 && r.unlinked then fs.free n else fs

def moveTo (src dir : Id) (name : Name) : Store :=
  fsAttach ((fsDetach fs src).upd src fun c => { c with name := name.take (fsNameMax - 1) }) dir src

/-- The mount root above `n`; a climb over all nodes is long enough. -/
def fsOwner (n : Option Id) : Id :=
  match n with
  | none => fs.root
  | some n =>
    ((fs.forest.climb fs.fresh n).find? fun m =>
      (fs.node m).any fun r => r.mountId != 0 || r.parent.isNone).getD fs.root

def isAncestor (a n : Id) : Bool :=
  (fs.forest.climb fs.fresh n).contains a

end SamaraOS.Fs
