import SamaraOS.Fs.Ext2Blocks

/-!
# The entry table of an ext2 volume (ext2.c)

Mount makes an entry for every inode that it meets, `sync_vol` makes entries for new nodes,
frees those of nodes that are gone and lays the others out again.  What the tree looks like
when a sync runs is an argument: which nodes are new or gone, and what is to be done for
every entry.
-/

namespace SamaraOS.Ext2

/-- The geometry of a consistent volume. -/
structure Super extends Geo where
  ninodes : Nat
  firstIno : Nat
  fits : toGeo.Fits

structure Entry where
  ino : Nat
  ent : Ent
  /-- The entry has a node. -/
  node : Bool
  deriving DecidableEq, Repr

structure Table where
  vol : Vol
  ibm : Nat → Bool
  icur : Nat := 0
  ents : List Entry := []

section

variable (g : Super)

def iallocFrom : Nat → Nat → Table → Table × Nat
  | 0, _, T => (T, 0)
  | fuel + 1, t, T =>
    let ino := g.firstIno + (T.icur + t) % (g.ninodes - g.firstIno + 1)
    if T.ibm ino then iallocFrom fuel (t + 1) T
    else ({ T with ibm := Function.update T.ibm ino true, icur := ino - g.firstIno + 1 }, ino)

def ialloc (T : Table) : Table × Nat := iallocFrom g g.ninodes 0 T

def freeBlocks (v : Vol) (e : Ent) : Vol :=
  (e.bl.filter (· ≠ 0)).foldl (fun v b => bbSet g.toGeo v b false) v

def Ent.empty : Ent := ⟨[], [], List.replicate 15 0⟩

structure Name where
  ino : Nat
  /-- The tree takes the name over. -/
  taken : Bool
  /-- A file or link whose inode has several names. -/
  several : Bool
  /-- A link over a directory that boot made in the root: the directory gives way. -/
  replaces : Bool
  deriving DecidableEq, Repr

def loadName (img : Nat → Ent) (T : Table) (nm : Name) : Table :=
  if nm.taken then
    if nm.several && !nm.replaces && T.ents.any (fun x => x.ino = nm.ino && x.node) then T
    else { T with ents := T.ents ++ [⟨nm.ino, img nm.ino, true⟩] }
  else if T.ents.any fun x => x.ino = nm.ino then T
  else { T with ents := T.ents ++ [⟨nm.ino, img nm.ino, false⟩] }

def load (img : Nat → Ent) (T : Table) (names : List Name) : Table :=
  names.foldl (loadName img) T

def newEntry (T : Table) (mem : Bool) : Table :=
  let r := ialloc g T
  if r.2 = 0 then r.1
  else if mem then { r.1 with ents := r.1.ents ++ [⟨r.2, .empty, true⟩] }
  else r.1

def sweepFrom : List Entry → List Bool → List Entry → Table → Table
  | [], _, kept, T => { T with ents := kept }
  | x :: todo, gone, kept, T =>
    if gone.headD false || !x.node then
      sweepFrom todo gone.tail kept
        { T with
          vol := freeBlocks g T.vol x.ent
          ibm := if g.firstIno ≤ x.ino then Function.update T.ibm x.ino false else T.ibm }
    else sweepFrom todo gone.tail (kept ++ [x]) T

inductive Action where
  | keep
  | put (data : List UInt8) (len : Nat) (mem : Bool)
  /-- A link that fits into the inode. -/
  | inline (ib : List Nat)

def act (v : Vol) (e : Ent) : Action → Vol × Ent
  | .keep => (v, e)
  | .put data len mem =>
    let r := putBlocks g.toGeo v e data len mem
    (r.1, r.2.1)
  | .inline ib => (freeBlocks g v e, ⟨[], [], ib⟩)

def putsFrom : List Entry → List Action → List Entry → Table → Table
  | [], _, done, T => { T with ents := done }
  | x :: todo, actions, done, T =>
    let r := act g T.vol x.ent (actions.headD .keep)
    putsFrom todo actions.tail (done ++ [{ x with ent := r.2 }]) { T with vol := r.1 }

structure Changes where
  new : List Bool
  gone : List Bool
  actions : List Action
  io : List Bool

def syncTable (T : Table) (c : Changes) : Table :=
  let T := { T with vol := { T.vol with io := c.io } }
  let T := c.new.foldl (newEntry g) T
  let T := sweepFrom g T.ents c.gone [] T
  putsFrom g T.ents c.actions [] T

def syncs (T : Table) (cs : List Changes) : Table := cs.foldl (syncTable g) T

end

end SamaraOS.Ext2
