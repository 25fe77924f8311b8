import Mathlib

/-!
# Blocks of an ext2 volume (ext2.c)

The block bitmap with its allocator, block writes with the hashes that save them, and
`put_blocks`, which lays the contents of one entry out again.

The bitmap is a function of the place of a bit, `io` has the answers of the disk to the
coming writes.  A write that fails leaves the block as it was.
-/

namespace SamaraOS.Ext2

structure Geo where
  bs : Nat
  firstData : Nat
  nblocks : Nat
  bpg : Nat
  ngroups : Nat
  gdtBlocks : Nat
  /-- Inode table blocks per group. -/
  itb : Nat
  sparse : Bool
  /-- Block bitmap, inode bitmap and inode table of a group. -/
  mgdt : Nat → Nat × Nat × Nat
  bpg_pos : 0 < bpg

/-- The bitmap of a group fits in its block. -/
def Geo.Fits (g : Geo) : Prop := g.bpg ≤ 8 * g.bs

structure Vol where
  bbm : Nat → Bool
  gdirty : Nat → Bool := fun _ => false
  /-- Hash of what was last written to a block. -/
  bhash : Nat → UInt32 := fun _ => 0
  acur : Nat := 0
  disk : Nat → List UInt8 := fun _ => []
  /-- Which of the next writes fail. -/
  io : List Bool := []

/-- The blocks of an entry: `nb` data blocks, then `nm` indirect ones. -/
structure Ent where
  data : List Nat
  ind : List Nat
  ib : List Nat
  deriving DecidableEq, Repr

def Ent.bl (e : Ent) : List Nat := e.data ++ e.ind

def wr32 (n : Nat) : List UInt8 :=
  [UInt8.ofNat n, UInt8.ofNat (n / 2 ^ 8), UInt8.ofNat (n / 2 ^ 16), UInt8.ofNat (n / 2 ^ 24)]

def fnv (p : List UInt8) : UInt32 :=
  p.foldl (fun h b => (h ^^^ b.toUInt32) * 16777619) 2166136261 ||| 1

def padded (bs : Nat) (p : List UInt8) : List UInt8 := p ++ List.replicate (bs - p.length) 0

def pointers (bs : Nat) (bl : List Nat) : List UInt8 := padded bs (bl.flatMap wr32)

section

variable (g : Geo)

def powerFrom (k n : Nat) : Nat → Nat → Bool
  | 0, _ => false
  | fuel + 1, p => if n < p then false else p == n || powerFrom k n fuel (p * k)

def hasSuper (n : Nat) : Bool :=
  n ≤ 1 || !g.sparse || powerFrom 3 n n 3 || powerFrom 5 n n 5 || powerFrom 7 n n 7

def isMeta (b : Nat) : Bool :=
  if b ≤ g.firstData + g.gdtBlocks then true
  else
    let n := (b - g.firstData) / g.bpg
    if g.ngroups ≤ n then true
    else if hasSuper g n && b ≤ g.firstData + n * g.bpg + g.gdtBlocks then true
    else
      let gd := g.mgdt n
      b == gd.1 || b == gd.2.1 || (gd.2.2 ≤ b && b < gd.2.2 + g.itb)

def bit (b : Nat) : Nat :=
  let i := b - g.firstData
  i / g.bpg * (8 * g.bs) + i % g.bpg

variable (v : Vol)

def bbGet (b : Nat) : Bool := v.bbm (bit g b)

def bbSet (b : Nat) (on : Bool) : Vol :=
  if b < g.firstData ∨ g.nblocks ≤ b then v
  else if !on && isMeta g b then v
  else
    { v with
      bbm := Function.update v.bbm (bit g b) on
      gdirty := Function.update v.gdirty ((b - g.firstData) / g.bpg) true }

def byteFull (b : Nat) : Bool := (List.range 8).all fun k => v.bbm (bit g b / 8 * 8 + k)

def span : Nat := g.nblocks - g.firstData

def ballocFrom : Nat → Nat → Vol → Vol × Nat
  | 0, _, v => (v, 0)
  | fuel + 1, t, v =>
    if span g ≤ t then (v, 0)
    else
      let i := (v.acur + t) % span g
      let b := g.firstData + i
      if i % 8 = 0 ∧ i + 8 ≤ span g ∧ byteFull g v b then ballocFrom fuel (t + 8) v
      else if bbGet g v b then ballocFrom fuel (t + 1) v
      else
        let v := bbSet g v b true
        -- a metadata block was free in the bitmap
        if isMeta g b then ballocFrom fuel (t + 1) v
        else ({ v with acur := i + 1, bhash := Function.update v.bhash b 0 }, b)

def balloc : Vol × Nat := ballocFrom g (span g) 0 v

def ataWrite (b : Nat) (buf : List UInt8) : Vol × Bool :=
  if v.io.headD false then ({ v with io := v.io.tail }, false)
  else ({ v with io := v.io.tail, disk := Function.update v.disk b buf }, true)

def wblk (b : Nat) (buf : List UInt8) : Vol × Bool :=
  let h := fnv buf
  if v.bhash b = h then (v, true)
  else ataWrite { v with bhash := Function.update v.bhash b h } b buf

def wdata (b : Nat) (buf : List UInt8) : Vol × Bool :=
  if isMeta g b then (v, false) else wblk v b buf

def wdataAll : List (Nat × List UInt8) → Vol → Vol × Bool
  | [], v => (v, true)
  | (b, buf) :: ws, v =>
    let r := wdata g v b buf
    if r.2 then wdataAll ws r.1 else r

def per : Nat := g.bs / 4

def metaFor (nb : Nat) : Nat :=
  if nb ≤ 12 then 0
  else if nb ≤ 12 + per g then 1
  else 2 + (nb - 12 - per g + per g - 1) / per g

def relist (n : Nat) : List Nat → List Nat → Vol → Vol × List Nat
  | [], nl, v => (v, nl ++ List.replicate (n - nl.length) 0)
  | b :: bl, nl, v =>
    if b = 0 then relist n bl nl v
    else if nl.length < n then relist n bl (nl ++ [b]) v
    else relist n bl nl (bbSet g v b false)

def fillHoles : List Nat → Vol → Vol × List Nat × Bool
  | [], v => (v, [], true)
  | b :: bl, v =>
    if b ≠ 0 then
      let r := fillHoles bl v
      (r.1, b :: r.2.1, r.2.2)
    else
      let a := balloc g v
      if a.2 = 0 then (a.1, 0 :: bl, false)
      else
        let r := fillHoles bl a.1
        (r.1, a.2 :: r.2.1, r.2.2)

def Ent.ofList (nb : Nat) (bl ib : List Nat) : Ent := ⟨bl.take nb, bl.drop nb, ib⟩

def contents (data : List UInt8) (len i : Nat) : List UInt8 :=
  padded g.bs ((data.drop (i * g.bs)).take (min (len - i * g.bs) g.bs))

def pointed (e : Ent) (j : Nat) : List Nat :=
  if j = 0 then (e.data.drop 12).take (per g)
  else (e.data.drop (12 + per g + (j - 2) * per g)).take (per g)

def secondLevel (e : Ent) : List (Nat × List UInt8) :=
  (List.range (e.ind.length - 2)).map
      (fun j => (e.ind.getD (j + 2) 0, pointers g.bs (pointed g e (j + 2)))) ++
    [(e.ind.getD 1 0, pointers g.bs (e.ind.drop 2))]

def writeBlocks (e : Ent) (data : List UInt8) (len : Nat) : Vol × Ent × Bool :=
  let r := wdataAll g ((List.range e.data.length).map
    fun i => (e.data.getD i 0, contents g data len i)) v
  if !r.2 then (r.1, e, false)
  else
    let ib := e.data.take 12 ++ List.replicate (15 - (e.data.take 12).length) 0
    let e := { e with ib := ib }
    if e.ind.length = 0 then (r.1, e, true)
    else
      let e := { e with ib := e.ib.set 12 (e.ind.getD 0 0) }
      let r := wdata g r.1 (e.ind.getD 0 0) (pointers g.bs (pointed g e 0))
      if !r.2 then (r.1, e, false)
      else if e.ind.length = 1 then (r.1, e, true)
      else
        let e := { e with ib := e.ib.set 13 (e.ind.getD 1 0) }
        let r := wdataAll g (secondLevel g e) r.1
        (r.1, e, r.2)

def blocksFor (len : Nat) : Nat := (len + g.bs - 1) % 2 ^ 32 / g.bs

def putBlocks (e : Ent) (data : List UInt8) (len : Nat) (mem : Bool) : Vol × Ent × Bool :=
  let nb := blocksFor g len
  if 12 + per g + per g * per g < nb then (v, e, false)
  else
    let nm := metaFor g nb
    if nb = e.data.length ∧ nm = e.ind.length then go e v
    else if !mem then (v, e, false)
    else
      let r := relist g (nb + nm) e.bl [] v
      go (.ofList nb r.2 e.ib) r.1
where
  go (e : Ent) (v : Vol) : Vol × Ent × Bool :=
    let f := fillHoles g e.bl v
    let e := Ent.ofList e.data.length f.2.1 e.ib
    if !f.2.2 then (f.1, e, false) else writeBlocks g f.1 e data len

end

end SamaraOS.Ext2
