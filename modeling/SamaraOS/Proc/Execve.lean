import SamaraOS.Lib.Frame

/-!
# `proc_execve` and the program loader (`proc.c`)

`load_program` builds a new address space and destroys it again if it fails.  What is written
into the new space is left out, only the ranges that it has are kept; `mem` has the answers of
the allocators to come.
-/

namespace SamaraOS.Execve

open Function

inductive Errno where
  | enoent | e2big | enoexec | eagain | enomem | eacces
  deriving DecidableEq, Repr

abbrev Bytes := List UInt8

structure Node where
  /-- The contents are still on the disk. -/
  onDisk : Bool
  isDir : Bool
  /-- `mode & 0111`. -/
  exec : Bool
  dev : Bool
  data : Bytes

structure Space where
  /-- Start and length of what is mapped. -/
  regions : List (UInt64 × UInt64)
  bytes : UInt64 → UInt8

structure Kernel where
  spaces : Nat → Option Space
  /-- The frame that the next new space gets; one in use is never handed out. -/
  nextPd : Nat
  mem : List Bool

structure Env where
  resolve : Bytes → Option Node
  resolveRoot : Bytes → Option Node
  fsPath : Node → Bytes
  findFree : Kernel → Nat → UInt64 → Option UInt64

abbrev K := EStateM Errno Kernel

def alloc : K Unit := fun k =>
  if k.mem.headD true then .ok () { k with mem := k.mem.tail }
  else .error .enomem { k with mem := k.mem.tail }

def takePd : K Nat := fun k =>
  if (k.spaces k.nextPd).isSome then .error .enomem k
  else
    .ok k.nextPd
      { k with
        spaces := update k.spaces k.nextPd (some ⟨[], fun _ => 0⟩)
        nextPd := k.nextPd + 1 }

def newSpace : K Nat := do
  alloc
  takePd

def mapAt (pd : Nat) (a len : UInt64) : K Unit := fun k =>
  .ok () { k with
    spaces := update k.spaces pd
      ((k.spaces pd).map fun sp => { sp with regions := (a, len) :: sp.regions }) }

/-- `vmm_alloc_range` and `pc_map`. -/
def addRegion (pd : Nat) (a len : UInt64) : K Unit := do
  alloc
  mapAt pd a len

def rangeUnmapped (k : Kernel) (pd : Nat) (a len : UInt64) : Bool :=
  (k.spaces pd).all fun sp => sp.regions.all fun r => r.1 + r.2 ≤ a || a + len ≤ r.1

def destroySpace (pd : Nat) (k : Kernel) : Kernel :=
  { k with spaces := update k.spaces pd none }

structure Args where
  argv : List Bytes
  envp : List Bytes

def argsMax : Nat := 128 * 1024

def addUp : Nat → List Nat → Option Nat
  | b, [] => some b
  | b, n :: ns => if argsMax < b + n then none else addUp (b + n) ns

def strBytes (s : Bytes) : Nat := s.length + 1

def kargsBuild (pre argv : List Bytes) (skip : Nat) (envp : List Bytes) : K Args :=
  let weights := (argv.take skip).map (fun _ => 0) ++ (argv.drop skip).map strBytes ++
    envp.map strBytes
  match addUp (pre.map strBytes).sum weights with
  | none => throwThe Errno .e2big
  | some _ => do
    alloc
    pure ⟨pre ++ argv.drop skip, envp⟩

def rd (d : Bytes) (off n : Nat) : UInt64 :=
  UInt64.ofNat (((d.drop off).take n).foldr (fun b acc => b.toNat + 256 * acc) 0)

structure Phdr where
  type : UInt64
  offset : UInt64
  vaddr : UInt64
  filesz : UInt64
  memsz : UInt64

def sizeOf (n : Node) : UInt64 := UInt64.ofNat n.data.length

def phdrs (n : Node) : List Phdr :=
  (List.range (rd n.data 56 2).toNat).map fun i =>
    let o := (rd n.data 32 8).toNat + i * 56
    ⟨rd n.data o 4, rd n.data (o + 8) 8, rd n.data (o + 16) 8, rd n.data (o + 32) 8,
      rd n.data (o + 40) 8⟩

def elfOk (n : Node) : Bool :=
  64 ≤ n.data.length && n.data.take 5 = [0x7F, 69, 76, 70, 2] && rd n.data 18 2 = 62 &&
    rd n.data 32 8 + rd n.data 56 2 * 56 ≤ sizeOf n &&
    (rd n.data 16 2 = 2 || rd n.data 16 2 = 3)

def cstr (s : Bytes) : Bytes := s.takeWhile (· ≠ 0)

def elfInterp (n : Node) : Option Bytes :=
  ((phdrs n).find? fun p => p.type = 3 && p.offset + p.filesz ≤ sizeOf n).map fun p =>
    (cstr (n.data.drop p.offset.toNat)).take 127

def userBase : UInt64 := 0x10000
def mmapBase : UInt64 := 0x7f0000000000
def stackTop : UInt64 := 0x7ffffffff000
def stackMax : UInt64 := 8 * 1024 * 1024
def pieBase : UInt64 := 0x555555554000

def pageDown (a : UInt64) : UInt64 := a &&& ~~~0xFFF
def pageUp (a : UInt64) : UInt64 := pageDown (a + 0xFFF)

def segCopy (pd : Nat) (x y : UInt64) : K Unit :=
  if y ≤ x then pure () else addRegion pd x (y - x)

def loadSeg (pd : Nat) (p : Phdr) (va : UInt64) : K Unit := fun k =>
  let s := pageDown va
  let e := pageUp (va + p.memsz)
  let cs := pageUp va
  let ce := pageDown (va + p.filesz)
  let cut : Bool := (p.offset ^^^ va) &&& 0xFFF ≠ 0 || ce ≤ cs || !rangeUnmapped k pd cs (ce - cs)
  let cs := if cut then s else cs
  let ce := if cut then s else ce
  (do
    segCopy pd s cs
    segCopy pd cs ce
    segCopy pd ce e : K Unit) k

def loadSegs (pd : Nat) (size bias lim : UInt64) : List Phdr → UInt64 → K UInt64
  | [], top => pure top
  | p :: ps, top =>
    let va := p.vaddr + bias
    if p.type ≠ 1 ∨ p.memsz = 0 then loadSegs pd size bias lim ps top
    else if va < userBase ∨ lim < va + p.memsz ∨ p.memsz < p.filesz ∨ size < p.offset + p.filesz then
      throwThe Errno .enoexec
    else do
      loadSeg pd p va
      loadSegs pd size bias lim ps (if top < va + p.memsz then va + p.memsz else top)

structure Image where
  entry : UInt64
  brk : UInt64

def loadElf (pd : Nat) (n : Node) (bias : UInt64) : K Image :=
  let lim := if mmapBase ≤ bias then stackTop - stackMax else mmapBase
  let bias := if rd n.data 16 2 = 3 then bias else 0
  do
    let top ← loadSegs pd (sizeOf n) bias lim (phdrs n) 0
    pure ⟨rd n.data 24 8 + bias, pageUp top⟩

variable (env : Env)

def blank (b : UInt8) : Bool := b = 32 || b = 9

def scriptLine (d : Bytes) : Bytes × Bytes :=
  let d := (d.drop 2).dropWhile blank
  let interp := (d.takeWhile fun b => !blank b && b ≠ 10).take 127
  let rest := (d.drop interp.length).dropWhile blank
  let arg := (rest.takeWhile (· ≠ 10)).take 127
  (cstr interp, cstr (arg.reverse.dropWhile fun b => blank b || b = 13).reverse)

def findProgram : Nat → Bytes → Args → K (Node × Args)
  | depth, cur, a =>
    match env.resolve cur with
    | none => throwThe Errno .enoent
    | some n =>
      if n.onDisk then throwThe Errno .enomem
      else if n.isDir then throwThe Errno .eacces
      else if !n.exec || n.dev then throwThe Errno .eacces
      else if n.data.take 2 = [35, 33] then
        match depth with
        | 0 => throwThe Errno .enoexec
        | depth + 1 =>
          let l := scriptLine n.data
          if l.1 = [] then throwThe Errno .enoexec
          else do
            let b ← kargsBuild (if l.2 = [] then [l.1, cur] else [l.1, l.2, cur]) a.argv 1 a.envp
            findProgram depth l.1 b
      else pure (n, a)

def loadAbove (pd : Nat) (n : Node) (span : UInt64) : K UInt64 := fun k =>
  match env.findFree k pd span with
  | none => .error .enomem k
  | some b => (do
      let i ← loadElf pd n b
      pure i.entry : K UInt64) k

def loadInterp (pd : Nat) (path : Bytes) : K UInt64 :=
  match env.resolveRoot path with
  | none => throwThe Errno .enoent
  | some n =>
    if n.onDisk then throwThe Errno .enomem
    else if n.isDir || !elfOk n || (elfInterp n).isSome then throwThe Errno .enoent
    else
      let span := ((phdrs n).filter (·.type = 1)).foldl
        (fun m p => if m < p.vaddr + p.memsz then p.vaddr + p.memsz else m) 0
      loadAbove env pd n (pageUp span)

def startOf (pd : Nat) (n : Node) (img : Image) : K UInt64 :=
  match elfInterp n with
  | none => pure img.entry
  | some ip => loadInterp env pd ip

def stackLimit : Nat := 192 * 1024

def buildStack (pd : Nat) (a : Args) : K Unit :=
  let strs := (a.argv.map strBytes).sum + (a.envp.map strBytes).sum + 7 + 16
  let words := 1 + a.argv.length + 1 + a.envp.length + 1 + 17 * 2
  let total := ((strs + 15) / 16 * 16 + words * 8 + 16 + 15) / 16 * 16
  if stackLimit < total then throwThe Errno .e2big
  else
    let map := pageUp (UInt64.ofNat total + 64 * 1024)
    do
      addRegion pd (stackTop - map) map
      -- the buffer, and the copy of it
      alloc
      alloc

def fillSpace (pd : Nat) (n : Node) (a : Args) : K (UInt64 × UInt64) := do
  let img ← loadElf pd n pieBase
  let start ← startOf env pd n img
  buildStack pd a
  pure (start, img.brk)

structure Program where
  pd : Nat
  start : UInt64
  brk : UInt64
  exe : Bytes

def inNewSpace (n : Node) (a : Args) (pd : Nat) : K Program := fun k =>
  match fillSpace env pd n a k with
  | .ok r k => .ok ⟨pd, r.1, r.2, env.fsPath n⟩ k
  | .error e k => .error e (destroySpace pd k)

def loadProgram (path : Bytes) (a : Args) : K Program := do
  let na ← findProgram env 2 (path.take 255) a
  if elfOk na.1 then do
    let pd ← newSpace
    inNewSpace env na.1 na.2 pd
  else throwThe Errno .enoexec

structure Sigaction where
  handler : UInt64
  flags : UInt32
  mask : UInt64
  deriving DecidableEq

/-- Another process that ends with a thread. -/
structure Fallen where
  pid : Nat
  /-- Its parent is the caller. -/
  child : Bool := false
  /-- The caller runs in its space. -/
  lends : Bool := false
  /-- The words that its threads clear in the space of the caller. -/
  clears : List UInt64 := []
  deriving DecidableEq

structure Thread where
  zombie : Bool
  /-- A living tracer of another group, which will wait for the thread. -/
  tracer : Option Nat
  clearTid : Option UInt64
  /-- Whom `ns_exit` ends with it: where the thread is the init of a pid namespace those inside, and
  who ends with them.  If the caller is one of them, the call does not return. -/
  falls : List Fallen := []
  deriving DecidableEq

structure Proc where
  isThread : Bool
  threads : List Thread
  pd : Nat
  vforkShared : Bool
  brkStart : UInt64
  brk : UInt64
  tlsBase : UInt64
  gsBase : UInt64
  name : Bytes
  exe : Bytes
  cmdline : Bytes
  sa : Nat → Sigaction
  pending : UInt64
  mask : UInt64
  ssSp : UInt64
  ssSize : UInt64
  fds : Nat → Option Nat
  cloexec : Nat → Bool

def zeroWord (b : UInt64 → UInt8) (a : UInt64) : UInt64 → UInt8 :=
  fun x => if x - a < 4 then 0 else b x

def Thread.words (t : Thread) : List UInt64 := t.falls.flatMap Fallen.clears ++ t.clearTid.toList

def Proc.words (p : Proc) : List UInt64 := p.threads.flatMap Thread.words

def Proc.falls (p : Proc) : List Fallen := p.threads.flatMap Thread.falls

/-- `pt_release` for the fallen. -/
def Thread.untrace (gone : List Fallen) (t : Thread) : Thread :=
  if gone.any fun f => t.tracer = some f.pid then { t with tracer := none } else t

def Thread.killed (t : Thread) : Option Thread :=
  if t.tracer.isSome then some { t with zombie := true } else none

/-- The loop over the threads, when `gone` have fallen. -/
def killFrom : List Fallen → List Thread → List Thread
  | _, [] => []
  | gone, t :: ts =>
    (t.untrace (gone ++ t.falls)).killed.toList ++ killFrom (gone ++ t.falls) ts

def sigchld : UInt64 := 0x10000

def Proc.hears (p : Proc) : Bool := 1 < (p.sa 17).handler || p.mask &&& sigchld ≠ 0

/-- What `teardown` of the fallen does to the caller. -/
def Proc.bereave (p : Proc) (gone : List Fallen) : Proc :=
  { p with
    threads := p.threads.map (Thread.untrace gone)
    vforkShared := p.vforkShared && !gone.any Fallen.lends
    pending := if gone.any Fallen.child && p.hears then p.pending ||| sigchld else p.pending }

def killThreads (k : Kernel) (p : Proc) : Kernel × Proc :=
  ({ k with
      spaces := update k.spaces p.pd ((k.spaces p.pd).map fun sp =>
        { sp with bytes := p.words.foldl zeroWord sp.bytes }) },
    Proc.bereave { p with threads := killFrom [] p.threads } p.falls)

def baseFrom (base : Bytes) : Bytes → Bytes
  | [] => base
  | b :: bs => baseFrom (if b = 47 ∧ bs ≠ [] then bs else base) bs

def cmdlineOf (cap : Nat) : List Bytes → Bytes
  | [] => []
  | s :: ss => if cap < strBytes s then [] else s ++ 0 :: cmdlineOf (cap - strBytes s) ss

def become (k : Kernel) (p : Proc) (path : Bytes) (a : Args) (g : Program) : Kernel × Proc :=
  (if p.vforkShared then k else destroySpace p.pd k,
    { p with
      pd := g.pd
      vforkShared := false
      brkStart := g.brk
      brk := g.brk
      tlsBase := 0
      gsBase := 0
      name := (baseFrom path path).take 31
      exe := g.exe
      cmdline := cmdlineOf 256 a.argv
      sa := fun i => if 1 < (p.sa i).handler then ⟨0, 0, 0⟩ else p.sa i
      pending := 0
      ssSp := 0
      ssSize := 0
      fds := fun i => if p.cloexec i then none else p.fds i
      cloexec := fun _ => false })

def procSelfExe : Bytes := "/proc/self/exe".toUTF8.toList

def prepare (path : Bytes) (p : Proc) (argv envp : List Bytes) : K (Args × Program) := do
  let a ← kargsBuild [] argv 0 envp
  let g ← loadProgram env (if path = procSelfExe then p.exe else path) a
  pure (a, g)

def procExecve (k : Kernel) (p : Proc) (path : Bytes) (argv envp : List Bytes) :
    Kernel × Proc × Except Errno Unit :=
  if p.isThread then (k, p, .error .eagain)
  else
    let path := path.take 255
    let kp := killThreads k p
    match prepare env path kp.2 argv envp kp.1 with
    | .error e k => (k, kp.2, .error e)
    | .ok (a, g) k =>
      let r := become k kp.2 (if path = procSelfExe then p.exe else path) a g
      (r.1, r.2, .ok ())

end SamaraOS.Execve
