import SamaraOS.Lib.Ledger

/-!
# Descriptors in flight (syscall.c, file.c)

`sendmsg` with `SCM_RIGHTS` puts references to open files into a queue of the pipe that it
writes to, and `recvmsg` takes them out and installs them.  Every reference that `sendmsg`
takes gets a number; `fates` has it once for every time that it is installed or closed.

`kfree` of a pipe forgets what is in its queue, and a reference stored in a pipe that was
freed is lost.  Bytes are counted, not stored.  A read or write that would sleep returns an
error.
-/

namespace SamaraOS.Rights

def maxFds : Nat := 1024

def pipeSz : Nat := 65536

structure Ref where
  token : Nat
  file : Nat
  /-- The stream offset that the reference was sent at. -/
  fpos : Nat
  deriving DecidableEq, Repr

structure Pipe where
  fds : List Ref := []
  rtot : Nat := 0
  wtot : Nat := 0
  readers : Int := 1
  writers : Int := 1
  gone : Bool := false
  deriving DecidableEq, Repr

inductive Kind where
  | plain
  /-- One end of a pair: it reads from `pipe` and writes to `pipe2`. -/
  | spair (pipe pipe2 : Nat)
  deriving DecidableEq, Repr

structure File where
  refs : Int
  kind : Kind
  shutRd : Bool := false
  shutWr : Bool := false
  deriving DecidableEq, Repr

inductive Slip where
  /-- The table was full: `install_fd` has closed the file, and `recvmsg` closes it again. -/
  | closedTwice (token : Nat)
  /-- A pipe is freed with references in its queue. -/
  | freedWith (fds : List Ref)
  /-- A reference goes into a pipe that was freed. -/
  | lost (token : Nat)
  deriving DecidableEq, Repr

structure Sys where
  files : List File := []
  pipes : List Pipe := []
  tables : Nat → Nat → Option Nat := fun _ _ => none
  limit : Nat → Nat := fun _ => maxFds
  issued : Nat := 0
  fates : List Nat := []
  slips : List Slip := []

namespace Sys

variable (s : Sys)

def file (f : Nat) : File := s.files.getD f { refs := 0, kind := .plain }

def pipe (p : Nat) : Pipe := s.pipes.getD p { gone := true }

def setFile (f : Nat) (x : File) : Sys := { s with files := s.files.set f x }

def setPipe (p : Nat) (x : Pipe) : Sys := { s with pipes := s.pipes.set p x }

def setSlot (proc fd : Nat) (f : Option Nat) : Sys :=
  { s with tables := fun i j => if i = proc ∧ j = fd then f else s.tables i j }

end Sys

section

variable (s : Sys)

def fileRef (f : Nat) : Sys := s.setFile f { s.file f with refs := (s.file f).refs + 1 }

def pipeEnd (p : Nat) (dr dw : Int) : Sys :=
  let q := s.pipe p
  s.setPipe p { q with readers := q.readers + dr, writers := q.writers + dw }

def shutRd (f p : Nat) : Sys :=
  let x := s.file f
  if x.shutRd then s else pipeEnd (s.setFile f { x with shutRd := true }) p (-1) 0

def shutWr (f p : Nat) : Sys :=
  let x := s.file f
  if x.shutWr then s else pipeEnd (s.setFile f { x with shutWr := true }) p 0 (-1)

/-- `how`: 0 for reading, 1 for writing, 2 for both. -/
def spairShutdown (f how : Nat) : Sys :=
  match (s.file f).kind with
  | .plain => s
  | .spair p p2 =>
    let s := if how = 0 ∨ how = 2 then shutRd s f p else s
    if how = 1 ∨ how = 2 then shutWr s f p2 else s

def freePipe (p : Nat) : Sys :=
  let q := s.pipe p
  if q.readers ≤ 0 ∧ q.writers ≤ 0 ∧ q.gone = false then
    let s := if q.fds = [] then s else { s with slips := s.slips ++ [.freedWith q.fds] }
    s.setPipe p { q with fds := [], gone := true }
  else s

def fileClose (f : Nat) : Sys :=
  let x := s.file f
  let s := s.setFile f { x with refs := x.refs - 1 }
  if 0 < x.refs - 1 then s
  else
    match x.kind with
    | .plain => s
    | .spair p p2 => freePipe (freePipe (spairShutdown s f 2) p) p2

def allocFd (proc : Nat) : Option Nat :=
  (List.range (min (s.limit proc) maxFds)).find? fun fd => (s.tables proc fd).isNone

def installFd (proc f : Nat) : Sys × Option Nat :=
  match allocFd s proc with
  | some fd => (s.setSlot proc fd (some f), some fd)
  | none => (fileClose s f, none)

def queueRef (p x : Nat) : Sys :=
  let t := s.issued
  let s := fileRef { s with issued := t + 1 } x
  let q := s.pipe p
  if q.gone then { s with slips := s.slips ++ [.lost t] }
  else if q.fds.length < 32 then s.setPipe p { q with fds := q.fds ++ [⟨t, x, q.wtot⟩] }
  else fileClose { s with fates := s.fates ++ [t] } x

def queueAll (proc p : Nat) (fds : List Nat) : Sys :=
  fds.foldl (fun s fd =>
    match s.tables proc fd with
    | none => s
    | some x => queueRef s p x) s

def sendBytes (f p n : Nat) : Sys :=
  let q := s.pipe p
  if (s.file f).shutWr ∨ q.readers ≤ 0 then s
  else s.setPipe p { q with wtot := q.wtot + min n (pipeSz - (q.wtot - q.rtot)) }

def sendmsg (proc fd : Nat) (fds : List Nat) (n : Nat) : Sys :=
  match s.tables proc fd with
  | none => s
  | some f =>
    match (s.file f).kind with
    | .plain => s
    | .spair _ p => sendBytes (queueAll s proc p fds) f p n

def installRef (proc : Nat) (r : Ref) : Sys × Bool :=
  match installFd { s with fates := s.fates ++ [r.token] } proc r.file with
  | (s, some _) => (s, true)
  | (s, none) =>
    let s := { s with fates := s.fates ++ [r.token], slips := s.slips ++ [.closedTwice r.token] }
    (fileClose s r.file, false)

def takeRefs (proc p room : Nat) : Nat → Nat → Sys → Sys
  | 0, _, s => s
  | fuel + 1, k, s =>
    match (s.pipe p).fds with
    | [] => s
    | r :: rest =>
      if r.fpos < (s.pipe p).rtot ∧ 16 + (k + 1) * 4 ≤ room then
        let t := installRef (s.setPipe p { s.pipe p with fds := rest }) proc r
        takeRefs proc p room fuel (if t.2 then k + 1 else k) t.1
      else s

def recvmsg (proc fd n room : Nat) : Sys :=
  match s.tables proc fd with
  | none => s
  | some f =>
    match (s.file f).kind with
    | .plain => s
    | .spair p _ =>
      let q := s.pipe p
      let count := q.wtot - q.rtot
      if (s.file f).shutRd = false ∧ 0 < n ∧ count = 0 ∧ 0 < q.writers then s
      else
        let got := if (s.file f).shutRd then 0 else min n count
        let s := s.setPipe p { q with rtot := q.rtot + got }
        if room < 16 then s else takeRefs proc p room 32 0 s

/-- `open`: a new file in the table. -/
def openFile (proc : Nat) : Sys :=
  let f := s.files.length
  (installFd { s with files := s.files ++ [{ refs := 1, kind := .plain }] } proc f).1

def spairCreate : Sys :=
  let p := s.pipes.length
  { s with
    pipes := s.pipes ++ [{}, {}]
    files := s.files ++
      [{ refs := 1, kind := .spair p (p + 1) }, { refs := 1, kind := .spair (p + 1) p }] }

def doSocketpair (proc : Nat) : Sys :=
  let x := s.files.length
  let y := x + 1
  match installFd (spairCreate s) proc x with
  | (s, none) => fileClose s y
  | (s, some a) =>
    match installFd s proc y with
    | (s, none) => fileClose (s.setSlot proc a none) x
    | (s, some _) => s

def close (proc fd : Nat) : Sys :=
  match s.tables proc fd with
  | none => s
  | some f => fileClose (s.setSlot proc fd none) f

def dup (proc fd dst : Nat) : Sys :=
  match s.tables proc fd with
  | none => s
  | some f => (installFd (fileRef s f) dst f).1

def shutdown (proc fd how : Nat) : Sys :=
  match s.tables proc fd with
  | none => s
  | some f => spairShutdown s f how

end

inductive Event where
  | openFile (proc : Nat)
  | socketpair (proc : Nat)
  | dup (proc fd dst : Nat)
  | close (proc fd : Nat)
  | shutdown (proc fd how : Nat)
  | setrlimit (proc n : Nat)
  | sendmsg (proc fd : Nat) (fds : List Nat) (n : Nat)
  | recvmsg (proc fd n room : Nat)

def next (s : Sys) : Event → Sys
  | .openFile proc => openFile s proc
  | .socketpair proc => doSocketpair s proc
  | .dup proc fd dst => dup s proc fd dst
  | .close proc fd => close s proc fd
  | .shutdown proc fd how => shutdown s proc fd how
  | .setrlimit proc n => { s with limit := Function.update s.limit proc n }
  | .sendmsg proc fd fds n => sendmsg s proc fd fds n
  | .recvmsg proc fd n room => recvmsg s proc fd n room

def play (s : Sys) (events : List Event) : Sys := events.foldl next s

def boot : Sys := {}

end SamaraOS.Rights
