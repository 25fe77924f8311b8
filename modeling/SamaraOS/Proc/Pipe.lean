import SamaraOS.Lib.Ring
import SamaraOS.Proc.FileData

/-!
# Pipes (file.c)

`pipe_read`, `pipe_write` and `pipe_tee` work in sections under the lock of a pipe, and
between two sections anything else may run.  A section is one step here.  What the bytes
put into a pipe and taken out of it were, and by which call, is recorded beside the pipes.

A `tee` that finds no memory returns before it takes the lock; that is left out, and so are
the wait queue (a call that sleeps just tries again later) and the totals for `SCM_RIGHTS`.
-/

namespace SamaraOS.Pipes

open Function

open File (Byte intOf)

def pipeSz : Nat := 65536

def pipeBuf : Nat := 4096

structure Pipe where
  buf : Nat → Byte
  head : Nat
  tail : Nat
  count : Nat
  readers : Nat
  writers : Nat

namespace Pipe

def front (p : Pipe) (k : Nat) : List Byte := Ring.slice p.buf p.tail k

def take (p : Pipe) (k : Nat) : Pipe :=
  { p with tail := (p.tail + k) % pipeSz, count := p.count - k }

def put (p : Pipe) (data : List Byte) : Pipe :=
  { p with
    buf := Ring.blit p.buf p.head data
    head := (p.head + data.length) % pipeSz
    count := p.count + data.length }

def content (p : Pipe) : List Byte := Ring.read p.buf pipeSz p.tail p.count

end Pipe

/-- A call with what it has done so far; `ret` is its result once it has returned. -/
inductive Call where
  | read (p n : Nat) (nonblock : Bool) (got : List Byte) (ret : Option Int)
  | write (p : Nat) (buf : List Byte) (nonblock : Bool) (put : Nat) (ret : Option Int)
  | tee (src dst len : Nat) (nonblock dstNonblock : Bool)
  /-- A `tee` that copied nothing. -/
  | teed (r : Int)
  deriving DecidableEq

inductive Move where
  | stay
  | took (p k : Nat)
  | put (p : Nat) (data : List Byte)

def writeCall (p : Nat) (buf : List Byte) (nonblock : Bool) : Call :=
  .write p buf nonblock 0 (if buf = [] then some 0 else none)

section

variable (intr : Bool)

def readTurn (p : Pipe) (i n : Nat) (nb : Bool) (got : List Byte) : Call × Move :=
  if p.count = 0 then
    if got ≠ [] ∨ p.writers = 0 then (.read i n nb got (some (intOf got.length)), .stay)
    else if nb then (.read i n nb got (some (-11)), .stay)
    else if intr then (.read i n nb got (some (-4)), .stay)
    else (.read i n nb got none, .stay)
  else
    let k := min (min (min (pipeSz - p.tail) p.count) (n - got.length)) 1024
    let got := got ++ p.front k
    (.read i n nb got (if n ≤ got.length then some (intOf got.length) else none), .took i k)

def writeTurn (p : Pipe) (i : Nat) (buf : List Byte) (nb : Bool) (put : Nat) : Call × Move :=
  let ends (r : Int) : Call × Move :=
    (.write i buf nb put (some (if put = 0 then r else intOf put)), .stay)
  if p.readers = 0 then ends (-32)
  else if p.count = pipeSz then
    if nb then ends (-11) else if intr then ends (-4) else (.write i buf nb put none, .stay)
  else
    let k := min (buf.length - put) 1024
    let c := min (min (pipeSz - p.head) (pipeSz - p.count)) k
    (.write i buf nb (put + c) (if put + c < buf.length then none else some (intOf (put + c))),
      .put i ((buf.drop put).take c))

def teeTurn (p : Pipe) (src dst len : Nat) (nb dnb : Bool) : Call × Move :=
  if p.count = 0 then
    if p.writers = 0 then (.teed 0, .stay)
    else if nb then (.teed (-11), .stay)
    else if intr then (.teed (-4), .stay)
    else (.tee src dst len nb dnb, .stay)
  else
    let k := min p.count (min len pipeSz)
    (writeCall dst (Ring.read p.buf pipeSz p.tail k) dnb, .stay)

def turn (pipes : Nat → Pipe) : Call → Call × Move
  | .read i n nb got none => readTurn intr (pipes i) i n nb got
  | .write i buf nb put none => writeTurn intr (pipes i) i buf nb put
  | .tee src dst len nb dnb => teeTurn intr (pipes src) src dst len nb dnb
  | call => (call, .stay)

end

abbrev Log := List (Nat × Byte)

structure Sys where
  pipes : Nat → Pipe
  calls : Nat → Option Call
  puts : Nat → Log
  takes : Nat → Log

def Sys.move (s : Sys) (id : Nat) : Move → Sys
  | .stay => s
  | .took i k =>
    { s with
      pipes := update s.pipes i ((s.pipes i).take k)
      takes := update s.takes i (s.takes i ++ ((s.pipes i).front k).map (id, ·)) }
  | .put i data =>
    { s with
      pipes := update s.pipes i ((s.pipes i).put data)
      puts := update s.puts i (s.puts i ++ data.map (id, ·)) }

inductive Event where
  | read (id p n : Nat) (nonblock : Bool)
  | write (id p : Nat) (buf : List Byte) (nonblock : Bool)
  | tee (id src dst len : Nat) (nonblock dstNonblock : Bool)
  /-- A section of a call, with a signal pending or not. -/
  | run (id : Nat) (intr : Bool)
  /-- Ends of a pipe are opened or closed. -/
  | ends (p readers writers : Nat)

def Sys.start (s : Sys) (id : Nat) (call : Call) : Sys :=
  if s.calls id = none then { s with calls := update s.calls id (some call) } else s

def next (s : Sys) : Event → Sys
  | .read id p n nb => s.start id (.read p n nb [] none)
  | .write id p buf nb => s.start id (writeCall p buf nb)
  | .tee id src dst len nb dnb => if src = dst then s else s.start id (.tee src dst len nb dnb)
  | .run id intr =>
    match s.calls id with
    | none => s
    | some call =>
      let t := turn intr s.pipes call
      let s := s.move id t.2
      { s with calls := update s.calls id (some t.1) }
  | .ends p readers writers =>
    { s with
      pipes := update s.pipes p
        { s.pipes p with readers := readers, writers := writers } }

def play (s : Sys) (events : List Event) : Sys := events.foldl next s

def boot : Sys :=
  { pipes := fun _ =>
      { buf := fun _ => 0, head := 0, tail := 0, count := 0, readers := 1, writers := 1 }
    calls := fun _ => none
    puts := fun _ => []
    takes := fun _ => [] }

end SamaraOS.Pipes
