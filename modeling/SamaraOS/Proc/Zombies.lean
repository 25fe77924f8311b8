import Mathlib

/-!
# The process table and who reaps whom (`proc.c`, `ptrace.c`)

The table is indexed by pid; pids are not used again.  `teardown` is cut into the steps that it
takes one after the other, since the kills of `ns_exit` and `pt_release` run the teardown of other
processes in between.
-/

namespace SamaraOS.Zombies

structure Proc where
  tgid : Nat
  ppid : Nat
  isThread : Bool
  /-- The process that traces this one, or 0. -/
  tracer : Nat
  kernelWaited : Bool
  zombie : Bool
  deriving DecidableEq

structure Table where
  procs : Nat → Option Proc
  nextPid : Nat

def boot : Table := ⟨fun _ => none, 1⟩

def alive (t : Table) (pid : Nat) : Bool := (t.procs pid).any fun e => !e.zombie

def Table.mapProcs (t : Table) (f : Nat → Proc → Option Proc) : Table :=
  { t with procs := fun q => (t.procs q).bind (f q) }

def Table.modify (t : Table) (pid : Nat) (f : Proc → Option Proc) : Table :=
  t.mapProcs fun q e => if q = pid then f e else some e

def Table.add (t : Table) (e : Proc) : Table :=
  ⟨Function.update t.procs t.nextPid (some e), t.nextPid + 1⟩

def spawn (t : Table) (detached : Bool) : Table :=
  t.add ⟨t.nextPid, 0, false, 0, !detached, false⟩

def fork (t : Table) (pid : Nat) (follow : Bool) : Table :=
  match t.procs pid with
  | some p =>
    if p.zombie then t
    else t.add ⟨t.nextPid, p.tgid, false, if follow then p.tracer else 0, false, false⟩
  | none => t

def cloneThread (t : Table) (pid : Nat) (follow : Bool) : Table :=
  match t.procs pid with
  | some p =>
    if p.zombie then t
    else t.add ⟨p.tgid, 0, true, if follow then p.tracer else 0, false, false⟩
  | none => t

def threadKilled (t : Table) (e : Proc) : Option Proc :=
  if (t.procs e.tracer).any fun tr => !tr.zombie && tr.tgid ≠ e.tgid then
    some { e with zombie := true }
  else none

def threadKill (t : Table) (pid : Nat) : Table :=
  t.modify pid fun e => if e.isThread then threadKilled t e else some e

def killThreads (t : Table) (pid : Nat) : Table :=
  t.mapProcs fun _ e => if e.isThread && e.tgid = pid then threadKilled t e else some e

def release (t : Table) (pid q : Nat) : Table :=
  t.modify q fun e => some (if e.tracer = pid then { e with tracer := 0 } else e)

def orphans (t : Table) (pid : Nat) : Table :=
  t.mapProcs fun _ e =>
    if e.ppid = pid then
      if e.zombie && !e.kernelWaited then none else some { e with ppid := 0 }
    else some e

def freeOrZombify (t : Table) (pid : Nat) : Table :=
  t.modify pid fun e =>
    if !e.kernelWaited && !(e.ppid ≠ 0 && alive t e.ppid) && !(e.tracer ≠ 0 && alive t e.tracer) then
      none
    else some { e with zombie := true }

def wait (t : Table) (me pid : Nat) : Table :=
  t.modify pid fun e =>
    if !e.zombie then some e
    else if e.ppid = me && !e.isThread then none
    else if e.tracer = me then
      if e.isThread || !(e.ppid ≠ 0 && alive t e.ppid) then none else some { e with tracer := 0 }
    else some e

def procReap (t : Table) (pid : Nat) : Table :=
  t.modify pid fun e => if e.zombie then none else some e

def procDetach (t : Table) (pid : Nat) : Table :=
  t.modify pid fun e =>
    if e.zombie then if e.kernelWaited then none else some e
    else some { e with kernelWaited := false }

def traceme (t : Table) (pid : Nat) : Table :=
  t.modify pid fun e =>
    match t.procs e.ppid with
    | some par =>
      if e.zombie || e.tracer ≠ 0 || e.ppid = 0 then some e else some { e with tracer := par.tgid }
    | none => some e

/-- `PTRACE_ATTACH` and `PTRACE_SEIZE` by the process of `me`. -/
def attach (t : Table) (me pid : Nat) : Table :=
  match t.procs me with
  | some m =>
    if m.zombie then t
    else t.modify pid fun e =>
      if e.zombie || e.tracer ≠ 0 || e.tgid = m.tgid then some e else some { e with tracer := m.tgid }
  | none => t

def detach (t : Table) (me pid : Nat) : Table :=
  t.modify pid fun e =>
    if e.zombie || e.tracer ≠ me then some e else some { e with tracer := 0 }

inductive Op where
  | spawn (detached : Bool)
  | fork (pid : Nat) (follow : Bool)
  | cloneThread (pid : Nat) (follow : Bool)
  | threadKill (pid : Nat)
  | killThreads (pid : Nat)
  | release (pid q : Nat)
  | orphans (pid : Nat)
  | finish (pid : Nat)
  | wait (me pid : Nat)
  | procReap (pid : Nat)
  | procDetach (pid : Nat)
  | traceme (pid : Nat)
  | attach (me pid : Nat)
  | detach (me pid : Nat)

def step (t : Table) : Op → Table
  | .spawn detached => Zombies.spawn t detached
  | .fork pid follow => Zombies.fork t pid follow
  | .cloneThread pid follow => Zombies.cloneThread t pid follow
  | .threadKill pid => Zombies.threadKill t pid
  | .killThreads pid => Zombies.killThreads t pid
  | .release pid q => Zombies.release t pid q
  | .orphans pid => Zombies.orphans t pid
  | .finish pid => freeOrZombify t pid
  | .wait me pid => Zombies.wait t me pid
  | .procReap pid => Zombies.procReap t pid
  | .procDetach pid => Zombies.procDetach t pid
  | .traceme pid => Zombies.traceme t pid
  | .attach me pid => Zombies.attach t me pid
  | .detach me pid => Zombies.detach t me pid

/-- `free_or_zombify` comes last in `teardown`: the threads are gone, and nobody has the process
as tracer or parent. -/
def Ready (t : Table) (pid : Nat) : Prop :=
  ∀ q e, t.procs q = some e →
    ¬ (e.isThread ∧ e.tgid = pid ∧ e.zombie = false) ∧ e.tracer ≠ pid ∧ e.ppid ≠ pid

/-- The order of the steps of `teardown`; the rest can come at any time. -/
def Enabled (t : Table) : Op → Prop
  | .orphans pid => pid ≠ 0
  | .finish pid => Ready t pid
  | _ => True

def run (t : Table) (ops : List Op) : Table := ops.foldl step t

def teardown (t : Table) (pid : Nat) : List Op :=
  [.killThreads pid] ++ (List.range t.nextPid).map (.release pid ·) ++ [.orphans pid, .finish pid]

end SamaraOS.Zombies
