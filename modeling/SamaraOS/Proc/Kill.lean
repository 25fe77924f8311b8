import SamaraOS.Lib.Cut

/-!
# Signal 9 (`proc.c`, `ns.c`, `ptrace.c`)

`send_sig` with signal 9 tears the process down, `teardown` kills what is in the process's pid
namespace and what it traces with `PTRACE_O_EXITKILL`, and both do so through `send_sig`.  If the
process that runs all this is hit itself, `proc_exit` tears it down and does not come back, so
that everything that was going on stays as it is.
-/

namespace SamaraOS.Kill

structure Proc where
  tgid : Nat
  isThread : Bool
  /-- `P_ALIVE`; an entry that is not alive is a zombie, and a free one is not in the table. -/
  alive : Bool
  ppid : Nat
  /-- The group of the tracer, 0 if there is none. -/
  tracer : Nat
  exitKill : Bool
  kernelWaited : Bool
  pidns : Nat
  /-- Its number in its own pid namespace is 1. -/
  isInit : Bool
  deriving DecidableEq

structure State where
  procs : Nat → Option Proc
  /-- The pids in the order of their slots. -/
  order : List Nat
  /-- `nst[N_PID]`. -/
  nsParent : Nat → Nat
  nsLevel : Nat → Nat
  nextPid : Nat

inductive Stop where
  /-- `proc_exit` does not return. -/
  | gone
  /-- The calls are nested too deep for the model. -/
  | fuel
  deriving DecidableEq

abbrev M := EStateM Stop State Unit

def State.set (s : State) (q : Nat) (e : Option Proc) : State :=
  { s with procs := Function.update s.procs q e }

def State.alter (s : State) (q : Nat) (f : Proc → Option Proc) : State :=
  s.set q ((s.procs q).bind f)

def withProc (q : Nat) (f : Proc → M) : M :=
  look fun s => match s.procs q with
    | none => pure ()
    | some e => f e

def forAll (f : Nat → Proc → M) : M := look fun s => each (fun q => withProc q (f q)) s.order

def isAlive (s : State) (q : Nat) : Bool := (s.procs q).any fun e => e.alive

def inside (s : State) : Nat → Nat → Nat → Bool
  | 0, _, _ => false
  | n + 1, a, b => if a = 0 then false else if a = b then true else inside s n (s.nsParent a) b

def isInside (s : State) (a b : Nat) : Bool := inside s 4 a b

def leaderOf (s : State) (q : Nat) (e : Proc) : Nat :=
  if e.isThread then if (s.procs e.tgid).isSome then e.tgid else q else q

/-- `ns_exit`, with `kill` for `proc_send_signal` of 9. -/
def nsExit (kill : Nat → M) (e : Proc) : M :=
  onlyIf (e.pidns ≠ 0 ∧ e.isInit) <| forAll fun q d => look fun s =>
    onlyIf (d.tgid ≠ e.tgid ∧ d.alive ∧ isInside s d.pidns e.pidns) (kill q)

def threadKill (kill : Nat → M) (q : Nat) (e : Proc) : M := do
  nsExit kill e
  modify fun s => s.alter q fun e =>
    if e.tracer ≠ 0 ∧ (s.procs e.tracer).any fun t => t.alive && t.tgid ≠ e.tgid then
      some { e with alive := false }
    else none

def ptRelease (kill : Nat → M) (pid : Nat) : M :=
  forAll fun q d => onlyIf (d.tracer = pid) do
    modify fun s => s.alter q fun d => some { d with tracer := 0 }
    onlyIf d.exitKill (kill q)
    modify fun s => s.alter q fun d => some { d with exitKill := false }

def finish (pid : Nat) (s : State) : State :=
  let orphan := fun q => (s.procs q).bind fun d =>
    if d.ppid = pid then
      if d.alive = false ∧ d.kernelWaited = false then none else some { d with ppid := 0 }
    else some d
  { s with procs := fun q =>
      if q = pid then
        (orphan pid).bind fun e =>
          if e.kernelWaited = false ∧ ¬ (e.ppid ≠ 0 ∧ isAlive s e.ppid) ∧
              ¬ (e.tracer ≠ 0 ∧ isAlive s e.tracer) then none
          else some { e with alive := false }
      else orphan q }

/-- `send_sig` of 9 to `q` by a process of the group `cur`, with `down` for `teardown`.  The
leader of a group is there as long as one of its threads is. -/
def send9 (cur : Option Nat) (down : Nat → M) (q : Nat) : M :=
  withProc q fun e => onlyIf e.alive <|
    if cur = some e.tgid then do
      down e.tgid
      throw .gone
    else look fun s => down (leaderOf s q e)

def teardown (cur : Option Nat) : Nat → Nat → M
  | 0, _ => throw .fuel
  | n + 1, l =>
    withProc l fun e => do
      nsExit (send9 cur (teardown cur n)) e
      forAll fun q d => onlyIf (q ≠ l ∧ d.isThread ∧ d.tgid = l) <|
        threadKill (send9 cur (teardown cur n)) q d
      ptRelease (send9 cur (teardown cur n)) l
      modify (finish l)

def kill (fuel : Nat) (cur : Option Nat) (p : Nat) : M := send9 cur (teardown cur fuel) p

def after (fuel : Nat) (cur : Option Nat) (p : Nat) (s : State) : State :=
  finalState (kill fuel cur p s)

inductive Op where
  /-- `alloc_proc`, with the rest of the new entry. -/
  | create (e : Proc)
  | reap (q : Nat)
  | trace (q tracer : Nat) (exitKill : Bool)
  | kill (fuel : Nat) (cur : Option Nat) (q : Nat)

def step (s : State) : Op → State
  | .create e =>
    { s.set s.nextPid (some e) with order := s.order ++ [s.nextPid], nextPid := s.nextPid + 1 }
  | .reap q => s.alter q fun e => if e.alive then some e else none
  | .trace q tracer exitKill =>
    s.alter q fun e => some { e with tracer := tracer, exitKill := exitKill }
  | .kill fuel cur q => after fuel cur q s

def run (s : State) (ops : List Op) : State := ops.foldl step s

end SamaraOS.Kill
