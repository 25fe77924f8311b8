import Mathlib

/-!
# Signals of a process (`proc.c`, `signal.c`)

There is no set of pending signals for a process: `send_sig` parks a signal for the process on
one of its threads.  A group here is one process with its live threads, in the order of their
slots.  `SIGBIT(sig)` is bit `sig - 1`.
-/

namespace SamaraOS.Signals

inductive Errno where
  | esrch | einval | eagain
  deriving DecidableEq, Repr

abbrev SigSet := BitVec 64

def sigBit (sig : Nat) : SigSet := BitVec.twoPow 64 (sig - 1)

def has (s : SigSet) (sig : Nat) : Bool := s.getLsbD (sig - 1)

def unblockable : SigSet := sigBit 9 ||| sigBit 19

def nsigMax : Nat := 65

structure Sa where
  handler : UInt64
  /-- `SA_NODEFER`. -/
  noDefer : Bool
  /-- `SA_RESETHAND`. -/
  resetHand : Bool
  mask : SigSet

structure Thread where
  pid : Nat
  isThread : Bool
  /-- A leader that has left while threads go on. -/
  zleader : Bool
  traced : Bool
  mask : SigSet
  pending : SigSet
  deriving DecidableEq

structure Group where
  sa : Nat → Sa
  threads : List Thread
  /-- The process is gone. -/
  dead : Bool

def Group.thread? (g : Group) (pid : Nat) : Option Thread := g.threads.find? (·.pid = pid)

def Group.running? (g : Group) (pid : Nat) : Option Thread :=
  g.threads.find? fun t => t.pid = pid && !t.zleader

def Group.update (g : Group) (pid : Nat) (f : Thread → Thread) : Group :=
  { g with threads := g.threads.map fun t => if t.pid = pid then f t else t }

def park (sig : Nat) (t : Thread) : Thread := { t with pending := t.pending ||| sigBit sig }

def drop (sig : Nat) (t : Thread) : Thread := { t with pending := t.pending &&& ~~~sigBit sig }

def sigDefaultIgnored (sig : Nat) : Bool :=
  sig = 17 || sig = 18 || sig = 23 || sig = 28 || sig = 19 || sig = 20 || sig = 21 || sig = 22

def pickThread (g : Group) (l : Thread) (sig : Nat) : Thread :=
  match g.threads.find? fun q => !q.zleader && !has q.mask sig with
  | some q => q
  | none => (g.threads.find? fun q => !q.zleader).getD l

/-- Who sends a signal.  The sender runs `teardown` for the target, and this kills the members of a
pid namespace whose init goes and the tracees.  If the sender is one of them it never comes back:
then the threads `gone` are gone, and `late` says whether it was as far as `pt_release`. -/
inductive Sender where
  | apart
  | inside (gone : List Nat) (late : Bool)
  deriving DecidableEq

def teardown (g : Group) : Sender → Group
  | .apart => { g with dead := true }
  | .inside gone late =>
    let left := g.threads.filter fun q => !(q.isThread && gone.contains q.pid)
    { g with threads := left.map fun q => { q with zleader := q.zleader && !late } }

/-- `send_sig` to the thread `pid`, for it alone if `exact`. -/
def sendSig (g : Group) (pid sig : Nat) (exact : Bool) (who : Sender) : Except Errno Group :=
  match g.thread? pid with
  | none => .error .esrch
  | some p =>
    if sig = 0 then .ok g
    else if nsigMax ≤ sig then .error .einval
    else if sig = 9 then .ok (teardown g who)
    else
      let h := (g.sa sig).handler
      let d := if p.isThread || exact then p else pickThread g p sig
      if d.traced || (sig = 19 && h = 0) then
        if sig = 19 && !d.traced then
          .ok { g with threads := g.threads.map fun q => if q.zleader then q else park 19 q }
        else .ok (g.update d.pid (park sig))
      else if h = 1 then .ok g
      else if 1 < h || has d.mask sig then .ok (g.update d.pid (park sig))
      else if sigDefaultIgnored sig then .ok g
      else .ok (teardown g who)

def lowest (s : SigSet) : Option Nat := ((List.range 64).find? fun b => s.getLsbD b).map (· + 1)

def ready (t : Thread) : SigSet := t.pending &&& ~~~(t.mask &&& ~~~unblockable)

/-- The action for a signal that a thread has taken.  If there is no room for the frame the
thread gets a `SIGSEGV` instead. -/
def act (g : Group) (t : Thread) (sig : Nat) (frameOk : Bool) : Group :=
  let sa := g.sa sig
  if sa.handler = 1 then g
  else if sa.handler = 0 then
    if sigDefaultIgnored sig then g else { g with dead := true }
  else if frameOk then
    let g := g.update t.pid fun t =>
      { t with mask := (if sa.noDefer then t.mask else t.mask ||| sigBit sig) ||| sa.mask }
    if sa.resetHand then
      { g with sa := fun s => if s = sig then { sa with handler := 0, noDefer := false,
                                                        resetHand := false } else g.sa s }
    else g
  else (sendSig g t.pid 11 false .apart).toOption.getD g

def deliver (g : Group) (pid : Nat) (inject : Option Nat) (frameOk : Bool) : Group :=
  match g.running? pid with
  | none => g
  | some t =>
    match lowest (ready t) with
    | none => g
    | some sig =>
      let g := g.update pid (drop sig)
      if t.traced then
        match inject with
        | some sig => act g t sig frameOk
        | none => g
      else act g t sig frameOk

/-- `rt_sigtimedwait` and reading a signal descriptor for the signals `set`. -/
def take (g : Group) (pid : Nat) (set : SigSet) : Group :=
  match g.running? pid with
  | none => g
  | some t =>
    match lowest (t.pending &&& set) with
    | none => g
    | some sig => g.update pid (drop sig)

/-- `rt_sigprocmask` and `sigreturn`. -/
def setMask (g : Group) (pid : Nat) (mask : SigSet) : Group :=
  g.update pid fun t => { t with mask := mask &&& ~~~unblockable }

def sigaction (g : Group) (pid sig : Nat) (sa : Sa) : Except Errno Group :=
  if sig = 0 ∨ nsigMax ≤ sig then .error .einval
  else if sig = 9 ∨ sig = 19 then .error .einval
  else
    let g := { g with sa := fun s => if s = sig then { sa with mask := sa.mask &&& ~~~unblockable }
                                     else g.sa s }
    .ok (if sa.handler ≤ 1 then g.update pid (drop sig) else g)

/-- `proc_execve`; `ok` says whether there is a program to load. -/
def execve (g : Group) (pid : Nat) (ok : Bool) : Except Errno Group :=
  match g.running? pid with
  | none => .error .esrch
  | some p =>
    if p.isThread then .error .eagain
    else
      let g := { g with threads := g.threads.filter fun q => !q.isThread }
      .ok (if ok then
        { g.update pid (fun t => { t with pending := 0 }) with
          sa := fun s => if 1 < (g.sa s).handler then ⟨0, false, false, 0⟩ else g.sa s }
      else g)

def threadExit (g : Group) (pid : Nat) : Group :=
  match g.running? pid with
  | none => g
  | some p =>
    if (g.threads.filter fun q => q.pid ≠ pid && !q.zleader) = [] then { g with dead := true }
    else if p.isThread then { g with threads := g.threads.filter (·.pid ≠ pid) }
    else g.update pid fun t => { t with zleader := true }

/-- `proc_clone` with `CLONE_THREAD`: the new thread takes some free slot. -/
def clone (g : Group) (pid new slot : Nat) (traced : Bool) : Group :=
  match g.running? pid with
  | none => g
  | some p =>
    { g with threads := g.threads.take slot ++ ⟨new, true, false, traced, p.mask, 0⟩ ::
        g.threads.drop slot }

inductive Op where
  | kill (pid sig : Nat) (exact : Bool) (who : Sender)
  | deliver (pid : Nat) (inject : Option Nat) (frameOk : Bool)
  | take (pid : Nat) (set : SigSet)
  | setMask (pid : Nat) (mask : SigSet)
  | sigaction (pid sig : Nat) (sa : Sa)
  | execve (pid : Nat) (ok : Bool)
  | threadExit (pid : Nat)
  | clone (pid new slot : Nat) (traced : Bool)
  | ptrace (pid : Nat) (traced : Bool)
  /-- A signal from a timer, a child or a fault. -/
  | post (pid sig : Nat)
  | exitGroup

def orSame (g : Group) (r : Except Errno Group) : Group := r.toOption.getD g

def step (g : Group) (op : Op) : Group :=
  if g.dead then g
  else
    match op with
    | .kill pid sig exact who => orSame g (sendSig g pid sig exact who)
    | .deliver pid inject frameOk => deliver g pid inject frameOk
    | .take pid set => take g pid set
    | .setMask pid mask => setMask g pid mask
    | .sigaction pid sig sa => orSame g (sigaction g pid sig sa)
    | .execve pid ok => orSame g (execve g pid ok)
    | .threadExit pid => threadExit g pid
    | .clone pid new slot traced => clone g pid new slot traced
    | .ptrace pid traced => g.update pid fun t => { t with traced := traced }
    | .post pid sig => g.update pid (park sig)
    | .exitGroup => { g with dead := true }

def run (g : Group) (ops : List Op) : Group := ops.foldl step g

end SamaraOS.Signals
