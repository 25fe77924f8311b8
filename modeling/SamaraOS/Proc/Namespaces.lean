import SamaraOS.Lib.Refs
import SamaraOS.Lib.Weights

/-!
# Namespaces (`ns.c`)

Every process has an index of each kind, and a second one of the pid kind for its children.  The
leader of a thread group holds the references, threads copy its indices.  The contents of the
namespaces (mount aliases, host names, id maps, the numbering of pids) are left out: they do not
touch the counts.
-/

namespace SamaraOS.Namespaces

open Refs Function

inductive Kind where
  | mnt | uts | ipc | user | net | pid
  deriving DecidableEq, Repr

def Kind.linked : Kind → Bool
  | .user | .pid => true
  | _ => false

def nn : Nat := 32

/-- The tables; a node's `info` is its level, for pid namespaces. -/
abbrev Tables := Kind → Table Nat

structure Proc where
  pid : Nat
  tgid : Nat
  isThread : Bool
  idx : Kind → Nat
  kidns : Nat
  /-- The namespaces that the next child asks for. -/
  nsfl : Kind → Bool

structure State where
  nst : Tables
  /-- The live ones. -/
  procs : List Proc

def bootTable : Table Nat := fun i =>
  if i = 0 then ⟨true, 1 <<< 20, 0, 0⟩ else ⟨false, 0, 0, 0⟩

def Tables.set (ts : Tables) (k : Kind) (t : Table Nat) : Tables := update ts k t

def nsNew (k : Kind) (parent : Nat) (ts : Tables) : Option (Nat × Tables) :=
  (firstFree nn (ts k)).map fun i =>
    (i, ts.set k (make k.linked (ts k) i parent
      (if k = .pid then ((ts k) parent).info + 1 else 0)))

def nsGet (k : Kind) (i : Nat) (ts : Tables) : Tables := ts.set k (get (ts k) i)

def nsPut (k : Kind) (i : Nat) (ts : Tables) : Tables := ts.set k (put k.linked nn (ts k) i)

def childPid (p : Proc) : Nat := if p.kidns ≠ 0 then p.kidns else p.idx .pid

def parentFor (p : Proc) : Kind → Nat
  | .user => p.idx .user
  | .pid => childPid p
  | _ => 0

def kinds : List Kind := [.mnt, .uts, .ipc, .user, .net, .pid]

def tooDeep (ts : Tables) (p : Proc) (k : Kind) : Bool :=
  k = .pid && 3 ≤ ((ts .pid) (childPid p)).info

def makeAll (p : Proc) : List Kind → Tables → Option (List (Kind × Nat)) × Tables
  | [], ts => (some [], ts)
  | k :: ks, ts =>
    if tooDeep ts p k then (none, ts)
    else
      match nsNew k (parentFor p k) ts with
      | none => (none, ts)
      | some (i, ts) =>
        let (made, ts) := makeAll p ks ts
        (made.map ((k, i) :: ·), ts)

def old (p : Proc) (k : Kind) : Nat := if k = .pid then p.kidns else p.idx k

def replace (p : Proc) (k : Kind) (i : Nat) : Proc :=
  if k = .pid then { p with kidns := i } else { p with idx := update p.idx k i }

def moveTo (p : Proc) (k : Kind) (i : Nat) (ts : Tables) : Proc × Tables :=
  (replace p k i, nsGet k i (nsPut k (old p k) ts))

def moveAll : List (Kind × Nat) → Proc → Tables → Proc × Tables
  | [], p, ts => (p, ts)
  | (k, i) :: made, p, ts =>
    let (p, ts) := moveTo p k i ts
    moveAll made p ts

/-- `apply`; `none` is `-ENOSPC`. -/
def apply (p : Proc) (fl : Kind → Bool) (ts : Tables) : Option Proc × Tables :=
  match makeAll p (kinds.filter fl) ts with
  | (none, ts) => (none, ts)
  | (some made, ts) =>
    let (p, ts) := moveAll made p ts
    (some p, ts)

/-! ## Calls -/

def unshare (i : Nat) (fl : Kind → Bool) (st : State) : State :=
  match st.procs[i]? with
  | none => st
  | some p =>
    match apply p fl st.nst with
    | (none, ts) => { st with nst := ts }
    | (some p, ts) => ⟨ts, st.procs.set i p⟩

/-- `ns_join`. -/
def setns (i : Nat) (k : Kind) (j : Nat) (st : State) : State :=
  match st.procs[i]? with
  | none => st
  | some p =>
    if j < nn ∧ (st.nst k j).used then
      ⟨nsPut k (old p k) (nsGet k j st.nst), st.procs.set i (replace p k j)⟩
    else st

def inherit (p c : Proc) : Proc :=
  { c with idx := update p.idx .pid (childPid p), kidns := 0, nsfl := fun _ => false }

def getAll (c : Proc) (ts : Tables) : Tables := kinds.foldl (fun ts k => nsGet k (c.idx k) ts) ts

def newPid (c : Proc) (ts : Tables) : Proc × Tables :=
  let cur := c.idx .pid
  if 3 ≤ ((ts .pid) cur).info then (c, ts)
  else
    match nsNew .pid cur ts with
    | none => (c, ts)
    | some (n, ts) =>
      ({ c with idx := update c.idx .pid n }, nsPut .pid cur (nsGet .pid n ts))

def notPid (fl : Kind → Bool) : Kind → Bool := fun k => fl k && k ≠ .pid

def nsFork (p c : Proc) (fl : Kind → Bool) (ts : Tables) : Proc × Tables :=
  let c := inherit p c
  if c.isThread then (c, ts)
  else
    let ts := getAll c ts
    let (c, ts) :=
      match apply c (notPid fl) ts with
      | (none, ts) => (c, ts)
      | (some c, ts) => (c, ts)
    if fl .pid then newPid c ts else (c, ts)

inductive Ending where
  /-- No slot or no memory, before `ns_fork`. -/
  | early
  /-- `start_task` fails: the slot is freed again. -/
  | late
  | ok

/-- `do_fork`; `clone` sets the flags first. -/
def fork (i : Nat) (fl : Option (Kind → Bool)) (pid : Nat) (e : Ending) (st : State) : State :=
  match st.procs[i]? with
  | none => st
  | some p =>
    let p := { p with nsfl := fl.getD p.nsfl }
    match e with
    | .early => { st with procs := st.procs.set i p }
    | .late =>
      let (_, ts) := nsFork p ⟨pid, pid, false, fun _ => 0, 0, fun _ => false⟩ p.nsfl st.nst
      ⟨ts, st.procs.set i { p with nsfl := fun _ => false }⟩
    | .ok =>
      let (c, ts) := nsFork p ⟨pid, pid, false, fun _ => 0, 0, fun _ => false⟩ p.nsfl st.nst
      ⟨ts, c :: st.procs.set i { p with nsfl := fun _ => false }⟩

def cloneThread (i pid : Nat) (e : Ending) (st : State) : State :=
  match st.procs[i]? with
  | none => st
  | some p =>
    match e with
    | .early => st
    | .late =>
      let (_, ts) := nsFork p ⟨pid, p.tgid, true, fun _ => 0, 0, fun _ => false⟩ p.nsfl st.nst
      ⟨ts, st.procs.set i { p with nsfl := fun _ => false }⟩
    | .ok =>
      let (c, ts) := nsFork p ⟨pid, p.tgid, true, fun _ => 0, 0, fun _ => false⟩ p.nsfl st.nst
      ⟨ts, c :: st.procs.set i { p with nsfl := fun _ => false }⟩

def putAll (p : Proc) (ts : Tables) : Tables :=
  nsPut .pid p.kidns (kinds.foldl (fun ts k => nsPut k (p.idx k) ts) ts)

/-- `teardown` of the leader at `i`: its threads go with it. -/
def exit (i : Nat) (st : State) : State :=
  match st.procs[i]? with
  | none => st
  | some p =>
    if p.isThread then st
    else ⟨putAll p st.nst, (st.procs.eraseIdx i).filter fun q => !(q.isThread && q.tgid = p.tgid)⟩

/-- `teardown` that does not come back from `pt_release`, since the process that runs it is
killed there: the leader at `i` stays alive.  `ns_exit` leaves `pidns` as it is, so that a teardown
that is entered again, which is this and then `exit`, puts it a second time. -/
def exitCut (i : Nat) (st : State) : State :=
  match st.procs[i]? with
  | none => st
  | some p =>
    if p.isThread then st
    else
      ⟨putAll p st.nst,
        (st.procs.set i { p with idx := fun k => if k = .pid then p.idx .pid else 0, kidns := 0 }).filter
          fun q => !(q.isThread && q.tgid = p.tgid)⟩

def threadExit (i : Nat) (st : State) : State :=
  match st.procs[i]? with
  | none => st
  | some p => if p.isThread then { st with procs := st.procs.eraseIdx i } else st

inductive Op where
  | unshare (i : Nat) (fl : Kind → Bool)
  | setns (i : Nat) (k : Kind) (j : Nat)
  | fork (i : Nat) (fl : Option (Kind → Bool)) (pid : Nat) (e : Ending)
  | cloneThread (i pid : Nat) (e : Ending)
  | exit (i : Nat)
  | exitCut (i : Nat)
  | threadExit (i : Nat)
  /-- The kernel starts a program: a leader in the initial namespaces. -/
  | spawn (pid : Nat)

def step (st : State) : Op → State
  | .unshare i fl => Namespaces.unshare i fl st
  | .setns i k j => Namespaces.setns i k j st
  | .fork i fl pid e => Namespaces.fork i fl pid e st
  | .cloneThread i pid e => Namespaces.cloneThread i pid e st
  | .exit i => Namespaces.exit i st
  | .exitCut i => Namespaces.exitCut i st
  | .threadExit i => Namespaces.threadExit i st
  | .spawn pid => { st with procs := ⟨pid, pid, false, fun _ => 0, 0, fun _ => false⟩ :: st.procs }

def run (st : State) (ops : List Op) : State := ops.foldl step st

def boot : State := ⟨fun _ => bootTable, []⟩

def Proc.held (p : Proc) (k : Kind) : List Nat :=
  if p.isThread then [] else if k = .pid then [p.idx .pid, p.kidns] else [p.idx k]

def holders (ps : List Proc) (k : Kind) (i : Nat) : Nat := (ps.map fun p => (p.held k).count i).sum

end SamaraOS.Namespaces
