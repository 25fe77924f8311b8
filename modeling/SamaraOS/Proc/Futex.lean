import Mathlib

/-!
# Futex waiters (`proc.c`)

A step is what happens under a bucket lock or between two looks at shared state.  A waiter reads
`woken` without a lock when it comes back from its sleep, leaves by `futex_forget` some steps
later, and takes the lock of the bucket it started in, also after it was moved to another one.
`futex_forget` reads the bucket once to lock it and once to unlock it.
-/

namespace SamaraOS.Futex

open Function

inductive Ret where
  | ok | eintr | etimedout
  deriving DecidableEq, Repr

inductive Pc where
  | idle
  /-- In the loop until the task is made ready; `b` is the bucket of the first address. -/
  | sleeping (b : Nat)
  | awake (b : Nat)
  /-- `woken` was not set. -/
  | tested (b : Nat)
  | relock (b : Nat)
  /-- With the lock of `b`, and `woken` was not set. -/
  | relocked (b : Nat)
  | leaving (r : Ret)
  /-- `futex_forget` has read the bucket. -/
  | forget (r : Ret) (c : Nat)
  /-- The entry is off, the lock not yet open. -/
  | forgetting (r : Ret)
  deriving DecidableEq

structure Key where
  pd : BitVec 64
  addr : BitVec 64
  deriving DecidableEq

def bucket (key : Key) : Nat := ((key.pd >>> 12) * 31 + (key.addr >>> 2) &&& 63).toNat

structure Waiter where
  active : Bool
  woken : Bool
  key : Key
  bk : Nat
  /-- `T_BLOCKED`. -/
  blocked : Bool
  /-- A signal that can be delivered. -/
  sig : Bool
  timed : Bool
  /-- The time is over. -/
  expired : Bool
  pc : Pc
  deriving DecidableEq

structure State where
  w : Nat → Waiter
  lock : Nat → Option Nat
  /-- For every wait that has returned, whether it had been woken, and its result. -/
  log : List (Bool × Ret)

def maxProcs : Nat := 448

def State.set (s : State) (i : Nat) (w : Waiter) : State :=
  { s with w := update s.w i w }

def State.goto (s : State) (i : Nat) (pc : Pc) : State := s.set i { s.w i with pc := pc }

def State.setLock (s : State) (b : Nat) (h : Option Nat) : State :=
  { s with lock := update s.lock b h }

def enter (i : Nat) (key : Key) (eq timed : Bool) (s : State) : Option State :=
  if (s.w i).pc = .idle ∧ s.lock (bucket key) = none then
    if eq then
      some (s.set i ⟨true, false, key, bucket key, !(s.w i).sig, (s.w i).sig, timed, false,
        if (s.w i).sig then .leaving .eintr else .sleeping (bucket key)⟩)
    else some s
  else none

def resume (i : Nat) (s : State) : Option State :=
  match (s.w i).pc with
  | .sleeping b => if (s.w i).blocked then none else some (s.goto i (.awake b))
  | _ => none

def test (i : Nat) (s : State) : Option State :=
  match (s.w i).pc with
  | .awake b => some (s.goto i (if (s.w i).woken then .leaving .ok else .tested b))
  | _ => none

def decideLeave (i : Nat) (s : State) : Option State :=
  match (s.w i).pc with
  | .tested b =>
    some (s.goto i
      (if (s.w i).sig then .leaving .eintr
      else if (s.w i).timed && (s.w i).expired then .leaving .etimedout
      else .relock b))
  | _ => none

def relock (i : Nat) (s : State) : Option State :=
  match (s.w i).pc with
  | .relock b =>
    if s.lock b = none then
      if (s.w i).woken then some (s.goto i (.leaving .ok))
      else some ((s.setLock b (some i)).goto i (.relocked b))
    else none
  | _ => none

def block (i : Nat) (s : State) : Option State :=
  match (s.w i).pc with
  | .relocked b =>
    if (s.w i).sig then some ((s.setLock b none).goto i (.leaving .eintr))
    else some ((s.setLock b none).set i { s.w i with blocked := true, pc := .sleeping b })
  | _ => none

def forgetRead (i : Nat) (s : State) : Option State :=
  match (s.w i).pc with
  | .leaving r => some (s.goto i (.forget r (s.w i).bk))
  | _ => none

def forgetLock (i : Nat) (s : State) : Option State :=
  match (s.w i).pc with
  | .forget r c =>
    if s.lock c = none then
      some ((s.setLock c (some i)).set i { s.w i with active := false, pc := .forgetting r })
    else none
  | _ => none

def forgetUnlock (i : Nat) (s : State) : Option State :=
  match (s.w i).pc with
  | .forgetting r =>
    some { (s.setLock (s.w i).bk none).goto i .idle with log := ((s.w i).woken, r) :: s.log }
  | _ => none

def ready (w : Waiter) : Waiter := { w with blocked := false }

def found (key : Key) (w : Waiter) : Bool :=
  w.active && !w.woken && w.bk = bucket key && w.key = key

def wakeOne (w : Waiter) : Waiter := ready { w with woken := true }

def wakeLoop (key : Key) : List Nat → Nat → Nat → (Nat → Waiter) → Nat × (Nat → Waiter)
  | [], _, k, w => (k, w)
  | i :: is, n, k, w =>
    if k < n ∧ found key (w i) then
      wakeLoop key is n (k + 1) (update w i (wakeOne (w i)))
    else wakeLoop key is n k w

def wake (key : Key) (n : Nat) (s : State) : Option (Nat × State) :=
  if s.lock (bucket key) = none then
    let r := wakeLoop key (List.range maxProcs) n 0 s.w
    some (r.1, { s with w := r.2 })
  else none

def moveOne (key : Key) (w : Waiter) : Waiter := { w with key := key, bk := bucket key }

def requeueLoop (key key₂ : Key) (n m : Nat) :
    List Nat → Nat → Nat → (Nat → Waiter) → Nat × (Nat → Waiter)
  | [], k, moved, w => (k + moved, w)
  | i :: is, k, moved, w =>
    if found key (w i) then
      if k < n then requeueLoop key key₂ n m is (k + 1) moved (update w i (wakeOne (w i)))
      else if moved < m then
        requeueLoop key key₂ n m is k (moved + 1) (update w i (moveOne key₂ (w i)))
      else requeueLoop key key₂ n m is k moved w
    else requeueLoop key key₂ n m is k moved w

/-- `eq` is false if `FUTEX_CMP_REQUEUE` finds another value, which is `-EAGAIN`. -/
def requeue (key key₂ : Key) (n m : Nat) (eq : Bool) (s : State) : Option (Option Nat × State) :=
  if s.lock (bucket key) = none ∧ s.lock (bucket key₂) = none then
    if eq then
      let r := requeueLoop key key₂ n m (List.range maxProcs) 0 0 s.w
      some (some r.1, { s with w := r.2 })
    else some (none, s)
  else none

inductive Op where
  | enter (i : Nat) (key : Key) (eq timed : Bool)
  | resume (i : Nat)
  | test (i : Nat)
  | decideLeave (i : Nat)
  | relock (i : Nat)
  | block (i : Nat)
  | forgetRead (i : Nat)
  | forgetLock (i : Nat)
  | forgetUnlock (i : Nat)
  | wake (key : Key) (n : Nat)
  | requeue (key key₂ : Key) (n m : Nat) (eq : Bool)
  /-- A signal comes. -/
  | signal (i : Nat)
  /-- No signal can be delivered any more. -/
  | handled (i : Nat)
  /-- The time of a waiter is over. -/
  | expire (i : Nat)
  /-- The task is made ready for another reason. -/
  | poke (i : Nat)

def step (s : State) : Op → Option State
  | .enter i key eq timed => Futex.enter i key eq timed s
  | .resume i => Futex.resume i s
  | .test i => Futex.test i s
  | .decideLeave i => Futex.decideLeave i s
  | .relock i => Futex.relock i s
  | .block i => Futex.block i s
  | .forgetRead i => Futex.forgetRead i s
  | .forgetLock i => Futex.forgetLock i s
  | .forgetUnlock i => Futex.forgetUnlock i s
  | .wake key n => (Futex.wake key n s).map Prod.snd
  | .requeue key key₂ n m eq => (Futex.requeue key key₂ n m eq s).map Prod.snd
  | .signal i => some (s.set i (ready { s.w i with sig := true }))
  | .handled i => some (s.set i { s.w i with sig := false })
  | .expire i => some (s.set i (ready { s.w i with expired := true }))
  | .poke i => some (s.set i (ready (s.w i)))

def run (s : State) : List Op → Option State
  | [] => some s
  | op :: ops => (step s op).bind fun s => run s ops

def boot : State :=
  ⟨fun _ => ⟨false, false, ⟨0, 0⟩, 0, false, false, false, false, .idle⟩, fun _ => none, []⟩

end SamaraOS.Futex
