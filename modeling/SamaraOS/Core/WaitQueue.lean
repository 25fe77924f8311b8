import SamaraOS.Lib.Dlist

/-!
# Wait queues (wq.c)

Entries and waiters come from two pools.  An entry is on the list of its queue and on the
chain of its waiter, or it has a callback instead of a waiter.  The links of the queues are
in `link`, the other fields of an entry in `ent`.

Every locked section is one step.  A callback wakes the task that it is for.  `checked` says
that the condition was looked at since the last `wq_add` and the last sleep, `due` that a queue of
the waiter was woken with its condition set and the waiter has not looked since.
-/

namespace SamaraOS.WaitQueue

open Function

def nent : Nat := 2048
def nw : Nat := 128

structure Ent where
  wnext : Option Nat := none
  q : Option Nat := none
  w : Option Nat := none
  /-- The task that the callback wakes. -/
  cb : Option Nat := none
  used : Bool := false
  deriving DecidableEq, Repr

structure Waiter where
  t : Nat := 0
  fired : Bool := false
  used : Bool := false
  ents : Option Nat := none
  checked : Bool := false
  due : Bool := false
  deriving DecidableEq, Repr

inductive TaskState where
  | free
  | ready
  | blocked
  | dead
  deriving DecidableEq, Repr

structure Task where
  state : TaskState := .free
  wakeMs : Nat := 0
  /-- The waiters that the task has. -/
  hold : List Nat := []
  /-- The waiter that the task is in `wq_sleep` with, behind the locked section. -/
  sleeping : Option Nat := none
  /-- What `wakeMs` stands for. -/
  deadline : Nat := 0
  deriving DecidableEq, Repr

structure Sys where
  link : Dlist.Mem Unit := fun _ => ⟨(), none, none⟩
  ent : Nat → Ent := fun _ => {}
  head : Nat → Option Nat := fun _ => none
  ws : List Waiter := List.replicate nw {}
  task : Nat → Task := fun _ => {}
  cond : Nat → Bool := fun _ => false
  now : Nat := 0

section

variable (s : Sys)

def Sys.waiter (w : Nat) : Waiter := s.ws.getD w {}

def setWaiter (w : Nat) (x : Waiter) : Sys := { s with ws := s.ws.set w x }

def setEnt (e : Nat) (x : Ent) : Sys := { s with ent := update s.ent e x }

def setTask (t : Nat) (x : Task) : Sys := { s with task := update s.task t x }

def unlink (e : Nat) : Sys :=
  match (s.ent e).q with
  | none => s
  | some q =>
    { s with
      link := Dlist.unlink s.link e
      head := if (s.link e).prev = none then update s.head q (s.link e).next else s.head
      ent := update s.ent e { s.ent e with q := none } }

def freeEnt (e : Nat) : Sys :=
  let s := unlink s e
  setEnt s e { s.ent e with used := false }

def freeChain : Nat → Option Nat → Sys → Sys
  | 0, _, s => s
  | _ + 1, none, s => s
  | fuel + 1, some e, s =>
    let s := freeEnt s e
    freeChain fuel (s.ent e).wnext s

def wqWaiterFree (w : Nat) : Sys :=
  let s := freeChain nent (s.waiter w).ents s
  setWaiter s w { s.waiter w with ents := none, used := false }

def gone (t : Nat) : Bool := (s.task t).state = .free ∨ (s.task t).state = .dead

def gc : Sys :=
  (List.range nw).foldl (fun s w =>
    if (s.waiter w).used && gone s (s.waiter w).t then wqWaiterFree s w else s) s

def freeWaiter : Option Nat := s.ws.findIdx? fun x => !x.used

def freeEntry : Option Nat := (List.range nent).find? fun e => !(s.ent e).used

def search (find : Sys → Option Nat) : Sys × Option Nat :=
  match find s with
  | some i => (s, some i)
  | none =>
    let s := gc s
    match find s with
    | some i => (s, some i)
    | none => (gc s, none)

def wqWaiter (t : Nat) : Sys × Option Nat :=
  match search s freeWaiter with
  | (s, none) => (s, none)
  | (s, some w) => (setWaiter s w { t := t, used := true }, some w)

def entNew (q : Nat) : Sys × Option Nat :=
  match search s freeEntry with
  | (s, none) => (s, none)
  | (s, some e) =>
    ({ s with
        ent := update s.ent e { s.ent e with used := true, q := some q }
        link := Dlist.pushFront s.link (s.head q) e ()
        head := update s.head q (some e) }, some e)

def wqAdd (q w : Nat) : Sys × Option Nat :=
  match entNew s q with
  | (s, none) => (s, none)
  | (s, some e) =>
    let s := setEnt s e { s.ent e with w := some w, cb := none, wnext := (s.waiter w).ents }
    (setWaiter s w { s.waiter w with ents := some e }, some e)

def wqAddCb (q cb : Nat) : Sys × Option Nat :=
  match entNew s q with
  | (s, none) => (s, none)
  | (s, some e) => (setEnt s e { s.ent e with w := none, cb := some cb, wnext := none }, some e)

def wqDel (e : Nat) : Sys :=
  if (s.ent e).used && (s.ent e).w.isNone then freeEnt s e else s

def taskReady (t : Nat) : Sys :=
  if (s.task t).state = .blocked then
    setTask s t { s.task t with state := .ready, wakeMs := 0 }
  else s

def fire (e : Nat) : Sys :=
  match (s.ent e).cb, (s.ent e).w with
  | some t, _ => taskReady s t
  | none, some w =>
    let x := s.waiter w
    taskReady (setWaiter s w { x with fired := true }) x.t
  | none, none => s

def fireChain (drain : Bool) : Nat → Option Nat → Sys → Sys
  | 0, _, s => s
  | _ + 1, none, s => s
  | fuel + 1, some e, s =>
    let s := fire s e
    let s := if drain then setEnt s e { s.ent e with q := none } else s
    fireChain drain fuel (s.link e).next s

def wakeLocked (q : Nat) : Sys := fireChain false nent (s.head q) s

def wqWake (q : Nat) : Sys := if s.head q = none then s else wakeLocked s q

def wqDrain (q : Nat) : Sys :=
  let s := fireChain true nent (s.head q) s
  { s with head := update s.head q none }

def sleepMs (ms : Nat) : Nat := if ms = 0 ∨ 500 < ms then 500 else ms

/-- `wq_sleep` up to the end of its locked section. -/
def wqSleep (w ms : Nat) : Sys :=
  let x := s.waiter w
  if x.t = 0 then setWaiter s w { x with fired := false, checked := false }
  else
    let k := s.task x.t
    if x.fired then setTask s x.t { k with sleeping := some w }
    else
      let k := { k with
        wakeMs := (s.now + sleepMs ms) % 2 ^ 32
        deadline := s.now + sleepMs ms
        sleeping := some w }
      setTask s x.t (if k.state = .ready then { k with state := .blocked } else k)

def wqSleepEnd (t : Nat) : Sys :=
  match (s.task t).sleeping with
  | none => s
  | some w =>
    if (s.task t).state = .blocked then s
    else
      let s := setTask s t { s.task t with sleeping := none }
      setWaiter s w { s.waiter w with fired := false, checked := false }

def tickTask (now : Nat) (k : Task) : Task :=
  if k.state = .blocked ∧ k.wakeMs ≠ 0 ∧ (now + 2 ^ 32 - k.wakeMs) % 2 ^ 32 < 2 ^ 31 then
    { k with state := .ready, wakeMs := 0 }
  else k

end

inductive Event where
  | waiter (t : Nat)
  | add (t w q : Nat)
  | addCb (q cb : Nat)
  | del (e : Nat)
  /-- The task looks at its condition. -/
  | check (t w : Nat)
  | sleep (t w ms : Nat)
  | sleepEnd (t : Nat)
  | waiterFree (t w : Nat)
  | wake (q : Nat)
  /-- The head was tested at an earlier step. -/
  | wakeLate (q : Nat)
  | drain (q : Nat)
  | setCond (q : Nat) (b : Bool)
  | kill (t : Nat)
  | spawn (t : Nat)
  | ready (t : Nat)
  /-- A tick, `k + 1` milliseconds after the one before. -/
  | tick (k : Nat)
  deriving Repr

def holds (s : Sys) (t w : Nat) : Bool :=
  w ∈ (s.task t).hold ∧ (s.task t).sleeping = none

def waits (s : Sys) (q w : Nat) : Bool :=
  (List.range nent).any fun e => (s.ent e).q = some q ∧ (s.ent e).w = some w

def markDue (s₀ : Sys) (q : Nat) (s : Sys) : Sys :=
  { s with ws := s.ws.mapIdx fun w x => { x with due := x.due || (s₀.cond q && waits s₀ q w) } }

def next (s : Sys) : Event → Sys
  | .waiter t =>
    if (s.task t).sleeping = none then
      match wqWaiter s t with
      | (s, none) => s
      | (s, some w) => setTask s t { s.task t with hold := w :: (s.task t).hold }
    else s
  | .add t w q =>
    if holds s t w then
      let s := (wqAdd s q w).1
      setWaiter s w { s.waiter w with checked := false }
    else s
  | .addCb q cb => (wqAddCb s q cb).1
  | .del e => wqDel s e
  | .check t w =>
    if holds s t w then setWaiter s w { s.waiter w with checked := true, due := false } else s
  | .sleep t w ms => if holds s t w && (s.waiter w).checked then wqSleep s w ms else s
  | .sleepEnd t => wqSleepEnd s t
  | .waiterFree t w =>
    if holds s t w then
      setTask (wqWaiterFree s w) t { s.task t with hold := (s.task t).hold.erase w }
    else s
  | .wake q => markDue s q (wqWake s q)
  | .wakeLate q => markDue s q (wakeLocked s q)
  | .drain q => markDue s q (wqDrain s q)
  | .setCond q b => { s with cond := update s.cond q b }
  | .kill t => setTask s t { s.task t with state := .dead }
  | .spawn t => if gone s t then setTask s t { state := .ready } else s
  | .ready t => taskReady s t
  | .tick k =>
    let now := s.now + k + 1
    { s with now := now, task := fun t => tickTask (now % 2 ^ 32) (s.task t) }

def play (s : Sys) (events : List Event) : Sys := events.foldl next s

def boot : Sys := {}

end SamaraOS.WaitQueue
