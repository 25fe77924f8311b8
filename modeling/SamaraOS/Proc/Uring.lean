import Mathlib

/-!
# Requests of io_uring (`uring.c`)

The calls under way form a pool; a step runs one of them up to the end of its next section with
interrupts off, or up to the next place where it reads or writes a request outside of one.  Any
call can go next: that the calls of one task go in order is one of these orders.  `sq_submit`
takes an entry in each step, and starts its heads after the last.  What a request does, and when
it is ready, is left to the steps; requests are never reused, a use after `req_put` is recorded.
-/

namespace SamaraOS.Uring

inductive St where
  | held | wait | run
  deriving DecidableEq, Repr

structure Sqe where
  /-- `IORING_OP_LINK_TIMEOUT`. -/
  isLto : Bool
  link : Bool
  hard : Bool
  /-- `IOSQE_CQE_SKIP_SUCCESS`. -/
  skip : Bool
  /-- A timeout for which `-ETIME` is a success. -/
  etimeOk : Bool
  /-- The length that a read or a write has to have. -/
  len : Option Int
  /-- What `prep` found wrong. -/
  bad : Option Int
  deriving DecidableEq

structure Req where
  sqe : Sqe
  /-- On `reqs`. -/
  listed : Bool
  st : St
  link : Option Nat
  lt : Option Nat
  target : Option Nat
  bad : Option Int
  /-- After `req_put`. -/
  put : Bool
  deriving DecidableEq

inductive Call where
  | done (q : Nat) (res : Int)
  /-- `req_done` after its section, with the `lt` and `link` it has read. -/
  | tail (q : Nat) (res : Int) (lt nx : Option Nat)
  /-- `req_done` when it comes to the linked timeout. -/
  | dropLt (l : Nat)
  | start (q : Nat)
  /-- `run` with a result that is known. -/
  | runPre (q : Nat) (res : Int)
  /-- `run` in `req_exec`. -/
  | exec (q : Nat)
  /-- `run` of a linked timeout that has read its target. -/
  | unlink (q t : Nat) (res : Int)
  | cancelFor (t q : Nat) (res : Int)
  /-- `req_cancel` of a request that a cancel or a removal has found. -/
  | cancel (t : Nat)
  /-- A removal in `find_ud`, or after it, with a pointer to a request. -/
  | look (q : Nat)
  deriving DecidableEq

structure Entry where
  q : Nat
  removed : Bool
  res : Int
  posted : Bool
  deriving DecidableEq

structure Batch where
  /-- Its requests so far. -/
  mem : List Nat
  tl : Option Nat
  isOpen : Bool
  /-- It has met a broken entry. -/
  stop : Bool
  submitAll : Bool
  deriving DecidableEq

structure State where
  reqs : Nat → Req
  next : Nat
  batches : List Batch
  pool : List Call
  log : List Entry
  /-- A request was used after `req_put`. -/
  stale : Bool

def ecanceled : Int := -125

def etime : Int := -62

@[simps next batches pool log stale]
def State.set (s : State) (q : Nat) (r : Req) : State :=
  { s with reqs := Function.update s.reqs q r }

@[simps]
def State.use (s : State) (q : Nat) : State := { s with stale := s.stale || (s.reqs q).put }

@[simps]
def State.replace (s : State) (k : Nat) (new : List Call) : State :=
  { s with pool := new ++ s.pool.eraseIdx k }

@[simp] theorem set_reqs (s : State) (q x : Nat) (r : Req) :
    (s.set q r).reqs x = if x = q then r else s.reqs x := by
  simp [State.set, Function.update_apply]

/-! ## The calls -/

def optFail (e : Sqe) (res : Int) : Bool :=
  if e.etimeOk && res = etime then false
  else if res < 0 then true
  else e.len.any fun n => res ≠ n

def clearLt (s : State) : Option Nat → State
  | none => s
  | some t => (s.use t).set t { (s.use t).reqs t with lt := none }

section

variable (s : State) (o : Option Nat)

theorem clearLt_reqs (x : Nat) : (clearLt s o).reqs x =
      { s.reqs x with lt := if o = some x then none else (s.reqs x).lt } := by
  cases o with
  | none => simp [clearLt]
  | some t =>
    by_cases hx : x = t
    · simp [clearLt, hx]
    · simp [clearLt, hx, Ne.symm hx]

theorem clearLt_rest : (clearLt s o).pool = s.pool ∧
    (clearLt s o).log = s.log ∧ (clearLt s o).next = s.next := by
  cases o <;> exact ⟨rfl, rfl, rfl⟩

@[simp] theorem clearLt_batches : (clearLt s o).batches = s.batches := by
  cases o <;> rfl

theorem clearLt_stale : (clearLt s o).stale = (s.stale || o.any fun t => (s.reqs t).put) := by
  cases o <;> simp [clearLt]

end

def doneStep (s : State) (k q : Nat) (res : Int) : State :=
  let r := s.reqs q
  let s := s.use q
  let s := { s.set q { r with listed := false } with
    log := ⟨q, r.listed, res, !(r.sqe.skip && 0 ≤ res)⟩ :: s.log }
  (clearLt s r.target).replace k [.tail q res r.lt r.link]

def tailStep (s : State) (k q : Nat) (res : Int) (lt nx : Option Nat) : State :=
  let r := s.reqs q
  ((s.use q).set q { r with put := true }).replace k
    ((lt.toList.map fun l => Call.dropLt l) ++ nx.toList.map fun x =>
      if optFail r.sqe res && !r.sqe.hard then .done x ecanceled else .start x)

def dropLtStep (s : State) (k l : Nat) : State :=
  let r := s.reqs l
  ((s.use l).set l { r with target := none }).replace k [.done l (r.bad.getD ecanceled)]

def armLt (s : State) : Option Nat → State
  | none => s
  | some l => (s.use l).set l { (s.use l).reqs l with st := .wait }

def startStep (s : State) (k q : Nat) : State :=
  let r := s.reqs q
  match r.bad with
  | some e => ((s.use q).set q { r with st := .run }).replace k [.done q e]
  | none => (armLt ((s.use q).set q { r with st := .wait }) r.lt).replace k []

def runPreStep (s : State) (k q : Nat) (res : Int) : State :=
  let r := s.reqs q
  match if r.sqe.isLto then r.target else none with
  | some t => ((s.use q).set q { r with target := none }).replace k [.unlink q t res]
  | none => (s.use q).replace k [.done q res]

def unlinkStep (s : State) (k q t : Nat) (res : Int) : State :=
  ((s.use t).set t { s.reqs t with lt := none }).replace k [.cancelFor t q res]

/-- The section of `req_cancel`; `rest` is what the caller does afterwards. -/
def cancelStep (s : State) (k t : Nat) (rest : List Call) : State :=
  if (s.reqs t).st = .wait then
    ((s.use t).set t { s.reqs t with st := .run }).replace k (.done t ecanceled :: rest)
  else (s.use t).replace k rest

def go (s : State) (k : Nat) : Call → Option State
  | .done q res => some (doneStep s k q res)
  | .tail q res lt nx => some (tailStep s k q res lt nx)
  | .dropLt l => some (dropLtStep s k l)
  | .start q => some (startStep s k q)
  | .runPre q res => some (runPreStep s k q res)
  | .exec _ => none
  | .unlink q t res => some (unlinkStep s k q t res)
  | .cancelFor t q res => some (cancelStep s k t [.done q res])
  | .cancel t => some (cancelStep s k t [])
  -- the end of the walk, or the new deadline of a timeout
  | .look q => some ((s.use q).replace k [])

def newReq (e : Sqe) (bad : Option Int) (target : Option Nat) : Req :=
  ⟨e, true, .held, none, none, target, bad, false⟩

/-- One turn of the loop of `sq_submit`, with the new `tl`.  The `req_start` of a head is put into
the pool at once; it cannot go before the loop ends. -/
def append (e : Sqe) (b : Batch) (s : State) : State × Nat :=
  let q := s.next
  let s := { s with next := q + 1 }
  match if b.isOpen then b.tl else none with
  | none =>
    let bad := if e.isLto then some (e.bad.getD (-22)) else e.bad
    ({ s.set q (newReq e bad none) with pool := .start q :: s.pool }, q)
  | some t =>
    if e.isLto && (s.reqs t).lt.isNone then
      let bad := if e.bad.isSome then some ((s.reqs t).bad.getD ecanceled) else (s.reqs t).bad
      ((s.set q (newReq e e.bad (some t))).set t { s.reqs t with lt := some q, bad := bad }, t)
    else
      let bad := if e.isLto then some (e.bad.getD (-22)) else e.bad
      ((s.set q (newReq e bad none)).set t { s.reqs t with link := some q }, q)

def Batch.add (b : Batch) (e : Sqe) (q tl : Nat) : Batch where
  mem := q :: b.mem
  tl := some tl
  isOpen := e.link || e.hard
  stop := e.bad.any (· ≠ -2) && !(e.link || e.hard) && !e.isLto && !b.submitAll
  submitAll := b.submitAll

def waits (s : State) : Call → Bool
  | .start q => s.batches.any fun b => b.mem.contains q
  | _ => false

inductive Op where
  | enter (submitAll : Bool)
  | append (j : Nat) (e : Sqe)
  | leave (j : Nat)
  /-- `pick`, of a timeout or a poll with its result. -/
  | pick (q : Nat) (res : Option Int)
  | go (k : Nat)
  /-- The request of an `exec` has found another request to cancel: the section of `do_cancel`. -/
  | seek (k t : Nat)
  /-- A step of `find_ud` to a request of the list, the first one or the next; interrupts are on. -/
  | look (k q : Nat)
  /-- The removal cancels the request that `find_ud` has found. -/
  | hit (k : Nat)
  | finish (k : Nat) (res : Int)
  /-- A request with more than one result goes on waiting. -/
  | again (k : Nat)

def step (s : State) : Op → Option State
  | .enter submitAll => some { s with batches := ⟨[], none, false, false, submitAll⟩ :: s.batches }
  | .append j e =>
    match s.batches[j]? with
    | some b =>
      if b.stop then none
      else some { (Uring.append e b s).1 with
        batches := b.add e s.next (Uring.append e b s).2 :: s.batches.eraseIdx j }
    | none => none
  | .leave j => some { s with batches := s.batches.eraseIdx j }
  | .pick q res =>
    if (s.reqs q).listed ∧ (s.reqs q).st = .wait ∧ ((s.reqs q).sqe.isLto → res.isSome) then
      some { s.set q { s.reqs q with st := .run } with
        pool := (match res with
          | some res => Call.runPre q res
          | none => .exec q) :: s.pool }
    else none
  | .go k => s.pool[k]?.bind fun c => if waits s c then none else Uring.go s k c
  | .seek k t =>
    match s.pool[k]? with
    | some (.exec _) =>
      if (s.reqs t).listed then some { s with pool := .cancel t :: s.pool } else none
    | _ => none
  | .look k q =>
    match s.pool[k]? with
    | some (.exec _) =>
      if (s.reqs q).listed then some { s with pool := .look q :: s.pool } else none
    | some (.look p) =>
      if (s.reqs q).listed then some ((s.use p).replace k [.look q]) else none
    | _ => none
  | .hit k =>
    match s.pool[k]? with
    | some (.look q) => some ((s.use q).replace k [.cancel q])
    | _ => none
  | .finish k res =>
    match s.pool[k]? with
    | some (.exec q) => some (s.replace k [.done q res])
    | _ => none
  | .again k =>
    match s.pool[k]? with
    | some (.exec q) => some ((s.use q).set q { s.reqs q with st := .wait } |>.replace k [])
    | _ => none

def run (s : State) : List Op → Option State
  | [] => some s
  | op :: ops => (step s op).bind fun s => run s ops

def boot : State :=
  ⟨fun _ => ⟨⟨false, false, false, false, false, none, none⟩, false, .held, none, none, none, none,
    false⟩, 0, [], [], [], false⟩

end SamaraOS.Uring
