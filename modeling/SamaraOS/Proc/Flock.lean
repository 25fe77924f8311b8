import SamaraOS.Lib.Span

/-!
# Record locks

`proc/flock.c`: `flock`, POSIX and OFD locks in one list, and the table of who waits
for whom.  A blocking call is a loop of polls; between two of them it sleeps, and
`asleep` keeps the request of every thread that does.
-/

namespace SamaraOS.Flock

open BitVec

abbrev U16 := BitVec 16
abbrev U32 := BitVec 32
abbrev U64 := BitVec 64

/-- The `void* own` of a lock: the fd table of a process or an open file. -/
inductive Owner where
  | table (sh : Nat)
  | file (f : Nat)
  deriving DecidableEq

inductive Kind where
  | flock | posix | ofd
  deriving DecidableEq

inductive LockType where
  | read | write
  deriving DecidableEq

@[ext]
structure Key where
  node : Nat
  kind : Kind
  own : Owner
  deriving DecidableEq

structure Lock extends Key where
  type : LockType
  pid : U32
  span : Span 64
  deriving DecidableEq

/-- A `flock` request is always for the whole file. -/
structure Request extends Key where
  type : LockType
  span : Span 64
  whole : kind = .flock → span = .full
  deriving DecidableEq

def clash (a : Lock) (r : Request) : Bool :=
  if a.own = r.own then false
  else if (a.kind == .flock) != (r.kind == .flock) then false
  else if a.type = .read ∧ r.type = .read then false
  else a.span.Meets r.span

def findClash (ls : List Lock) (r : Request) : Option Lock :=
  ls.find? fun l => l.node = r.node && clash l r

/-- The flag is false when there is no memory for the second half of a split lock. -/
def cut (mem : Bool) (k : Key) (r : Span 64) : List Lock → List Lock × Bool
  | [] => ([], true)
  | l :: ls =>
    if l.toKey ≠ k ∨ r.e < l.span.s ∨ l.span.e < r.s then
      (l :: (cut mem k r ls).1, (cut mem k r ls).2)
    else if hs : l.span.s < r.s then
      if he : r.e < l.span.e then
        if mem then
          ({ l with span := l.span.before r.s hs } ::
            { l with span := l.span.after r.e he } :: ls, true)
        else (l :: ls, false)
      else
        ({ l with span := l.span.before r.s hs } :: (cut mem k r ls).1, (cut mem k r ls).2)
    else if he : r.e < l.span.e then
      ({ l with span := l.span.after r.e he } :: (cut mem k r ls).1, (cut mem k r ls).2)
    else cut mem k r ls

def add (r : Request) (pid : U32) (ls : List Lock) : List Lock :=
  ⟨r.toKey, r.type, pid, r.span⟩ :: ls

abbrev WaitTable := List (Option (Owner × Owner))

def isOf (own : Owner) (w : Option (Owner × Owner)) : Bool := w.any fun x => x.1 = own

def waitSet (own on : Owner) (wt : WaitTable) : WaitTable :=
  match wt.findIdx? (isOf own) with
  | some i => wt.set i (some (own, on))
  | none =>
    match wt.findIdx? Option.isNone with
    | some fr => wt.set fr (some (own, on))
    | none => wt

def waitClr (own : Owner) (wt : WaitTable) : WaitTable :=
  wt.map fun w => if isOf own w then none else w

/-- The inner loop of `deadlock` runs over the whole table: the last entry counts. -/
def waitsOn (wt : WaitTable) (own : Owner) : Option Owner :=
  wt.reverse.findSome? fun w => if isOf own w then w.map Prod.snd else none

def walk (wt : WaitTable) (me : Owner) : Nat → Option Owner → Bool
  | 0, _ => false
  | _ + 1, none => false
  | d + 1, some on => on = me || walk wt me d (waitsOn wt on)

def deadlock (wt : WaitTable) (me on : Owner) : Bool := walk wt me 16 (some on)

inductive Errno where
  | eagain | ebadf | einval | eintr | enomem | edeadlk
  deriving DecidableEq

structure File where
  id : Nat
  isNode : Bool
  node : Nat
  flags : U32
  off : U64
  size : U64

structure FlockArg where
  type : U16
  whence : U16
  start : U64
  len : U64
  pid : U32
  deriving DecidableEq

inductive Order where
  | nothing
  | lock (r : Request) (wait : Bool)
  | unlock (k : Key) (span : Span 64)
  | query (r : Option Request) (u : FlockArg)

def flockOrder (f : File) (op : U32) : Except Errno Order :=
  let k : Key := ⟨f.node, .flock, .file f.id⟩
  let t := op &&& ~~~4
  let wait := op &&& 4 = 0
  if !f.isNode then .ok .nothing
  else if t = 8 then .ok (.unlock k .full)
  else if t = 1 then .ok (.lock ⟨k, .read, .full, fun _ => rfl⟩ wait)
  else if t = 2 then .ok (.lock ⟨k, .write, .full, fun _ => rfl⟩ wait)
  else .error .einval

def lockType (ty : U16) : Option (Option LockType) :=
  if ty = 0 then some (some .read)
  else if ty = 1 then some (some .write)
  else if ty = 2 then some none
  else none

def startOf (f : File) (u : FlockArg) : Option U64 :=
  if u.whence = 1 then some (u.start + f.off)
  else if u.whence = 2 then some (u.start + f.size)
  else if u.whence = 0 then some u.start
  else none

private theorem below_le {st len : U64} (hl : len.slt 0 = true)
    (hs : ¬ (st + len).slt 0 = true) (h : ¬ st.slt 0 = true) : st + len ≤ st - 1 := by
  simp only [slt_iff_toInt_lt, toInt_eq_toNat_cond] at hl hs h
  split_ifs at * <;> bv_omega

private theorem upto_le {st len : U64} (hl : ¬ len.slt 0 = true) (h : ¬ st.slt 0 = true)
    (h0 : len ≠ 0) : st ≤ st + len - 1 := by
  simp only [slt_iff_toInt_lt, toInt_eq_toNat_cond] at hl h
  split_ifs at * <;> bv_omega

def spanOf (st len : U64) : Option (Span 64) :=
  if hl : len.slt 0 then
    if hs : (st + len).slt 0 then none
    else if h : st.slt 0 then none
    else some ⟨st + len, st - 1, below_le hl hs h⟩
  else if h : st.slt 0 then none
  else if h0 : len = 0 then some ⟨st, allOnes 64, (Span.mem_full st).2⟩
  else some ⟨st, st + len - 1, upto_le hl h h0⟩

def accMode (f : File) : U32 := f.flags &&& 3

def fcntlKey (sh : Nat) (f : File) (cmd : Nat) : Key :=
  if 36 ≤ cmd then ⟨f.node, .ofd, .file f.id⟩ else ⟨f.node, .posix, .table sh⟩

private theorem fcntlKey_kind {sh : Nat} {f : File} {cmd : Nat} :
    (fcntlKey sh f cmd).kind ≠ .flock := by
  unfold fcntlKey
  split <;> simp

def fcntlRequest (sh : Nat) (f : File) (cmd : Nat) (type : LockType) (span : Span 64) : Request :=
  ⟨fcntlKey sh f cmd, type, span, fun h => absurd h fcntlKey_kind⟩

def fcntlOrder (sh : Nat) (f : File) (cmd : Nat) (u : FlockArg) : Except Errno Order := do
  if !f.isNode then throw .ebadf
  let some ty := lockType u.type | throw .einval
  if 36 ≤ cmd ∧ u.pid ≠ 0 then throw .einval
  let some st := startOf f u | throw .einval
  let some span := spanOf st u.len | throw .einval
  if cmd = 5 ∨ cmd = 12 ∨ cmd = 36 then
    return .query (ty.map fun type => fcntlRequest sh f cmd type span) u
  match ty with
  | none => return .unlock (fcntlKey sh f cmd) span
  | some type =>
    if type = .read ∧ accMode f = 1 then throw .ebadf
    if type = .write ∧ accMode f = 0 then throw .ebadf
    return .lock (fcntlRequest sh f cmd type span) (cmd = 7 ∨ cmd = 14 ∨ cmd = 38)

/-! ## Calls -/

structure Thread where
  sh : Nat
  id : Nat
  deriving DecidableEq

structure State where
  locks : List Lock
  wt : WaitTable
  asleep : Thread → Option Request

structure Env where
  cutMem : Bool
  addMem : Bool
  interrupted : Bool
  pid : U32

inductive Res where
  | ok
  | sleeps
  | info (u : FlockArg)
  | error (e : Errno)
  deriving DecidableEq

def State.wake (st : State) (t : Thread) (wt : WaitTable) : State :=
  { st with wt, asleep := fun t' => if t' = t then none else st.asleep t' }

def State.sleep (st : State) (t : Thread) (r : Request) (wt : WaitTable) : State :=
  { st with wt, asleep := fun t' => if t' = t then some r else st.asleep t' }

/-- The end of a call that got its lock.  `flk_flock` does not look at what `cut`
returns, a split never happens there. -/
def finish (env : Env) (st : State) (r : Request) : State × Res :=
  let (ls, ok) := cut env.cutMem r.toKey r.span st.locks
  if r.kind ≠ .flock ∧ ok = false then ({ st with locks := ls }, .error .enomem)
  else if env.addMem then ({ st with locks := add r env.pid ls }, .ok)
  else ({ st with locks := ls }, .error .enomem)

/-- One turn of the loop of `flk_wait`, and what follows it if it was the last. -/
def poll (env : Env) (st : State) (t : Thread) (r : Request) (wait : Bool) : State × Res :=
  match findClash st.locks r with
  | none => finish env (st.wake t (waitClr r.own st.wt)) r
  | some c =>
    if !wait then (st, .error .eagain)
    else if r.kind = .posix ∧ deadlock st.wt r.own c.own then
      (st.wake t (waitClr r.own st.wt), .error .edeadlk)
    else
      let wt := waitSet r.own c.own st.wt
      if env.interrupted then (st.wake t (waitClr r.own wt), .error .eintr)
      else (st.sleep t r wt, .sleeps)

def answer (ls : List Lock) (r : Option Request) (u : FlockArg) : FlockArg :=
  match r.bind (findClash ls) with
  | none => { u with type := 2 }
  | some c =>
    { type := if c.type = .read then 0 else 1
      whence := 0
      start := c.span.s
      len := if c.span.e = allOnes 64 then 0 else c.span.e - c.span.s + 1
      pid := if c.kind = .ofd then -1 else c.pid }

def perform (env : Env) (st : State) (t : Thread) : Order → State × Res
  | .nothing => (st, .ok)
  | .lock r wait => poll env st t r wait
  | .unlock k span =>
    let (ls, ok) := cut env.cutMem k span st.locks
    ({ st with locks := ls }, if ok then .ok else .error .enomem)
  | .query r u => (st, .info (answer st.locks r u))

def flkFlock (env : Env) (st : State) (t : Thread) (f : File) (op : U32) : State × Res :=
  match flockOrder f op with
  | .error e => (st, .error e)
  | .ok o => perform env st t o

def flkFcntl (env : Env) (st : State) (t : Thread) (f : File) (cmd : Nat) (u : FlockArg) :
    State × Res :=
  match fcntlOrder t.sh f cmd u with
  | .error e => (st, .error e)
  | .ok o => perform env st t o

def flkClose (env : Env) (st : State) (sh : Nat) (f : File) : State :=
  if f.isNode then
    { st with locks := (cut env.cutMem ⟨f.node, .posix, .table sh⟩ .full st.locks).1 }
  else st

def flkRelease (st : State) (f : File) : State :=
  { st with locks := st.locks.filter fun l => l.own ≠ .file f.id }

def flkExit (st : State) (sh : Nat) : State :=
  { st with
    wt := waitClr (.table sh) st.wt
    asleep := fun t => if t.sh = sh then none else st.asleep t }

inductive Event where
  | flock (t : Thread) (f : File) (op : U32)
  | fcntl (t : Thread) (f : File) (cmd : Nat) (u : FlockArg)
  | poll (t : Thread)
  | close (sh : Nat) (f : File)
  | release (f : File)
  | exit (sh : Nat)

def enabled (st : State) : Event → Bool
  | .flock t _ _ | .fcntl t _ _ _ => (st.asleep t).isNone
  | .poll t => (st.asleep t).isSome
  | _ => true

def step (env : Env) (st : State) : Event → State × Res
  | .flock t f op => flkFlock env st t f op
  | .fcntl t f cmd u => flkFcntl env st t f cmd u
  | .poll t =>
    match st.asleep t with
    | some r => poll env st t r true
    | none => (st, .ok)
  | .close sh f => (flkClose env st sh f, .ok)
  | .release f => (flkRelease st f, .ok)
  | .exit sh => (flkExit st sh, .ok)

def boot : State := ⟨[], List.replicate 32 none, fun _ => none⟩

def next (st : State) (x : Env × Event) : State :=
  if enabled st x.2 then (step x.1 st x.2).1 else st

def play (st : State) (evs : List (Env × Event)) : State := evs.foldl next st

end SamaraOS.Flock
