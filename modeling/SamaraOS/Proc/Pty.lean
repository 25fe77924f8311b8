import SamaraOS.Lib.Ring

/-!
# Pseudo-terminals

The master's bytes go through the line discipline: in canonical mode they are collected in an
edit line, and a newline or the end-of-file character moves the whole line to the ring that the
slave reads.  `pty_write` accepts a byte while that ring has more than two free cells, however
long the edit line is, and `ring_put` drops what does not fit.
-/

namespace SamaraOS.Terminal

abbrev Byte := Nat

def ptyBuf : Nat := 4096

structure RingBuf (α : Type) where
  b : Nat → α
  h : Nat
  t : Nat
  n : Nat
  t_lt : t < ptyBuf
  h_eq : h = (t + n) % ptyBuf
  n_le : n ≤ ptyBuf

namespace RingBuf

variable {α : Type}

def empty (x : α) : RingBuf α := ⟨fun _ => x, 0, 0, 0, by decide, by decide, by decide⟩

def space (r : RingBuf α) : Nat := ptyBuf - r.n

def contents (r : RingBuf α) : List α := Ring.read r.b ptyBuf r.t r.n

theorem put_h (r : RingBuf α) : (r.h + 1) % ptyBuf = (r.t + (r.n + 1)) % ptyBuf := by
  rw [r.h_eq, Nat.mod_add_mod, Nat.add_assoc]

theorem get_h (r : RingBuf α) (hn : 0 < r.n) : r.h = ((r.t + 1) % ptyBuf + (r.n - 1)) % ptyBuf := by
  rw [r.h_eq, Nat.mod_add_mod, show r.t + 1 + (r.n - 1) = r.t + r.n by omega]

/-- `ring_put`: a full ring drops the byte. -/
def put (r : RingBuf α) (c : α) : RingBuf α :=
  if hn : r.n = ptyBuf then r
  else ⟨Ring.write r.b ptyBuf r.h [c], (r.h + 1) % ptyBuf, r.t, r.n + 1, r.t_lt, put_h r, by
    have := r.n_le
    omega⟩

def get (r : RingBuf α) (hn : 0 < r.n) : α × RingBuf α :=
  (r.b r.t, ⟨r.b, r.h, (r.t + 1) % ptyBuf, r.n - 1, Nat.mod_lt _ (by decide), get_h r hn, by
    have := r.n_le
    omega⟩)

section

variable (r : RingBuf α)

@[simp] theorem length_contents : r.contents.length = r.n :=
  Ring.length_read _ _ _ _

theorem contents_put {r : RingBuf α} (hn : r.n < ptyBuf) (c : α) :
    (r.put c).contents = r.contents ++ [c] := by
  rw [put, dif_neg (by omega)]
  change Ring.read (Ring.write r.b ptyBuf r.h [c]) ptyBuf r.t (r.n + 1) = _
  rw [r.h_eq]
  exact Ring.read_write r.b r.t_lt (Nat.succ_le_of_lt hn)

theorem put_full {r : RingBuf α} (hn : r.n = ptyBuf) (c : α) : r.put c = r := by
  rw [put, dif_pos hn]

theorem n_put {r : RingBuf α} (hn : r.n < ptyBuf) (c : α) : (r.put c).n = r.n + 1 := by
  rw [put, dif_neg (by omega)]

theorem contents_put_eq (c : α) :
    (r.put c).contents = r.contents ++ [c] ∨ (r.put c).contents = r.contents := by
  have hle := r.n_le
  rcases Nat.lt_or_ge r.n ptyBuf with hn | hn
  · exact .inl (contents_put hn c)
  · exact .inr (by rw [put_full (by omega)])

theorem contents_get (hn : 0 < r.n) : r.contents = (r.get hn).1 :: (r.get hn).2.contents := by
  have hsplit := Ring.read_add r.b r.t_lt (show 1 + (r.n - 1) ≤ ptyBuf from by
    have := r.n_le
    omega)
  rw [show 1 + (r.n - 1) = r.n by omega] at hsplit
  rw [contents, hsplit]
  have hone : Ring.read r.b ptyBuf r.t 1 = [r.b r.t] := by
    rw [Ring.read_eq_slice r.b (by have := r.t_lt; omega)]
    simp [Ring.slice]
  rw [hone]
  rfl

end

def putAll (r : RingBuf α) (cs : List α) : RingBuf α := cs.foldl put r

theorem contents_putAll {r : RingBuf α} {cs : List α} (hn : r.n + cs.length ≤ ptyBuf) :
    (r.putAll cs).contents = r.contents ++ cs := by
  induction cs generalizing r with
  | nil => simp [putAll]
  | cons c cs ih =>
    rw [List.length_cons] at hn
    have hlt : r.n < ptyBuf := by omega
    have hput := n_put hlt c
    change ((r.put c).putAll cs).contents = _
    rw [ih (by omega), contents_put hlt, List.append_assoc, List.singleton_append]

end RingBuf

structure Termios where
  igncr : Bool
  icrnl : Bool
  inlcr : Bool
  isig : Bool
  icanon : Bool
  echo : Bool
  echoctl : Bool
  opost : Bool
  onlcr : Bool
  vintr : Byte
  vquit : Byte
  verase : Byte
  vkill : Byte
  veof : Byte

inductive Origin
  | echo
  | slave
deriving DecidableEq

structure Pty where
  input : RingBuf Byte
  out : RingBuf (Origin × Byte)
  line : List Byte
  eof : Nat

def ptyAlloc : Pty := ⟨RingBuf.empty 0, RingBuf.empty (.echo, 0), [], 0⟩

def lineSize : Nat := 256

def nl : Byte := 10
def cr : Byte := 13

def post (tio : Termios) (c : Byte) : List Byte :=
  if tio.opost && tio.onlcr && c == nl then [cr, c] else [c]

def outChar (tio : Termios) (o : Origin) (p : Pty) (c : Byte) : Pty :=
  { p with out := p.out.putAll ((post tio c).map fun x => (o, x)) }

def echoChar (tio : Termios) (p : Pty) (c : Byte) : Pty :=
  if tio.echoctl && c < 0x20 && c != nl && c != 9 && c != cr then
    outChar tio .echo (outChar tio .echo p 94) (c + 64)
  else outChar tio .echo p c

def flushLine (p : Pty) : Pty := { p with input := p.input.putAll p.line, line := [] }

def rubOut (tio : Termios) (p : Pty) : Pty :=
  outChar tio .echo (outChar tio .echo (outChar tio .echo p 8) 32) 8

def echoIf (tio : Termios) (f : Pty → Pty) (p : Pty) : Pty := if tio.echo then f p else p

def eraseOne (tio : Termios) (p : Pty) : Pty :=
  echoIf tio (rubOut tio) { p with line := p.line.dropLast }

def eraseAll (tio : Termios) : Nat → Pty → Pty
  | 0, p => p
  | k + 1, p => eraseAll tio k (eraseOne tio p)

def mapInput (tio : Termios) (c : Byte) : Option Byte :=
  if c == cr && tio.igncr then none
  else if c == cr && tio.icrnl then some nl
  else if c == nl && tio.inlcr then some cr
  else some c

def signals (tio : Termios) (c : Byte) : Bool :=
  tio.isig && (c == tio.vintr || c == tio.vquit || c == 0x1A) && c != 0

def inputChar (tio : Termios) (p : Pty) (c : Byte) : Pty :=
  match mapInput tio c with
  | none => p
  | some c =>
    if signals tio c then
      { echoIf tio (fun p => outChar tio .echo (echoChar tio p c) nl) p with line := [] }
    else if tio.icanon = false then
      echoIf tio (fun p => echoChar tio p c) { p with input := p.input.put c }
    else if c = tio.verase ∨ c = 8 then
      if 0 < p.line.length then eraseOne tio p else p
    else if c = tio.vkill then eraseAll tio p.line.length p
    else if c = tio.veof then
      if 0 < p.line.length then flushLine p else { p with eof := p.eof + 1 }
    else if c = nl then
      flushLine (echoIf tio (fun p => outChar tio .echo p nl)
        (if p.line.length < lineSize then { p with line := p.line ++ [c] } else p))
    else if p.line.length < lineSize - 1 then
      echoIf tio (fun p => echoChar tio p c) { p with line := p.line ++ [c] }
    else p

/-- The master's loop in `pty_write`: the terminal and the bytes accepted. -/
def ptyWriteIn (tio : Termios) : List Byte → Pty → Pty × List Byte
  | [], p => (p, [])
  | c :: cs, p =>
    if 2 < p.input.space then
      let r := ptyWriteIn tio cs (inputChar tio p c)
      (r.1, c :: r.2)
    else (p, [])

def ptyWriteOut (tio : Termios) : List Byte → Pty → Pty × List Byte
  | [], p => (p, [])
  | c :: cs, p =>
    if 2 < p.out.space then
      let r := ptyWriteOut tio cs (outChar tio .slave p c)
      (r.1, c :: r.2)
    else (p, [])

def takeOut {α : Type} (last : α → Bool) : Nat → RingBuf α → List α × RingBuf α
  | 0, r => ([], r)
  | n + 1, r =>
    if hn : 0 < r.n then
      let g := r.get hn
      if last g.1 then ([g.1], g.2)
      else
        let s := takeOut last n g.2
        (g.1 :: s.1, s.2)
    else ([], r)

structure Session where
  pty : Pty
  /-- what `pty_write` on the master reported as accepted -/
  accepted : List Byte
  /-- what `pty_read` on the slave returned -/
  received : List Byte
  /-- what `pty_write` on the slave reported as accepted -/
  written : List Byte
  /-- what `pty_read` on the master returned -/
  shown : List (Origin × Byte)

def Session.start : Session := ⟨ptyAlloc, [], [], [], []⟩

/-- One pass through the loop of a call, with interrupts off.  A call that has to wait comes back
with the rest of its buffer. -/
inductive Op
  | masterWrite (buf : List Byte)
  | slaveWrite (buf : List Byte)
  | slaveRead (n : Nat)
  | masterRead (n : Nat)

def slaveRead (tio : Termios) (n : Nat) (p : Pty) : Pty × List Byte :=
  if 0 < n ∧ p.input.n = 0 ∧ tio.icanon = true ∧ 0 < p.eof then
    ({ p with eof := p.eof - 1 }, [])
  else
    let r := takeOut (fun c => tio.icanon && c == nl) n p.input
    ({ p with input := r.2 }, r.1)

def step (tio : Termios) (w : Session) : Op → Session
  | .masterWrite buf =>
    let r := ptyWriteIn tio buf w.pty
    { w with pty := r.1, accepted := w.accepted ++ r.2 }
  | .slaveWrite buf =>
    let r := ptyWriteOut tio buf w.pty
    { w with pty := r.1, written := w.written ++ r.2 }
  | .slaveRead n =>
    let r := slaveRead tio n w.pty
    { w with pty := r.1, received := w.received ++ r.2 }
  | .masterRead n =>
    let r := takeOut (fun _ => false) n w.pty.out
    { w with pty := { w.pty with out := r.2 }, shown := w.shown ++ r.1 }

def run (tio : Termios) (w : Session) (ops : List Op) : Session := ops.foldl (step tio) w

/-! ## What the line discipline keeps

The discipline on its own, with nothing between it and the reader: what a byte hands over, and
the edit line it leaves. -/

def cook (tio : Termios) (line : List Byte) (c : Byte) : List Byte × List Byte :=
  match mapInput tio c with
  | none => ([], line)
  | some c =>
    if signals tio c then ([], [])
    else if tio.icanon = false then ([c], line)
    else if c = tio.verase ∨ c = 8 then ([], line.dropLast)
    else if c = tio.vkill then ([], [])
    else if c = tio.veof then (line, [])
    else if c = nl then (line ++ [nl], [])
    else if line.length < lineSize - 1 then ([], line ++ [c])
    else ([], line)

def cookAll (tio : Termios) (s : List Byte × List Byte) (cs : List Byte) : List Byte × List Byte :=
  cs.foldl (fun s c => (s.1 ++ (cook tio s.2 c).1, (cook tio s.2 c).2)) s

def ofSlave (bytes : List (Origin × Byte)) : List Byte :=
  (bytes.filter fun x => x.1 == .slave).map Prod.snd

/-- What `c` hands over fits into the ring: only a newline or an end-of-file character that moves
an edit line can fail to. -/
def Fits (tio : Termios) (p : Pty) (c : Byte) : Prop :=
  p.input.n + (cook tio p.line c).1.length ≤ ptyBuf

def FeedFits (tio : Termios) : List Byte → Pty → Prop
  | [], _ => True
  | c :: cs, p => 2 < p.input.space → Fits tio p c ∧ FeedFits tio cs (inputChar tio p c)

def OpFits (tio : Termios) (w : Session) : Op → Prop
  | .masterWrite buf => FeedFits tio buf w.pty
  | _ => True

def RunFits (tio : Termios) : Session → List Op → Prop
  | _, [] => True
  | w, op :: ops => OpFits tio w op ∧ RunFits tio (step tio w op) ops

end SamaraOS.Terminal
