import SamaraOS.Net.Input

/-!
# The socket calls and the timer of one socket

What the system calls of `net/sock.c` do to a stream socket, and the body of the
loop of `sock_tick`.  A call that may sleep is modelled from one wakeup to the
next: `sockSend` is one round of the loop of `sock_send`, and a blocking send is
a series of them on what is left of its buffer.
-/

namespace SamaraOS.Net

def bufClamp (v : Nat) : Nat :=
  if v < bufMin then bufMin else if bufMax < v then bufMax else v

def setbufRx (ok : Bool) (s : Sock) (rc : Nat) : Sock :=
  if rc ≠ s.rxCap ∧ s.rxCount ≤ rc ∧ ok then
    { s with
      rx := Ring.unroll s.rx s.rxCap s.rxHead s.rxCount
      rxCap := rc
      rxHead := 0
      ooo := [] }
  else s

def setbufTx (ok : Bool) (s : Sock) (tc : Nat) : Sock :=
  if tc ≠ s.txCap ∧ s.txLen ≤ tc ∧ ok then
    { s with
      tx := Ring.unroll s.tx s.txCap s.txHead s.txLen
      txCap := tc
      txHead := 0 }
  else s

def tcpSetbuf (e : Env) (s : Sock) (rc tc : Nat) : Sock :=
  if s.rxCap = 0 then s
  else setbufTx (e.memOk 3) (setbufRx (e.memOk 2) s (bufClamp rc)) (bufClamp tc)

def allocSock (e : Env) (type : SockType) (af : Nat) : Option Sock :=
  let s : Sock := { used := true, type := type, af := af, refs := 1 }
  match type with
  | .stream =>
    if e.memOk 0 && e.memOk 1 then some { s with rxCap := bufDef, txCap := bufDef }
    else none
  | _ => some s

/-! ## Opening -/

def clearErr (s : Sock) : Sock := { s with err := none }

def passiveIss (e : Env) (slot : Slot) : U32 :=
  0x20000000 + e.now * 64 + BitVec.ofNat 32 slot * 4096

def answerSock (c l : Sock) (iss : U32) (parent : Slot) (src dst : Addr) (h : Hdr) : Sock :=
  let c := { c with
    refs := 0
    parent := some parent
    lip := dst
    lport := h.dport
    rip := src
    rport := h.sport
    iss := iss
    sndUna := iss
    sndNxt := iss + 1
    sndMax := iss + 1
    txSeq := iss + 1
    rcvNxt := h.seq + 1
    sndWnd := h.win.zeroExtend 32
    nodelay := l.nodelay }
  (c.setCong { c.cong with cc := l.cong.cc }).setKa { c.ka with
    kaOn := l.ka.kaOn, kaIdle := l.ka.kaIdle, kaIntvl := l.ka.kaIntvl, kaCnt := l.ka.kaCnt }

def setWant (s : Sock) (rx tx : Nat) : Sock := { s with wantRx := rx, wantTx := tx }

def passiveBuf (e : Env) (c l : Sock) (src : Addr) : Sock :=
  if isLo src && l.wantRx == 0 && l.wantTx == 0 then tcpSetbuf e c (2 ^ 20) (2 ^ 20)
  else if l.wantRx != 0 || l.wantTx != 0 then
    tcpSetbuf e (setWant c l.wantRx l.wantTx)
      (if l.wantRx = 0 then bufDef else l.wantRx)
      (if l.wantTx = 0 then bufDef else l.wantTx)
  else c

def passiveOpts (c : Sock) (o : TOpt) (src : Addr) : Sock :=
  { c with
    tsOk := o.ts
    tsRecent := o.tsval
    sackOk := o.sackok
    wsOk := o.ws.isSome
    sndWs := o.ws.getD 0
    rcvWs := if o.ws.isSome then 7 else 0
    mss := stripMss (peerMss o src) o.ts }

def passiveSock (e : Env) (c l : Sock) (slot parent : Slot) (src dst : Addr) (h : Hdr) : Sock :=
  let c := passiveBuf e (answerSock c l (passiveIss e slot) parent src dst h) l src
  let c := (ccInit (passiveOpts c (parseOpts h.opts) src)).setState .synRcvd
  c.setKa { c.ka with lastRxMs := e.now }

def passiveOpen (e : Env) (c l : Sock) (slot parent : Slot) (src dst : Addr) (h : Hdr) : Conn :=
  let s := passiveSock e c l slot parent src dst h
  let c := tcpSegment e ⟨s, []⟩ s.iss { syn := true, ack := true } 0
  let t := { c.s.rtt with rto := 1000, timerOn := true, rtoAt := e.now + 1000 }
  { c with s := c.s.setRtt t }

def connectIss (e : Env) (slot : Slot) : U32 :=
  0x10000000 + e.now * 64 + BitVec.ofNat 32 slot * 4096

def dialSock (s : Sock) (iss : U32) (ip : Addr) (port : U16) (lip : Addr) (lport : U16) : Sock :=
  { s with
    bound := true
    lip := lip
    lport := lport
    rip := ip
    rport := port
    iss := iss
    sndUna := iss
    sndNxt := iss + 1
    sndMax := iss + 1
    txSeq := iss + 1
    wsOk := true
    tsOk := true
    sackOk := true
    rcvWs := 7 }

def connectBuf (e : Env) (s : Sock) (ip : Addr) : Sock :=
  if isLo ip && s.wantRx == 0 && s.wantTx == 0 then tcpSetbuf e s (2 ^ 20) (2 ^ 20) else s

def synTimer (e : Env) (s : Sock) : Sock :=
  s.setRtt { s.rtt with
    retries := 0, rttT0 := e.now, rto := 1000, timerOn := true, rtoAt := e.now + 1000 }

/-- `sock_connect` once the local address and port are settled. -/
def sockConnect (e : Env) (c : Conn) (slot : Slot) (ip : Addr) (port : U16) (lip : Addr)
    (lport : U16) : Conn :=
  if c.s.state = .closed then
    let s := connectBuf e (dialSock c.s (connectIss e slot) ip port lip lport) ip
    let s := synTimer e (clearErr (s.setState .synSent))
    tcpSegment e { c with s := s } (connectIss e slot) { syn := true } 0
  else c

def listenSock (s : Sock) (lip : Addr) (lport : U16) (backlog : Nat) : Sock :=
  { s with
    bound := true
    lip := lip
    lport := lport
    state := .listen
    rxCap := 0
    txCap := 0
    backlog := backlog }

def sockListen (c : Conn) (lip : Addr) (lport : U16) (backlog : Int) : Conn :=
  if c.s.state = .closed ∨ c.s.state = .listen then
    { c with s := listenSock c.s lip lport (if backlog ≤ 0 then 1
        else if acceptMax < backlog then acceptMax else backlog.toNat) }
  else c

inductive SendRes where
  | notConn
  | failed (err : Errno)
  | pipe
  | again
  | put (n : Nat)

def putTx (s : Sock) (buf : List U8) : Sock :=
  let n := min buf.length (sub32 s.txCap s.txLen)
  let pos := (s.txHead + s.txLen) % s.txCap
  { s with
    tx := Ring.write s.tx s.txCap pos (buf.take n)
    txLen := (s.txLen + n) % 2 ^ 32 }

def sockSend (e : Env) (c : Conn) (buf : List U8) : Conn × SendRes :=
  if c.s.state = .synSent ∨ c.s.state = .synRcvd then (c, .notConn)
  else if buf.isEmpty then (c, .put 0)
  else match c.s.err with
    | some err => ({ c with s := clearErr c.s }, .failed err)
    | none =>
      if c.s.shutWr ∨ (c.s.state ≠ .established ∧ c.s.state ≠ .closeWait) then (c, .pipe)
      else
        let room := sub32 c.s.txCap c.s.txLen
        if room = 0 then (c, .again)
        else (tcpOutput e { c with s := putTx c.s buf }, .put (min buf.length room))

inductive RecvRes where
  | notConn
  | again
  | failed (err : Errno)
  | eof
  | got (data : List U8)
  deriving DecidableEq

def dropRx (s : Sock) (n : Nat) : Sock :=
  { s with rxHead := (s.rxHead + n) % s.rxCap, rxCount := s.rxCount - n }

def takeRx (e : Env) (c : Conn) (n : Nat) : Conn :=
  let c := { c with s := dropRx c.s n }
  if c.s.state ≠ .closed ∧ c.s.ack.advWnd + 2 * mss32 c.s ≤ BitVec.ofNat 32 (rxWindow e c.s) then
    tcpSegment e c c.s.sndMax { ack := true } 0
  else c

def sockRecv (e : Env) (c : Conn) (len : Nat) (peek : Bool) : Conn × RecvRes :=
  if c.s.state = .listen ∨ c.s.state = .synSent then (c, .notConn)
  else if c.s.rxCount = 0 then
    match c.s.err with
    | some err => ({ c with s := clearErr c.s }, .failed err)
    | none =>
      if c.s.finRcvd ∨ c.s.state = .closed then (c, .eof) else (c, .again)
  else
    let n := min c.s.rxCount len
    let data := Ring.read c.s.rx c.s.rxCap c.s.rxHead n
    (if peek then c else takeRx e c n, .got data)

def shutSock (s : Sock) : Sock := { s with shutWr := true }

def sockShutdown (e : Env) (c : Conn) (how : Int) : Conn :=
  match c.s.state with
  | .established | .closeWait | .finWait1 | .finWait2 =>
    if how = 1 ∨ how = 2 then tcpOutput e { c with s := shutSock c.s }
    else c
  | _ => c

def sockClose (e : Env) (c : Conn) : Conn :=
  let c := { c with s := c.s.setRefs (c.s.refs - 1) }
  if 0 < c.s.refs then c
  else if c.s.type ≠ .stream ∨ c.s.state = .closed ∨ c.s.state = .synSent then
    { c with s := freeSock c.s }
  else
    let c := tcpOutput e { c with s := shutSock c.s }
    { c with s := reapIfDone e c.s }

inductive SockOpt where
  | keepalive (val : Int)
  | sndbuf (val : Int)
  | rcvbuf (val : Int)
  | nodelay (val : Int)
  | cork (val : Int)
  | keepidle (val : Int)
  | keepintvl (val : Int)
  | keepcnt (val : Int)
  | maxseg (val : Int)

def dblClamp (val : Int) : Nat := bufClamp (val * 2 % 2 ^ 32).toNat

def setMss (s : Sock) (mss : U16) : Sock := { s with mss := mss }

def setNodelay (s : Sock) (on : Bool) : Sock := { s with nodelay := on }

def setCork (s : Sock) (on : Bool) : Sock := { s with cork := on }

def sockOpt (e : Env) (c : Conn) (o : SockOpt) : Conn :=
  let s := c.s
  match o with
  | .keepalive val => { c with s := s.setKa { s.ka with kaOn := val ≠ 0 } }
  | .sndbuf val =>
    { c with s := tcpSetbuf e (setWant s s.wantRx (dblClamp val)) s.rxCap (dblClamp val) }
  | .rcvbuf val =>
    { c with s := tcpSetbuf e (setWant s (dblClamp val) s.wantTx) (dblClamp val) s.txCap }
  | .nodelay val =>
    let c := { c with s := setNodelay s (val ≠ 0) }
    if val ≠ 0 then tcpOutput e c else c
  | .cork val =>
    let c := { c with s := setCork s (val ≠ 0) }
    if val = 0 then tcpOutput e c else c
  | .keepidle val => { c with s := s.setKa { s.ka with
      kaIdle := if 0 < val then BitVec.ofInt 32 val else s.ka.kaIdle } }
  | .keepintvl val => { c with s := s.setKa { s.ka with
      kaIntvl := if 0 < val then BitVec.ofInt 32 val else s.ka.kaIntvl } }
  | .keepcnt val => { c with s := s.setKa { s.ka with
      kaCnt := if 0 < val then val.toNat else s.ka.kaCnt } }
  | .maxseg val =>
    if 64 ≤ val ∧ val < s.mss.toNat then { c with s := setMss s (BitVec.ofInt 16 val) } else c

def sockSetcc (c : Conn) (cc : CcAlg) : Conn :=
  { c with s := c.s.setCong { c.s.cong with cc := cc } }

def sockTakeError (c : Conn) : Conn × Option Errno :=
  ({ c with s := clearErr c.s }, c.s.err)

/-! ## The timer -/

def isSyn (s : Sock) : Bool := s.state == .synSent || s.state == .synRcvd

def probing (s : Sock) : Bool := !isSyn s && s.sndWnd == 0

def gaveUp (s : Sock) : Bool :=
  !probing s && (if isSyn s then 6 else 12) < s.rtt.retries + 1

def lossCong (s : Sock) : Cong :=
  { ccLoss s (if s.cong.recov = .no then flight s else s.cong.ssthresh * 2) with
    cwnd := mss32 s, recover := s.sndMax, recov := .rto, ackedAcc := 0 }

def rewindState (s : Sock) : TcpState :=
  if s.finSent then
    match s.state with
    | .finWait1 => .established
    | .lastAck => .closeWait
    | .closing => .established
    | st => st
  else s.state

def rewind (s : Sock) : Sock :=
  let cong := if probing s then s.cong else lossCong s
  let s' := { s with
    sb := if !probing s && 2 ≤ s.rtt.retries then [] else s.sb
    sndNxt := s.sndUna
    finSent := false
    state := rewindState s }
  (s'.setCong { cong with dupacks := 0 }).setRtt { s.rtt with rttOn := false }

def backOff (e : Env) (t : Rtt) : Rtt :=
  let rto := if 30000 < t.rto * 2 then 30000 else t.rto * 2
  { t with rto := rto, rtoAt := e.now + rto, lastTxMs := e.now }

def rtoFire (e : Env) (c : Conn) : Conn :=
  let give := gaveUp c.s
  let c := { c with s := c.s.setRtt { c.s.rtt with
    retries := if probing c.s then c.s.rtt.retries else c.s.rtt.retries + 1 } }
  if give then
    let c := if c.s.state = .synSent then c
      else tcpSegment e c c.s.sndNxt { rst := true } 0
    { c with s := tcpKill e c.s (some .etimedout) }
  else
    let c := { c with s := c.s.setRtt (backOff e c.s.rtt) }
    match c.s.state with
    | .synSent => tcpSegment e c c.s.iss { syn := true } 0
    | .synRcvd => tcpSegment e c c.s.iss { syn := true, ack := true } 0
    | _ => tcpOutput e { c with s := rewind c.s }

def kaDue (e : Env) (s : Sock) : Bool :=
  s.ka.kaOn && s.sndUna == s.sndMax && !isSyn s &&
    (if s.ka.kaN = 0 then s.ka.kaIdle * 1000 ≤ e.now - s.ka.lastRxMs
      else 0 ≤ sd e.now s.ka.kaAt)

def kaFire (e : Env) (c : Conn) : Conn :=
  if c.s.ka.kaCnt ≤ c.s.ka.kaN then
    let c := tcpSegment e c c.s.sndNxt { rst := true } 0
    { c with s := tcpKill e c.s (some .etimedout) }
  else
    let c := tcpSegment e c (c.s.sndNxt - 1) { ack := true } 0
    { c with s := c.s.setKa { c.s.ka with
        kaN := c.s.ka.kaN + 1, kaAt := e.now + c.s.ka.kaIntvl * 1000 } }

def ackDue (e : Env) (s : Sock) : Bool := s.ack.ackAt != 0 && 0 ≤ sd e.now s.ack.ackAt

def rtoDue (e : Env) (s : Sock) : Bool := s.rtt.timerOn && 0 ≤ sd e.now s.rtt.rtoAt

def ackTick (e : Env) (c : Conn) : Conn :=
  if ackDue e c.s then tcpSegment e c c.s.sndMax { ack := true } 0 else c

def liveTick (e : Env) (c : Conn) : Conn :=
  if rtoDue e c.s then rtoFire e c
  else if kaDue e c.s then kaFire e c
  else c

def tickSock (e : Env) (c : Conn) : Conn :=
  match c.s.state with
  | .timeWait =>
    if c.s.deadlineMs ≤ e.now then
      { c with s := reapIfDone e (c.s.setState .closed) }
    else c
  | .closed | .listen => c
  | _ => liveTick e (ackTick e c)

inductive Event where
  | segment (h : Hdr) (parentOk : Bool)
  | tick
  | connect (slot : Slot) (ip : Addr) (port : U16) (lip : Addr) (lport : U16)
  | listen (lip : Addr) (lport : U16) (backlog : Int)
  | bind (lip : Addr) (lport : U16)
  | send (buf : List U8)
  | recv (len : Nat) (peek : Bool)
  | shutdown (how : Int)
  | opt (o : SockOpt)
  | setcc (cc : CcAlg)
  | takeError
  | ref
  | close
  | unref
  | queue (q : List Slot)
  | free
  | accepted
  | orphaned
  | reset
  | dropped

/-- The last seven are one socket's share in the calls on a listener: its reference count, its
queue and its end, and what `sock_accept`, `free_sock` and `sock_close` do to who waits. -/
def stepConn (e : Env) (c : Conn) : Event → Conn
  | .segment h parentOk => (sockIn e c h parentOk).1
  | .tick => tickSock e c
  | .connect slot ip port lip lport => sockConnect e c slot ip port lip lport
  | .listen lip lport backlog => sockListen c lip lport backlog
  | .bind lip lport =>
    { c with s := { c.s with lip := lip, lport := lport, bound := true } }
  | .send buf => (sockSend e c buf).1
  | .recv len peek => (sockRecv e c len peek).1
  | .shutdown how => sockShutdown e c how
  | .opt o => sockOpt e c o
  | .setcc cc => sockSetcc c cc
  | .takeError => (sockTakeError c).1
  | .ref => { c with s := c.s.setRefs (c.s.refs + 1) }
  | .close => sockClose e c
  | .unref => { c with s := c.s.setRefs (c.s.refs - 1) }
  | .queue q => { c with s := { c.s with acceptq := q } }
  | .free => { c with s := freeSock c.s }
  | .accepted => { c with s := (c.s.setParent none).setRefs 1 }
  | .orphaned => { c with s := (c.s.setParent none).setRefs 0 }
  | .reset =>
    let c := { c with s := c.s.setParent none }
    let c := tcpSegment e c c.s.sndNxt { rst := true } 0
    { c with s := freeSock c.s }
  | .dropped => { c with s := freeSock (c.s.setParent none) }

end SamaraOS.Net
