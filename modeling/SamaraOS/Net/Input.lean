import SamaraOS.Net.Ack

/-!
# TCP input for one socket

What `tcp_in` of `net/sock.c` does once it has found a socket that is not
listening, in the order of the source: resets, the answer to our SYN,
timestamps, the acknowledgement, the data, the FIN, and output.  The listener a
handshake completes for is another socket; whether it takes the connection is
passed in, and whether the connection goes on its queue is passed out.
-/

namespace SamaraOS.Net

def freeSock (s : Sock) : Sock := { s with used := false }

def reapIfDone (e : Env) (s : Sock) : Sock :=
  { s with used :=
      if s.refs ≤ 0 ∧ s.parent = none ∧ (s.state = .closed ∨
          (s.state = .timeWait ∧ s.deadlineMs ≤ e.now)) then false
      else s.used }

def toClosed (s : Sock) : Sock :=
  (s.setState .closed).setRtt { s.rtt with timerOn := false }

def tcpKill (e : Env) (s : Sock) (err : Option Errno) : Sock :=
  let s := toClosed { s with err := err }
  if s.parent.isSome then freeSock (s.setParent none) else reapIfDone e s

def rstIn (e : Env) (s : Sock) (h : Hdr) : Sock :=
  if s.state = .synSent then
    if h.fl.ack then tcpKill e s (some .econnrefused) else s
  else if s.state ≠ .timeWait ∧ s.state ≠ .closed then
    tcpKill e s (some .econnreset)
  else tcpKill e s s.err

def peerMss (o : TOpt) (rip : Addr) : Nat :=
  min (if o.mss = 0 then 536 else o.mss) (linkMss rip)

def stripMss (pm : Nat) (ts : Bool) : U16 :=
  BitVec.ofInt 16 ((pm : Int) - if ts then 12 else 0)

def synOpts (s : Sock) (o : TOpt) : Sock :=
  let ts := s.tsOk && o.ts
  { s with
    tsOk := ts
    tsRecent := if ts then o.tsval else s.tsRecent
    sackOk := s.sackOk && o.sackok
    wsOk := s.wsOk && o.ws.isSome
    rcvWs := if o.ws.isSome then s.rcvWs else 0
    sndWs := o.ws.getD 0
    mss := stripMss (peerMss o s.rip) ts }

def synSentIn (e : Env) (c : Conn) (h : Hdr) (o : TOpt) : Conn :=
  if h.fl.syn && h.fl.ack && h.ack == c.s.sndNxt then
    let s := synOpts c.s o
    let t := if s.rtt.retries = 0 then rttSample s.rtt (e.now - s.rtt.rttT0) else s.rtt
    let s := { s with
      rcvNxt := h.seq + 1
      sndUna := h.ack
      sndWnd := h.win.zeroExtend 32
      state := .established }
    let s := s.setRtt { t with rto := rtoCalc t, timerOn := false, retries := 0 }
    let c := { c with s := ccInit (s.setKa { s.ka with lastRxMs := e.now }) }
    tcpOutput e (tcpSegment e c c.s.sndNxt { ack := true } 0)
  else c

def notePeer (e : Env) (s : Sock) : Sock :=
  s.setKa { s.ka with lastRxMs := e.now, kaN := 0 }

def pawsOld (s : Sock) (o : TOpt) : Bool :=
  s.tsOk && o.ts && s.tsRecent != 0 && sd o.tsval s.tsRecent < 0

def noteTs (s : Sock) (h : Hdr) (o : TOpt) : Sock :=
  { s with tsRecent :=
      if s.tsOk && o.ts && sd h.seq s.rcvNxt ≤ 0 then o.tsval else s.tsRecent }

def hdrWnd (s : Sock) (h : Hdr) : U32 :=
  if h.fl.syn then h.win.zeroExtend 32 else h.win.zeroExtend 32 <<< s.sndWs

inductive AckRes where
  | go (c : Conn) (queued : Bool)
  | stop (c : Conn)

def estAck (e : Env) (c : Conn) (h : Hdr) (parentOk : Bool) : AckRes :=
  if c.s.state = .synRcvd ∧ h.ack = c.s.sndNxt then
    let c := { c with s := c.s.setState .established }
    if parentOk then .go c true
    else
      let c := { c with s := c.s.setParent none }
      let c := tcpSegment e c c.s.sndNxt { rst := true } 0
      .stop { c with s := freeSock c.s }
  else .go c false

def finAck (e : Env) (c : Conn) (queued : Bool) : AckRes :=
  if c.s.finSent ∧ c.s.sndUna = c.s.sndNxt then
    match c.s.state with
    | .finWait1 => .go { c with s := c.s.setState .finWait2 } queued
    | .closing => .go { c with s := { c.s.setState .timeWait with
        deadlineMs := e.now + 1000 } } queued
    | .lastAck => .stop { c with s := reapIfDone e (toClosed c.s) }
    | _ => .go c queued
  else .go c queued

def ackPart (e : Env) (c : Conn) (h : Hdr) (o : TOpt) (parentOk : Bool) : AckRes :=
  if h.fl.ack then
    match estAck e (tcpAckIn e c h.ack (hdrWnd c.s h) h.data.length o) h parentOk with
    | .go c queued => finAck e c queued
    | .stop c => .stop c
  else .go c false

def oooMerge : List (U32 × U32) → U32 → U32 → List (U32 × U32) × U32 × U32
  | [], a, b => ([], a, b)
  | (x, y) :: rest, a, b =>
    if sd y a < 0 ∨ 0 < sd x b then
      let (kept, a, b) := oooMerge rest a b
      ((x, y) :: kept, a, b)
    else oooMerge rest (if sd x a < 0 then x else a) (if 0 < sd y b then y else b)

def oooAdd (s : Sock) (a b : U32) : Sock :=
  let (kept, a, b) := oooMerge s.ooo a b
  { s with ooo := ((a, b) :: kept).take 6 }

def oooReady (nxt : U32) : List (U32 × U32) → Option ((U32 × U32) × List (U32 × U32))
  | [] => none
  | r :: rest =>
    if 0 < sd r.1 nxt then
      (oooReady nxt rest).map fun (p, others) => (p, r :: others)
    else some (r, rest)

def absorb : Nat → Sock → Sock
  | 0, s => s
  | fuel + 1, s =>
    match oooReady s.rcvNxt s.ooo with
    | none => s
    | some (r, others) =>
      let adv := if 0 < sd r.2 s.rcvNxt then (r.2 - s.rcvNxt).toNat else 0
      absorb fuel { s with
        rxCount := (s.rxCount + adv) % 2 ^ 32
        rcvNxt := s.rcvNxt + BitVec.ofNat 32 adv
        ooo := others }

def ackData (e : Env) (a : AckSt) (hole more : Bool) : AckSt :=
  let a := { a with ackSegs := a.ackSegs + 1 }
  if hole || more || 2 ≤ a.ackSegs then { a with ackNow := true }
  else if a.quick ≠ 0 then { a with quick := a.quick - 1, ackNow := true }
  else if a.ackAt = 0 then { a with ackAt := e.now + 40 }
  else a

def takeData (e : Env) (s : Sock) (seq : U32) (off : Nat) (data : List U8) : Sock :=
  let pos := (s.rxHead + s.rxCount + off) % s.rxCap
  let s := { s with rx := Ring.write s.rx s.rxCap pos data }
  if off = 0 then
    let hole := !s.ooo.isEmpty
    let s := { s with
      rxCount := (s.rxCount + data.length) % 2 ^ 32
      rcvNxt := s.rcvNxt + BitVec.ofNat 32 data.length }
    let s := absorb s.ooo.length s
    s.setAck (ackData e s.ack hole (!s.ooo.isEmpty))
  else setAckNow (oooAdd s seq (seq + BitVec.ofNat 32 data.length))

structure DataRes where
  s : Sock
  seq : U32
  dlen : Nat
  fin : Bool

def takesData : TcpState → Bool
  | .established | .finWait1 | .finWait2 => true
  | _ => false

def dataPart (e : Env) (s : Sock) (h : Hdr) : DataRes :=
  if h.data.isEmpty || !takesData s.state then ⟨s, h.seq, h.data.length, h.fl.fin⟩
  else
    let fr := sub32 s.rxCap s.rxCount
    let off := sd h.seq s.rcvNxt
    let cut := (-off).toNat
    if h.data.length ≤ cut then ⟨setAckNow s, h.seq, 0, h.fl.fin⟩
    else
      let data := h.data.drop cut
      let seq := h.seq + BitVec.ofNat 32 cut
      let off := off.toNat
      if fr ≤ off then ⟨setAckNow s, seq, 0, false⟩
      else
        let fin := h.fl.fin && off + data.length ≤ fr
        let data := data.take (fr - off)
        ⟨takeData e s seq off data, seq, data.length, fin⟩

def finRcvState (s : Sock) : TcpState :=
  match s.state with
  | .established => .closeWait
  | .finWait1 => if s.sndUna = s.sndNxt then .timeWait else .closing
  | .finWait2 => .timeWait
  | st => st

def finPart (e : Env) (r : DataRes) : Sock :=
  let s := r.s
  if r.fin then
    if r.seq + BitVec.ofNat 32 r.dlen = s.rcvNxt ∧ s.finRcvd = false ∧
        takesData s.state = true then
      let st := finRcvState s
      setAckNow { s with
        rcvNxt := s.rcvNxt + 1
        finRcvd := true
        state := st
        deadlineMs := if st = .timeWait then e.now + 1000 else s.deadlineMs }
    else if s.finRcvd then setAckNow s else s
  else s

def outPart (e : Env) (c : Conn) : Conn :=
  let c := tcpOutput e c
  if c.s.ack.ackNow && c.s.state != .closed then
    tcpSegment e c c.s.sndMax { ack := true } 0
  else c

/-- A segment for a socket that is not listening; `true` puts it on the queue. -/
def sockIn (e : Env) (c : Conn) (h : Hdr) (parentOk : Bool) : Conn × Bool :=
  let o := parseOpts h.opts
  if h.fl.rst then ({ c with s := rstIn e c.s h }, false)
  else if c.s.state = .synSent then (synSentIn e c h o, false)
  else
    let s := notePeer e c.s
    if pawsOld s o then (outPart e { c with s := setAckNow s }, false)
    else
      let s := noteTs s h o
      if h.fl.syn && s.state != .synRcvd then (outPart e { c with s := setAckNow s }, false)
      else
        match ackPart e { c with s := s } h o parentOk with
        | .stop c => (c, false)
        | .go c queued =>
          (outPart e { c with s := finPart e (dataPart e c.s h) }, queued)

end SamaraOS.Net
