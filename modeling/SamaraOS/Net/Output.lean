import SamaraOS.Net.Segment

/-!
# TCP output

The scoreboard of what the peer sacked, the flight estimate, and `tcp_output`
of `net/sock.c`.  A round of its loop answers the connection it leaves behind
and whether the loop goes on: some rounds move `sndNxt` and then stop.
-/

namespace SamaraOS.Net

def sbInsert : List (U32 × U32) → U32 → U32 → Bool → List (U32 × U32)
  | [], a, b, done => if done then [] else [(a, b)]
  | (x, y) :: rest, a, b, done =>
    if sd y a < 0 then (x, y) :: sbInsert rest a b done
    else if 0 < sd x b then
      if done then (x, y) :: sbInsert rest a b true
      else (a, b) :: (x, y) :: sbInsert rest a b true
    else sbInsert rest (if sd x a < 0 then x else a)
      (if 0 < sd y b then y else b) done

def sbAdd (s : Sock) (r : U32 × U32) : Sock :=
  { s with sb :=
      if sd r.1 s.sndUna < 0 ∨ sd r.2 r.1 ≤ 0 ∨ 0 < sd r.2 s.sndMax then s.sb
      else (sbInsert s.sb r.1 r.2 false).take 8 }

def sbTrim (s : Sock) : Sock :=
  { s with sb := (s.sb.filter fun r => 0 < sd r.2 s.sndUna).map fun r =>
      (if sd r.1 s.sndUna < 0 then s.sndUna else r.1, r.2) }

def sackIn (s : Sock) (a b : U32) : U32 :=
  s.sb.foldl (fun t r =>
    let x := if sd r.1 a < 0 then a else r.1
    let y := if 0 < sd r.2 b then b else r.2
    if 0 < sd y x then t + (y - x) else t) 0

def sbHigh (s : Sock) : U32 := (s.sb.getLastD (0, 0)).2

def sackRecovering (s : Sock) : Bool :=
  s.cong.recov == .fast && s.sackOk && !s.sb.isEmpty

def flight (s : Sock) : U32 :=
  if sackRecovering s then
    let high := sbHigh s
    let lim := if sd s.cong.rexmitHi high < 0 then s.cong.rexmitHi else high
    let r := if 0 < sd lim s.sndUna then
        (lim - s.sndUna) - sackIn s s.sndUna lim
      else 0
    (s.sndMax - high) + r
  else
    let f := s.sndNxt - s.sndUna
    if s.sackOk then
      let k := sackIn s s.sndUna s.sndNxt
      if k < f then f - k else 0
    else f

/-! ## Sending -/

def armRto (e : Env) (s : Sock) : Sock :=
  s.setRtt (if s.rtt.timerOn then s.rtt
    else { s.rtt with timerOn := true, rtoAt := e.now + s.rtt.rto })

def retxLen (s : Sock) (seq last : U32) : Nat :=
  let ringEnd := s.txSeq + BitVec.ofNat 32 s.txLen
  min (if 0 < sd last ringEnd then ringEnd - seq else last - seq).toNat
    s.mss.toNat

def noteRetx (s : Sock) : Sock :=
  s.setRtt { s.rtt with nRetrans := s.rtt.nRetrans + 1, rttOn := false }

def retxOne (e : Env) (c : Conn) (seq last : U32) : Conn × Nat :=
  let ringEnd := c.s.txSeq + BitVec.ofNat 32 c.s.txLen
  if sd ringEnd seq ≤ 0 then (c, 0)
  else
    let n := retxLen c.s seq last
    let c := tcpSegment e c seq { ack := true } n
    ({ c with s := noteRetx c.s }, n)

def setRexmitHi (s : Sock) (hi : U32) : Sock := s.setCong { s.cong with rexmitHi := hi }

def sbHole : List (U32 × U32) → U32 → U32 × Option U32
  | [], a => (a, none)
  | (x, y) :: rest, a =>
    if sd a x < 0 then (a, some x)
    else sbHole rest (if sd a y < 0 then y else a)

def sackRetx (e : Env) (c : Conn) : Conn × Bool :=
  if sackRecovering c.s then
    let a := if 0 < sd c.s.cong.rexmitHi c.s.sndUna then c.s.cong.rexmitHi
      else c.s.sndUna
    match sbHole c.s.sb a with
    | (_, none) => (c, false)
    | (a, some last) =>
      if sd a (sbHigh c.s) < 0 then
        let (c, n) := retxOne e c a last
        if n = 0 then (c, false)
        else ({ c with s := armRto e (setRexmitHi c.s (a + BitVec.ofNat 32 n)) }, true)
      else (c, false)
  else (c, false)

def sackSkip (s : Sock) : Sock :=
  { s with sndNxt :=
      if s.cong.recov = .rto then
        s.sb.foldl (fun nxt r =>
          if 0 ≤ sd nxt r.1 ∧ sd nxt r.2 < 0 then r.2 else nxt) s.sndNxt
      else s.sndNxt }

def sentLen (s : Sock) : Nat :=
  let sent := (s.sndNxt - s.txSeq).toNat
  if s.finSent && sent != 0 then sent - 1 else sent

def chunkLen (s : Sock) : Nat :=
  let avail := s.txLen - sentLen s
  let used := (s.sndNxt - s.sndUna).toNat
  let inwnd := if s.sndWnd = 0 ∧ used = 0 then 1 else s.sndWnd.toNat - used
  min (min avail s.mss.toNat) inwnd

/-- Nagle, cork and silly-window avoidance: a short segment stays back. -/
def holdBack (s : Sock) (n avail : Nat) : Bool :=
  n < s.mss.toNat &&
    (if n == avail && !s.shutWr then
      s.cork || (!s.nodelay && s.sndUna != s.sndNxt)
    else n < avail && s.sndUna != s.sndNxt)

def noteSent (e : Env) (s : Sock) (n : Nat) : Sock :=
  let nxt := s.sndNxt + BitVec.ofNat 32 n
  let fresh : Bool := 0 ≤ sd s.sndNxt s.sndMax
  { s with sndNxt := nxt, sndMax := if fresh then nxt else s.sndMax }.setRtt
    (if fresh then
      if s.rtt.rttOn then s.rtt
      else { s.rtt with rttOn := true, rttSeq := nxt, rttT0 := e.now }
    else { s.rtt with nRetrans := s.rtt.nRetrans + 1, rttOn := false })

def touchTx (e : Env) (s : Sock) : Sock :=
  s.setRtt { s.rtt with lastTxMs := e.now }

def outData (e : Env) (c : Conn) (room : U32) : Conn × Bool :=
  let avail := c.s.txLen - sentLen c.s
  let n := chunkLen c.s
  if c.s.txLen ≤ sentLen c.s then (c, false)
  else if n = 0 ∨ room.toNat < n then (c, false)
  else if holdBack c.s n avail then (c, false)
  else
    let c := tcpSegment e c c.s.sndNxt { ack := true, psh := n == avail } n
    ({ c with s := touchTx e (armRto e (noteSent e c.s n)) }, true)

def outRound (e : Env) (c : Conn) : Conn × Bool :=
  let fl := flight c.s
  let room := if fl < c.s.cong.cwnd then c.s.cong.cwnd - fl else 0
  if room = 0 then (c, false)
  else
    let (c, again) := sackRetx e c
    if again then (c, true)
    else outData e { c with s := sackSkip c.s } room

def outLoop (e : Env) : Nat → Conn → Conn
  | 0, c => c
  | guard + 1, c =>
    let (c, again) := outRound e c
    if again then outLoop e guard c else c

def finState : TcpState → TcpState
  | .established => .finWait1
  | .closeWait => .lastAck
  | st => st

def noteFin (s : Sock) : Sock :=
  let nxt := s.sndNxt + 1
  { s with
    sndNxt := nxt
    sndMax := if 0 < sd nxt s.sndMax then nxt else s.sndMax
    finSent := true
    state := finState s.state }

def outFin (e : Env) (c : Conn) : Conn :=
  if c.s.shutWr && !c.s.finSent && sentLen c.s == c.s.txLen then
    let c := tcpSegment e c c.s.sndNxt { fin := true, ack := true } 0
    { c with s := armRto e (touchTx e (noteFin c.s)) }
  else c

def canSend : TcpState → Bool
  | .established | .closeWait | .finWait1 | .lastAck | .closing => true
  | _ => false

def tcpOutput (e : Env) (c : Conn) : Conn :=
  if canSend c.s.state then outFin e (outLoop e 1024 c) else c

end SamaraOS.Net
