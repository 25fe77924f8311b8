import SamaraOS.Net.Options
import SamaraOS.Net.Output

/-!
# Acknowledgements

Round-trip timing, congestion control and `tcp_ack_in` of `net/sock.c`.
-/

namespace SamaraOS.Net

def icbrtLoop (x : Nat) : Nat → Nat → Nat → Nat
  | 0, lo, _ => lo
  | fuel + 1, lo, hi =>
    if lo < hi then
      let m := (lo + hi + 1) / 2
      if m * m * m ≤ x then icbrtLoop x fuel m hi else icbrtLoop x fuel lo (m - 1)
    else lo

def icbrt (x : Nat) : U32 := BitVec.ofNat 32 (icbrtLoop x 21 0 (2 ^ 20))

def rtoCalc (r : Rtt) : U32 :=
  if r.srtt = 0 then 1000
  else
    let v := r.srtt + (if 4 < r.rttvar * 4 then r.rttvar * 4 else 4)
    if v < 200 then 200 else if 30000 < v then 30000 else v

def rttSample (t : Rtt) (r : U32) : Rtt :=
  let r := if r = 0 then 1 else r
  if t.srtt = 0 then
    { t with srtt := r, rttvar := if r / 2 = 0 then 1 else r / 2 }
  else
    let d := if t.srtt < r then r - t.srtt else t.srtt - r
    let srtt := (7 * t.srtt + r) / 8
    { t with rttvar := (3 * t.rttvar + d) / 4, srtt := if srtt = 0 then 1 else srtt }

def mss32 (s : Sock) : U32 := s.mss.zeroExtend 32

def ccLoss (s : Sock) (fl : U32) : Cong :=
  let c := s.cong
  let c := match c.cc with
    | .cubic => { c with cbWmax := c.cwnd / mss32 s, cbT0 := 0, ssthresh := fl / 10 * 7 }
    | .reno => { c with ssthresh := fl / 2 }
  if c.ssthresh < 2 * mss32 s then { c with ssthresh := 2 * mss32 s } else c

def cubicStart (c : Cong) (cur now : U32) : Cong :=
  if c.cbT0 = 0 then
    let c := { c with cbT0 := if now = 0 then 1 else now, cbCnt := 0 }
    if c.cbWmax ≤ cur then { c with cbK := 0, cbWmax := cur }
    else { c with cbK := icbrt ((c.cbWmax - cur).toNat * 2500000000) }
  else c

def cubicCnt (c : Cong) (cur now srtt : U32) : U32 :=
  let dt : BitVec 64 := (now - c.cbT0 + srtt).zeroExtend 64 - c.cbK.zeroExtend 64
  let tgt := c.cbWmax.zeroExtend 64 + (4 * dt * dt * dt).sdiv 10000000000
  let cnt := if (cur.zeroExtend 64).slt tgt then
      cur / (tgt - cur.zeroExtend 64).truncate 32
    else 100 * cur
  if cnt < 2 then 2 else cnt

def cubicGrow (s : Sock) (acked now : U32) : Cong :=
  let cur := s.cong.cwnd / mss32 s
  let c := cubicStart s.cong cur now
  let cnt := cubicCnt c cur now s.rtt.srtt
  let seen := c.cbCnt + (if acked / mss32 s = 0 then 1 else acked / mss32 s)
  if cnt ≤ seen then { c with cbCnt := 0, cwnd := c.cwnd + mss32 s }
  else { c with cbCnt := seen }

def renoGrow (s : Sock) (acked : U32) : Cong :=
  let c := { s.cong with ackedAcc := s.cong.ackedAcc + acked }
  if c.cwnd ≤ c.ackedAcc then
    { c with ackedAcc := c.ackedAcc - c.cwnd, cwnd := c.cwnd + mss32 s }
  else c

def ccGrow (s : Sock) (acked now : U32) : Cong :=
  if s.cong.cwnd < s.cong.ssthresh then
    { s.cong with cwnd := s.cong.cwnd + (if acked < mss32 s then acked else mss32 s) }
  else
    let c := match s.cong.cc with
      | .reno => renoGrow s acked
      | .cubic => cubicGrow s acked now
    if 0x4000000#32 < c.cwnd then { c with cwnd := 0x4000000#32 } else c

def ccInit (s : Sock) : Sock :=
  (s.setCong { s.cong with
    cwnd := 10 * mss32 s, ssthresh := 0x40000000, recov := .no }).setAck
      { s.ack with quick := 16 }

def setAckNow (s : Sock) : Sock := s.setAck { s.ack with ackNow := true }

def enterRec (e : Env) (c : Conn) : Conn :=
  let s := c.s
  let cong := ccLoss s (flight s)
  let s := s.setCong { cong with
    recover := s.sndMax
    recov := .fast
    cwnd := if s.sackOk then cong.ssthresh else cong.ssthresh + 3 * mss32 s }
  let first := (s.sb.headD (0, 0)).1
  let last := if !s.sb.isEmpty && 0 < sd first s.sndUna then first else s.sndMax
  let (c, n) := retxOne e { c with s := s } s.sndUna last
  let s := setRexmitHi c.s (s.sndUna + BitVec.ofNat 32 n)
  { c with s := s.setRtt { s.rtt with timerOn := true, rtoAt := e.now + s.rtt.rto } }

def dupAckIn (e : Env) (c : Conn) (wnd : U32) (dlen : Nat) (o : TOpt) : Conn :=
  let s := c.s
  if s.state = .synRcvd then c
  else
    let dup := dlen == 0 && s.sndMax != s.sndUna && (wnd == s.sndWnd || !o.sack.isEmpty)
    let s := s.setWnd wnd
    if !dup then { c with s := s }
    else
      let s := s.setCong { s.cong with dupacks := s.cong.dupacks + 1 }
      match s.cong.recov with
      | .no =>
        if 3 ≤ s.cong.dupacks ∨
            (s.sackOk ∧ 3 * mss32 s ≤ sackIn s s.sndUna s.sndMax) then
          enterRec e { c with s := s }
        else { c with s := s }
      | .fast =>
        if s.sackOk then { c with s := s }
        else { c with s := s.setCong { s.cong with cwnd := s.cong.cwnd + mss32 s } }
      | .rto => { c with s := s }

def ackRtt (e : Env) (s : Sock) (ack : U32) (o : TOpt) : Rtt :=
  let t := s.rtt
  let r := e.now + 1 - o.tsecr
  let t :=
    if o.ts && s.tsOk && o.tsecr != 0 then
      if r < 60000 then rttSample t r else t
    else if t.rttOn && 0 ≤ sd ack t.rttSeq then rttSample t (e.now - t.rttT0)
    else t
  let t := if t.rttOn && 0 ≤ sd ack t.rttSeq then { t with rttOn := false } else t
  let t := { t with rto := rtoCalc t }
  if ack = s.sndMax then { t with timerOn := false }
  else { t with timerOn := true, rtoAt := e.now + t.rto }

def ackRing (s : Sock) (ack : U32) : Sock :=
  let d := min (if 0 < sd ack s.txSeq then (ack - s.txSeq).toNat else 0) s.txLen
  { s with
    txHead := (s.txHead + d) % s.txCap
    txLen := s.txLen - d
    txSeq := s.txSeq + BitVec.ofNat 32 d
    sndUna := ack
    sndNxt := if sd s.sndNxt ack < 0 then ack else s.sndNxt }

def ackRecovery (e : Env) (c : Conn) (ack acked : U32) : Conn :=
  let s := c.s
  match s.cong.recov with
  | .fast =>
    if 0 ≤ sd ack s.cong.recover then
      { c with s := s.setCong { s.cong with
          recov := .no, cwnd := s.cong.ssthresh, ackedAcc := 0, cbT0 := 0 } }
    else
      let (c, hi) :=
        if !s.sackOk || s.sb.isEmpty then
          let (c, n) := retxOne e c ack s.sndMax
          let last := ack + BitVec.ofNat 32 n
          (c, if 0 < sd last s.cong.rexmitHi then last else s.cong.rexmitHi)
        else (c, s.cong.rexmitHi)
      let cwnd :=
        if s.sackOk then s.cong.cwnd
        else if acked < s.cong.cwnd then s.cong.cwnd - acked + mss32 s
        else mss32 s
      { c with s := c.s.setCong { c.s.cong with rexmitHi := hi, cwnd := cwnd } }
  | r =>
    let s := if r = .rto ∧ 0 ≤ sd ack s.cong.recover then
        s.setCong { s.cong with recov := .no }
      else s
    { c with s := s.setCong (ccGrow s acked e.now) }

def sackAll (s : Sock) (o : TOpt) : Sock :=
  if s.sackOk then o.sack.foldl sbAdd s else s

def tcpAckIn (e : Env) (c : Conn) (ack wnd : U32) (dlen : Nat) (o : TOpt) : Conn :=
  if sd ack c.s.sndUna < 0 then c
  else if 0 < sd ack c.s.sndMax then
    { c with s := setAckNow c.s }
  else
    let s := sackAll c.s o
    if ack = s.sndUna then dupAckIn e { c with s := s } wnd dlen o
    else
      let acked := ack - s.sndUna
      let s := sbTrim (ackRing s ack)
      let s := (s.setWnd wnd).setCong { s.cong with dupacks := 0 }
      let s := s.setRtt { s.rtt with retries := 0 }
      let s := s.setRtt (ackRtt e s ack o)
      ackRecovery e { c with s := s } ack acked

end SamaraOS.Net
