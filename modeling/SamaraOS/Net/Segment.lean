import SamaraOS.Net.Sock

/-!
# Building a segment

`tcp_segment` of `net/sock.c`: the option block, the length of the header and
the payload copied out of the send ring.  The call is recorded with the socket
it was made on.
-/

namespace SamaraOS.Net

def netRxwnd (e : Env) (dst : U32) : Nat :=
  if dst >>> 24 = 127#32 then 2 ^ 20
  else if e.e1000 dst then 192 * 1024 else 48 * 1024

def wndCap (e : Env) (s : Sock) : Nat :=
  if is4 s.rip then netRxwnd e (un4 s.rip)
  else if s.rip = 1 then netRxwnd e 0x7F000001#32 else netRxwnd e 0

def rxWindow (e : Env) (s : Sock) : Nat :=
  let fr := sub32 s.rxCap s.rxCount
  let w := min fr (wndCap e s)
  w / 2 ^ s.rcvWs * 2 ^ s.rcvWs

def put32 (v : U32) : List U8 :=
  [v.extractLsb' 24 8, v.extractLsb' 16 8, v.extractLsb' 8 8, v.extractLsb' 0 8]

def tsOption (s : Sock) (now : U32) : List U8 :=
  [8, 10] ++ put32 (now + 1) ++ put32 s.tsRecent

def synOptions (s : Sock) (now : U32) : List U8 :=
  let mss := BitVec.ofNat 16 (linkMss s.rip)
  [2, 4, mss.extractLsb' 8 8, mss.extractLsb' 0 8] ++
    (if s.tsOk then (if s.sackOk then [4, 2] else [1, 1]) ++ tsOption s now
      else if s.sackOk then [4, 2, 1, 1] else []) ++
    (if s.wsOk then [1, 3, 3, BitVec.ofNat 8 s.rcvWs] else [])

def sackOptions (s : Sock) : List U8 :=
  let n := min s.ooo.length (if s.tsOk then 3 else 4)
  [1, 1, 5, BitVec.ofNat 8 (2 + 8 * n)] ++
    (s.ooo.take n).flatMap fun r => put32 r.1 ++ put32 r.2

def segOptions (s : Sock) (now : U32) (fl : Flags) (len : Nat) : List U8 :=
  if fl.syn then synOptions s now
  else
    (if s.tsOk then [1, 1] ++ tsOption s now else []) ++
      (if s.sackOk && !s.ooo.isEmpty && len == 0 then sackOptions s else [])

def headerLen (s : Sock) (now : U32) (fl : Flags) (len : Nat) : Nat :=
  20 + (segOptions s now fl len).length

def segData (s : Sock) (seq : U32) (len : Nat) : List U8 :=
  let pos := (s.txHead + (seq - s.txSeq).toNat) % 2 ^ 32 % s.txCap
  Ring.read s.tx s.txCap pos len

def SegCall.hl (k : SegCall) : Nat := headerLen k.s k.now k.fl k.len

/-- Without a large buffer `tcp_segment` gives up before it touches the socket. -/
def segBuilt (e : Env) (c : Conn) (len : Nat) : Bool :=
  len ≤ mssMax || e.bufOk c.calls.length

def segAck (e : Env) (s : Sock) (fl : Flags) (len : Nat) : AckSt :=
  let a := { s.ack with advWnd := BitVec.ofNat 32 (rxWindow e s) }
  let a := if fl.ack then
      { a with ackNow := false, ackAt := 0, ackSegs := 0, lastAckMs := e.now }
    else a
  if len = 0 then a else { a with lastDataMs := e.now }

def tcpSegment (e : Env) (c : Conn) (seq : U32) (fl : Flags) (len : Nat) : Conn :=
  { s := c.s.setAck (if segBuilt e c len then segAck e c.s fl len else c.s.ack)
    calls := c.calls ++ [⟨c.s, seq, fl, len, e.now⟩] }

end SamaraOS.Net
