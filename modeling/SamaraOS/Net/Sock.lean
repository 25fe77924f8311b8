import SamaraOS.Lib.Serial
import SamaraOS.Lib.Ring

/-!
# Sockets

The socket record of `net/sock.c` as far as the TCP code reads it, the clock and
memory the code consults, and the parsed form of an incoming segment.  Fields
that only congestion control, round-trip timing, acknowledgement scheduling or
keepalive touch are grouped, so that the functions on them leave the rest of the
socket alone by construction.
-/

namespace SamaraOS.Net

abbrev U8 := BitVec 8

abbrev U16 := BitVec 16

abbrev U32 := Serial.Num

abbrev Addr := BitVec 128

abbrev maxSocks : Nat := 1024

instance : NeZero maxSocks := ⟨by decide⟩

abbrev Slot := Fin maxSocks

def bufDef : Nat := 128 * 1024

def bufMax : Nat := 4 * 1024 * 1024

def bufMin : Nat := 16 * 1024

def mssMax : Nat := 1460

def loMss : Nat := 16000

def acceptMax : Nat := 64

def bigBuf : Nat := 16448

inductive TcpState where
  | closed | listen | synSent | synRcvd | established | finWait1
  | finWait2 | closing | timeWait | closeWait | lastAck
  deriving DecidableEq, Repr

inductive SockType where
  | stream | dgram | raw
  deriving DecidableEq, Repr

inductive Recovery where
  | no | fast | rto
  deriving DecidableEq, Repr

inductive CcAlg where
  | reno | cubic
  deriving DecidableEq, Repr

inductive Errno where
  | econnreset | etimedout | econnrefused
  deriving DecidableEq, Repr

structure Flags where
  fin : Bool := false
  syn : Bool := false
  rst : Bool := false
  psh : Bool := false
  ack : Bool := false
  deriving DecidableEq, Repr

def Flags.ofByte (b : U8) : Flags :=
  ⟨b.getLsbD 0, b.getLsbD 1, b.getLsbD 2, b.getLsbD 3, b.getLsbD 4⟩

structure Cong where
  cwnd : U32 := 0
  ssthresh : U32 := 0
  recover : U32 := 0
  rexmitHi : U32 := 0
  dupacks : U32 := 0
  ackedAcc : U32 := 0
  recov : Recovery := .no
  cc : CcAlg := .reno
  cbWmax : U32 := 0
  cbK : U32 := 0
  cbT0 : U32 := 0
  cbCnt : U32 := 0

structure Rtt where
  srtt : U32 := 0
  rttvar : U32 := 0
  rto : U32 := 1000
  rttSeq : U32 := 0
  rttT0 : U32 := 0
  rttOn : Bool := false
  timerOn : Bool := false
  rtoAt : U32 := 0
  retries : Nat := 0
  nRetrans : U32 := 0
  lastTxMs : U32 := 0

structure AckSt where
  advWnd : U32 := 0
  ackNow : Bool := false
  ackAt : U32 := 0
  ackSegs : U8 := 0
  quick : U8 := 0
  lastAckMs : U32 := 0
  lastDataMs : U32 := 0

structure KeepAlive where
  kaOn : Bool := false
  kaIdle : U32 := 7200
  kaIntvl : U32 := 75
  kaCnt : Nat := 9
  lastRxMs : U32 := 0
  kaAt : U32 := 0
  kaN : Nat := 0

/--
The defaults are what `alloc_sock` leaves after its `memset`.  A null `rx` is a
zero `rxCap`: the code sets and clears the two together.
-/
structure Sock where
  used : Bool := false
  refs : Int := 0
  type : SockType := .stream
  state : TcpState := .closed
  af : Nat := 0
  v6only : Bool := false
  lip : Addr := 0
  rip : Addr := 0
  lport : U16 := 0
  rport : U16 := 0
  bound : Bool := false
  err : Option Errno := none
  iss : U32 := 0
  sndUna : U32 := 0
  sndNxt : U32 := 0
  sndMax : U32 := 0
  rcvNxt : U32 := 0
  txSeq : U32 := 0
  sndWnd : U32 := 0
  sndWs : Nat := 0
  rcvWs : Nat := 0
  wsOk : Bool := false
  tsOk : Bool := false
  sackOk : Bool := false
  mss : U16 := 536
  tsRecent : U32 := 0
  rx : Nat → U8 := fun _ => 0
  rxCap : Nat := 0
  rxHead : Nat := 0
  rxCount : Nat := 0
  tx : Nat → U8 := fun _ => 0
  txCap : Nat := 0
  txHead : Nat := 0
  txLen : Nat := 0
  ooo : List (U32 × U32) := []
  sb : List (U32 × U32) := []
  finRcvd : Bool := false
  shutWr : Bool := false
  finSent : Bool := false
  deadlineMs : U32 := 0
  nodelay : Bool := false
  cork : Bool := false
  wantRx : Nat := 0
  wantTx : Nat := 0
  parent : Option Slot := none
  acceptq : List Slot := []
  backlog : Nat := 0
  cong : Cong := {}
  rtt : Rtt := {}
  ack : AckSt := {}
  ka : KeepAlive := {}

def Sock.setCong (s : Sock) (cong : Cong) : Sock := { s with cong := cong }

def Sock.setRtt (s : Sock) (rtt : Rtt) : Sock := { s with rtt := rtt }

def Sock.setAck (s : Sock) (ack : AckSt) : Sock := { s with ack := ack }

def Sock.setKa (s : Sock) (ka : KeepAlive) : Sock := { s with ka := ka }

def Sock.setState (s : Sock) (state : TcpState) : Sock := { s with state := state }

def Sock.setParent (s : Sock) (parent : Option Slot) : Sock := { s with parent := parent }

def Sock.setRefs (s : Sock) (refs : Int) : Sock := { s with refs := refs }

def Sock.setWnd (s : Sock) (wnd : U32) : Sock := { s with sndWnd := wnd }

/-- What the code asks for: the clock, whether the n-th large buffer and the n-th ring of one call
are to be had, which destinations leave through an e1000, and the address to send from. -/
structure Env where
  now : U32
  bufOk : Nat → Bool
  e1000 : U32 → Bool
  memOk : Nat → Bool
  src4 : U32 → U32
  src6 : Addr → Option Addr

/-- One call of `tcp_segment`, with the socket as it was on entry. -/
structure SegCall where
  s : Sock
  seq : U32
  fl : Flags
  len : Nat
  now : U32

structure Conn where
  s : Sock
  calls : List SegCall

def sd (a b : U32) : Int := Serial.diff a b

def sub32 (a b : Nat) : Nat := (2 ^ 32 - b % 2 ^ 32 + a) % 2 ^ 32

def un4 (a : Addr) : U32 := a.extractLsb' 0 32

def is4 (a : Addr) : Bool := a.extractLsb' 32 96 == 0xFFFF#96

def zero16 (a : Addr) : Bool := a == 0

def map4 (ip : U32) : Addr := (0xFFFF#96) ++ ip

def isLo (a : Addr) : Bool := is4 a && un4 a >>> 24 == 127#32

def linkMss (rip : Addr) : Nat :=
  if isLo rip then loMss else if is4 rip then mssMax else mssMax - 20

def dstOk (s : Sock) (dst : Addr) : Bool :=
  if zero16 s.lip then
    if s.af = 10 then !is4 dst || !s.v6only else is4 dst
  else s.lip == dst

structure Hdr where
  sport : U16
  dport : U16
  seq : U32
  ack : U32
  fl : Flags
  win : U16
  opts : List U8
  data : List U8

def be16 (p : List U8) (i : Nat) : U16 := p.getD i 0 ++ p.getD (i + 1) 0

def be32 (p : List U8) (i : Nat) : U32 := be16 p i ++ be16 p (i + 2)

def parseHdr (seg : List U8) : Option Hdr :=
  if seg.length < 20 then none
  else
    let hl := (seg.getD 12 0).toNat / 16 * 4
    if hl < 20 || seg.length < hl then none
    else some
      { sport := be16 seg 0
        dport := be16 seg 2
        seq := be32 seg 4
        ack := be32 seg 8
        fl := Flags.ofByte (seg.getD 13 0)
        win := be16 seg 14
        opts := (seg.drop 20).take (hl - 20)
        data := seg.drop hl }

end SamaraOS.Net
