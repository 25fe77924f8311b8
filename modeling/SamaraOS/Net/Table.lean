import SamaraOS.Net.Api

/-!
# The socket table

The array `socks` of `net/sock.c`: which socket a segment is for, the accept
queue of a listener, ports, and the calls that touch more than one socket.
Each slot carries the log of what its socket handed to `tcp_segment`.
-/

namespace SamaraOS.Net

structure Table where
  conns : Slot → Conn
  nextEph : U16
  rsts : List SegCall

def Table.init : Table := ⟨fun _ => ⟨{}, []⟩, 49152, []⟩

def Table.sock (t : Table) (i : Slot) : Sock := (t.conns i).s

def slots : List Slot := List.finRange maxSocks

def Table.set (t : Table) (i : Slot) (c : Conn) : Table :=
  { t with conns := Function.update t.conns i c }

/-- The last lines of `free_sock`: what waits on the queue belongs to no one. -/
def Table.orphan (e : Env) (t : Table) (q : List Slot) : Table :=
  q.foldl (fun t k => t.set k (stepConn e (t.conns k) .orphaned)) t

def Table.event (e : Env) (t : Table) (i : Slot) (ev : Event) : Table :=
  let c := stepConn e (t.conns i) ev
  if (t.sock i).used && !c.s.used then (t.set i c).orphan e c.s.acceptq else t.set i c

def portInUse (t : Table) (type : SockType) (port : U16) : Bool :=
  slots.any fun i =>
    let s := t.sock i
    s.used && s.type == type && s.lport == port && (s.bound || s.state == .listen)

def ephemeralLoop (t : Table) (type : SockType) : Nat → U16 → U16 × U16
  | 0, eph => (0, eph)
  | fuel + 1, eph =>
    let next := if eph + 1 < 49152 then 49152 else eph + 1
    if portInUse t type eph then ephemeralLoop t type fuel next else (eph, next)

def ephemeral (t : Table) (type : SockType) : U16 × U16 :=
  ephemeralLoop t type 16384 t.nextEph

def sockBind (e : Env) (t : Table) (i : Slot) (ip : Addr) (port : U16) : Option Table :=
  let s := t.sock i
  if s.bound then none
  else if s.type = .raw then some (t.event e i (.bind ip s.lport))
  else if port = 0 then
    let (port, next) := ephemeral t s.type
    some (Table.event e { t with nextEph := next } i (.bind ip port))
  else if portInUse t s.type port then none
  else some (t.event e i (.bind ip port))

def autoBind (e : Env) (t : Table) (i : Slot) : Table :=
  if (t.sock i).bound then t else (sockBind e t i 0 0).getD t

def connMatch (t : Table) (src : Addr) (sport : U16) (dst : Addr) (dport : U16) (i : Slot) : Bool :=
  let s := t.sock i
  s.used && s.type == .stream && s.lport == dport && s.state != .listen &&
    s.state != .closed && s.rport == sport && s.rip == src && dstOk s dst

def listenMatch (t : Table) (dst : Addr) (dport : U16) (i : Slot) : Bool :=
  let s := t.sock i
  s.used && s.type == .stream && s.lport == dport && s.state == .listen && dstOk s dst

def findTcp (t : Table) (src : Addr) (sport : U16) (dst : Addr) (dport : U16) : Option Slot :=
  match slots.find? (connMatch t src sport dst dport) with
  | some i => some i
  | none => (slots.filter (listenMatch t dst dport)).getLast?

def sendRst (e : Env) (t : Table) (src dst : Addr) (h : Hdr) : Table :=
  let tmp : Sock := { lip := dst, rip := src, lport := h.dport, rport := h.sport }
  let call : SegCall :=
    if h.fl.ack then ⟨tmp, h.ack, { rst := true }, 0, e.now⟩
    else
      let rcvNxt := h.seq + BitVec.ofNat 32 h.data.length +
        (if h.fl.syn then 1 else 0) + (if h.fl.fin then 1 else 0)
      ⟨{ tmp with rcvNxt := rcvNxt }, 0, { rst := true, ack := true }, 0, e.now⟩
  { t with rsts := t.rsts ++ [call] }

def pending (t : Table) (i : Slot) : Nat :=
  (t.sock i).acceptq.length + slots.countP fun j =>
    (t.sock j).used && (t.sock j).parent == some i && (t.sock j).state == .synRcvd

def freeSlot (t : Table) : Option Slot := slots.find? fun i => !(t.sock i).used

def listenIn (e : Env) (t : Table) (i : Slot) (src dst : Addr) (h : Hdr) : Table :=
  if h.fl.rst then t
  else if h.fl.ack then sendRst e t src dst h
  else if !h.fl.syn then t
  else if (t.sock i).backlog ≤ pending t i then t
  else match freeSlot t, allocSock e .stream (t.sock i).af with
    | some k, some s => t.set k (passiveOpen e s (t.sock i) k i src dst h)
    | _, _ => t

def parentTakes (t : Table) (i : Slot) : Bool :=
  match (t.sock i).parent with
  | none => false
  | some p =>
    (t.sock p).used && (t.sock p).state == .listen && (t.sock p).acceptq.length < acceptMax

def pushQueue (e : Env) (t : Table) (p i : Slot) : Table :=
  t.event e p (.queue ((t.sock p).acceptq ++ [i]))

def connIn (e : Env) (t : Table) (i : Slot) (h : Hdr) : Table :=
  let ok := parentTakes t i
  let t' := t.event e i (.segment h ok)
  match (sockIn e (t.conns i) h ok).2, (t.sock i).parent with
  | true, some p => pushQueue e t' p i
  | _, _ => t'

def tcpIn (e : Env) (t : Table) (src dst : Addr) (seg : List U8) : Table :=
  match parseHdr seg with
  | none => t
  | some h =>
    match findTcp t src h.sport dst h.dport with
    | none => if h.fl.rst then t else sendRst e t src dst h
    | some i =>
      if (t.sock i).state = .listen then listenIn e t i src dst h else connIn e t i h

def sockTick (e : Env) (t : Table) : Table :=
  slots.foldl (fun t i =>
    if (t.sock i).used && (t.sock i).type == .stream then t.event e i .tick else t) t

def sockCreate (e : Env) (t : Table) (type : SockType) (af : Nat) : Table :=
  match freeSlot t, allocSock e type af with
  | some k, some s => t.set k ⟨s, []⟩
  | _, _ => t

def connectSlot (e : Env) (t : Table) (i : Slot) (ip : Addr) (port : U16) : Table :=
  let s := t.sock i
  if s.type ≠ .stream ∨ s.state ≠ .closed then t
  else if is4 ip && s.af == 10 && s.v6only then t
  else if !is4 ip && (e.src6 ip).isNone then t
  else
    let t := autoBind e t i
    let s := t.sock i
    let lip :=
      if !is4 ip then
        if zero16 s.lip || is4 s.lip then (e.src6 ip).getD s.lip else s.lip
      else if zero16 s.lip || un4 ip >>> 24 == 127#32 then map4 (e.src4 (un4 ip))
      else s.lip
    t.event e i (.connect i ip port lip s.lport)

def listenSlot (e : Env) (t : Table) (i : Slot) (backlog : Int) : Table :=
  let s := t.sock i
  if s.type ≠ .stream ∨ (s.state ≠ .closed ∧ s.state ≠ .listen) then t
  else
    let t := autoBind e t i
    t.event e i (.listen (t.sock i).lip (t.sock i).lport backlog)

def sockAccept (e : Env) (t : Table) (i : Slot) : Table × Option Slot :=
  if (t.sock i).state ≠ .listen then (t, none)
  else match (t.sock i).acceptq with
    | [] => (t, none)
    | k :: rest => ((t.event e i (.queue rest)).event e k .accepted, some k)

def dropQueue (e : Env) (t : Table) (q : List Slot) : Table :=
  q.foldl (fun t k => t.event e k .reset) t

def dropChildren (e : Env) (t : Table) (i : Slot) : Table :=
  slots.foldl (fun t k =>
    if (t.sock k).used && (t.sock k).parent == some i then t.event e k .dropped else t) t

def closeListener (e : Env) (t : Table) (i : Slot) : Table :=
  let t := dropQueue e t (t.sock i).acceptq
  let t := t.event e i (.queue [])
  (dropChildren e t i).event e i .free

def closeSlot (e : Env) (t : Table) (i : Slot) : Table :=
  let s := t.sock i
  if s.type = .stream ∧ s.state = .listen then
    let t := t.event e i .unref
    if 0 < (t.sock i).refs then t else closeListener e t i
  else t.event e i .close

inductive Action where
  | segment (src dst : Addr) (seg : List U8)
  | tick
  | create (type : SockType) (af : Nat)
  | bind (i : Slot) (ip : Addr) (port : U16)
  | connect (i : Slot) (ip : Addr) (port : U16)
  | listen (i : Slot) (backlog : Int)
  | accept (i : Slot)
  | send (i : Slot) (buf : List U8)
  | recv (i : Slot) (len : Nat) (peek : Bool)
  | shutdown (i : Slot) (how : Int)
  | opt (i : Slot) (o : SockOpt)
  | setcc (i : Slot) (cc : CcAlg)
  | takeError (i : Slot)
  | ref (i : Slot)
  | close (i : Slot)

def Table.open (t : Table) (i : Slot) : Bool := (t.sock i).used && 0 < (t.sock i).refs

def Table.openStream (t : Table) (i : Slot) : Bool := t.open i && (t.sock i).type == .stream

def Table.step (e : Env) (t : Table) : Action → Table
  | .segment src dst seg => tcpIn e t src dst seg
  | .tick => sockTick e t
  | .create type af => sockCreate e t type af
  | .bind i ip port => if t.open i then (sockBind e t i ip port).getD t else t
  | .connect i ip port => if t.open i then connectSlot e t i ip port else t
  | .listen i backlog => if t.open i then listenSlot e t i backlog else t
  | .accept i => if t.open i then (sockAccept e t i).1 else t
  | .send i buf => if t.openStream i then t.event e i (.send buf) else t
  | .recv i len peek => if t.openStream i then t.event e i (.recv len peek) else t
  | .shutdown i how => if t.openStream i then t.event e i (.shutdown how) else t
  | .opt i o => if t.openStream i then t.event e i (.opt o) else t
  | .setcc i cc => if t.openStream i then t.event e i (.setcc cc) else t
  | .takeError i => if t.open i then t.event e i .takeError else t
  | .ref i => if t.open i then t.event e i .ref else t
  | .close i => if t.open i then closeSlot e t i else t

end SamaraOS.Net
