import SamaraOS.Net.Reassembly

/-!
# What a socket delivers

A run of one socket against a peer that sends one stream: segments carry slices of it in any
order, any number of times, between all other events.  What `sock_recv` returns is the stream from
its start, and it reports the end only when the FIN was reached and everything before it was
returned, unless the connection was reset or given up.
-/

namespace SamaraOS.Net

open Relation List

def peerDone : TcpState → Bool
  | .closeWait | .lastAck | .closing | .timeWait => true
  | _ => false

/-- What may happen once `done` bytes of the stream were returned.  A segment carries a slice
within half the sequence space of the next byte, a connection is opened where nothing of an
earlier one is left, and the socket does not become a listener. -/
def Peer.Allows (p : Peer) (done : Nat) (s : Sock) : Event → Prop
  | .segment h _ =>
    (synAckFor s h = true → h.seq + 1 = p.first) ∧
      (linked s.state = true → h.data ≠ [] ∨ h.fl.fin = true → ∃ i, Slice p h i ∧
        i < done + s.rxCount + 2 ^ 31 ∧ done + s.rxCount < i + 2 ^ 31)
  | .connect .. => done = 0 ∧ s.rxCount = 0 ∧ s.ooo = [] ∧ s.finRcvd = false
  | .listen .. => False
  | _ => True

/--
The receiving side of a socket: `live` when the connection was opened and not
aborted, `clean` while a connection is being opened.
-/
structure RecvInv (p : Peer) (done : Nat) (live clean : Bool) (t : Tcb) : Prop where
  received : Received p done t.toRcv
  synced : linked t.state = true → Synced p done t.toRcv
  fresh : t.state = .synSent ∨ clean = true →
    done = 0 ∧ t.rxCount = 0 ∧ t.ooo = [] ∧ t.finRcvd = false
  done : peerDone t.state = true → t.finRcvd = true
  ended : t.state = .closed → live = true → t.finRcvd = true
  stream : t.state ≠ .listen

namespace RecvInv

variable {p : Peer} {done : Nat} {live clean : Bool} {t t' : Tcb}

section

variable (h : RecvInv p done live clean t)

include h

theorem of_state (hrcv : t'.toRcv = t.toRcv)
    (hlink : linked t'.state = true → linked t.state = true)
    (hsyn : t'.state = .synSent → t.state = .synSent ∨ clean = true)
    (hdone : peerDone t'.state = true → peerDone t.state = true)
    (hend : t'.state = .closed → live = true → t.state = .closed ∨ peerDone t.state = true)
    (hlisten : t'.state ≠ .listen) : RecvInv p done live clean t' := by
  have hfin : t'.finRcvd = t.finRcvd := congrArg Rcv.finRcvd hrcv
  refine ⟨hrcv ▸ h.received, fun hl => hrcv ▸ h.synced (hlink hl), fun hs => ?_, fun hd => ?_,
    fun hc hl => ?_, hlisten⟩
  · have hfresh := h.fresh (hs.elim hsyn .inr)
    rw [show t'.rxCount = t.rxCount from congrArg Rcv.rxCount hrcv,
      show t'.ooo = t.ooo from congrArg Rcv.ooo hrcv, hfin]
    exact hfresh
  · rw [hfin]
    exact h.done (hdone hd)
  rw [hfin]
  rcases hend hc hl with hc' | hd
  · exact h.ended hc' hl
  · exact h.done hd

def quietMove (a b : TcpState) : Bool :=
  (!linked b || linked a) && (b != .synSent || a == .synSent) && (!peerDone b || peerDone a) &&
    (b != .closed || a == .closed || peerDone a) && b != .listen

theorem of_move (hrcv : t'.toRcv = t.toRcv)
    (hmove : quietMove t.state t'.state = true) : RecvInv p done live clean t' := by
  simp only [quietMove, Bool.and_eq_true, Bool.or_eq_true, Bool.not_eq_true', bne_iff_ne,
    beq_iff_eq] at hmove
  obtain ⟨⟨⟨⟨hlink, hsyn⟩, hdone⟩, hend⟩, hlisten⟩ := hmove
  refine h.of_state hrcv (fun hl => ?_) (fun hs => ?_) (fun hd => ?_) (fun hc _ => ?_) hlisten
  · exact hlink.resolve_left (by simp [hl])
  · exact .inl (hsyn.resolve_left (by simp [hs]))
  · exact hdone.resolve_left (by simp [hd])
  · exact hend.elim (fun hne => hne.elim (absurd hc) .inl) .inr

omit h in
theorem quietMove_self {a : TcpState} (h : a ≠ .listen) : quietMove a a = true := by
  cases a <;> first | rfl | exact absurd rfl h

theorem of_eq (hrcv : t'.toRcv = t.toRcv)
    (hst : t'.state = t.state) : RecvInv p done live clean t' :=
  h.of_move hrcv (by rw [hst]; exact quietMove_self h.stream)

theorem settle (ack : U32) :
    RecvInv p done live clean (t.settle ack) := by
  have hest : RecvInv p done live clean { t with state := t.estState ack } := by
    refine h.of_move rfl ?_
    unfold Tcb.estState
    split
    · next hsyn =>
        rw [hsyn.1]
        rfl
    · exact quietMove_self h.stream
  refine hest.of_move rfl ?_
  change quietMove (t.estState ack) (Tcb.ackedState { t with state := t.estState ack }) = true
  have hstream : t.estState ack ≠ .listen := hest.stream
  unfold Tcb.ackedState
  split
  · change quietMove (t.estState ack) (afterFinAck (t.estState ack)) = true
    cases hst : t.estState ack <;> first | rfl | exact absurd hst hstream
  · exact quietMove_self hstream

end

variable {s : Sock} {e : Env}

theorem linked_finRcvState (h : linked s.state = true) : linked (finRcvState s) = true := by
  unfold finRcvState
  split
  · rfl
  · split <;> rfl
  · rfl
  · exact h

theorem receive {hdr : Hdr} (h : RecvInv p done live clean s.tcb)
    (hlink : linked s.state = true) (hclean : clean = false)
    (hslice : hdr.data ≠ [] ∨ hdr.fl.fin = true → ∃ i, Slice p hdr i ∧
      i < done + s.rxCount + 2 ^ 31 ∧ done + s.rxCount < i + 2 ^ 31) :
    RecvInv p done live clean (finPart e (dataPart e s hdr)).tcb := by
  obtain ⟨hrec, hsync⟩ := receive_received (e := e) h.received (h.synced hlink) hslice
  have hstate := receive_state e s hdr
  have hsame := receive_state_fin (e := e) (s := s) (h := hdr)
  generalize (finPart e (dataPart e s hdr)).tcb = t' at hrec hsync hstate hsame
  have hl' : linked t'.state = true := by
    rcases hstate with hst | ⟨-, hst⟩
    · rw [hst]
      exact hlink
    rw [hst]
    exact linked_finRcvState hlink
  refine ⟨hrec, fun _ => hsync, fun hs => ?_, fun hd => ?_, fun hc => ?_, fun hs => ?_⟩
  · rw [hclean] at hs
    rcases hs with hs | hs
    · rw [hs] at hl'
      exact absurd hl' Bool.false_ne_true
    · cases hs
  · rcases hsame with hfin | ⟨hst, hfin⟩
    · exact hfin
    rw [hfin]
    exact h.done (by rw [← show t'.state = s.tcb.state from hst]; exact hd)
  · rw [hc] at hl'
    exact absurd hl' Bool.false_ne_true
  rw [hs] at hl'
  exact absurd hl' Bool.false_ne_true

theorem setbufRx {ok : Bool} {rc : Nat} (h : RecvInv p done live clean s.tcb)
    (hrc : bufMin ≤ rc ∧ rc ≤ bufMax) : RecvInv p done live clean (setbufRx ok s rc).tcb := by
  have hrec : Received p done (Net.setbufRx ok s rc).tcb.toRcv := h.received.setbufRx hrc
  unfold Net.setbufRx at hrec ⊢
  by_cases hfit : rc ≠ s.rxCap ∧ s.rxCount ≤ rc ∧ ok = true
  · rw [if_pos hfit] at hrec ⊢
    refine ⟨hrec, h.synced, fun hs => ?_, h.done, h.ended, h.stream⟩
    obtain ⟨hzero, hcount, -, hfin⟩ := h.fresh hs
    exact ⟨hzero, hcount, rfl, hfin⟩
  rw [if_neg hfit]
  exact h

section

variable {ev : Event} {s₀ : Sock} {v v' : View} (h : RecvInv p done live clean v.t)
  (hfits : p.Allows done s₀ ev) (hrecv : ∀ len, ev ≠ .recv len false)
  (hlive : aborts e s₀ ev = true → live = false) (hclean : clean = ev.isConnect)

include h hfits hrecv hlive hclean

theorem phase (hphase : Phase e ev s₀ v v') : RecvInv p done live clean v'.t := by
  cases hphase with
  | call => exact h
  | out hout =>
    rw [hout.frame]
    exact h.of_eq rfl rfl
  | fin =>
    refine h.of_move rfl ?_
    change quietMove v.t.state (finState v.t.state) = true
    have hstream := h.stream
    cases hst : v.t.state <;> first | rfl | exact absurd hst hstream
  | ack hdr ok sent v hev hstate hmid =>
    have hmid' : RecvInv p done live clean v.t := h.of_eq (by rw [hmid.frame]) hmid.state
    exact hmid'.settle hdr.ack
  | refuse hdr ok sent v hev hstate hmid =>
    refine h.of_move ?_ ?_
    · change v.t.toRcv = s₀.tcb.toRcv
      rw [hmid.frame]
    rw [show s₀.tcb.state = .synRcvd from hstate]
    rfl
  | receive hdr ok sent s hev hstate hrcv hlink =>
    subst hev
    exact h.receive hstate (by rw [hclean]; rfl) fun hdata => by
      rw [show s.rxCount = s₀.rxCount from congrArg Rcv.rxCount hrcv]
      exact hfits.2 hlink hdata
  | kill t sent used parent habort =>
    refine h.of_state rfl ?_ ?_ ?_ ?_ ?_ <;> simp [linked, peerDone, hlive habort]
  | expire t sent hst =>
    refine h.of_move rfl ?_
    rw [hst]
    rfl
  | control | write | shut | maxseg | connect => exact h.of_eq rfl rfl
  | rewind =>
    refine h.of_move rfl ?_
    change quietMove s₀.tcb.state (Tcb.rewindState s₀.tcb) = true
    have hstream : s₀.tcb.state ≠ .listen := h.stream
    unfold Tcb.rewindState
    split
    · cases hst : s₀.tcb.state <;> first | rfl | exact absurd hst hstream
    · exact quietMove_self hstream
  | resizeRx ok rc s sent hcap hrc => exact h.setbufRx hrc
  | resizeTx =>
    rw [setbufTx_frame]
    exact h.of_eq rfl rfl
  | recv len sent hev => exact absurd hev (hrecv len)
  | start t sent hstate hev =>
    refine h.of_state rfl ?_ ?_ ?_ ?_ ?_ <;> simp [linked, peerDone, hclean, hev]
  | listen lip lport backlog sent hev =>
    subst hev
    cases hfits
  | synAck hdr ok sent hev hsyn =>
    subst hev
    have hst : s₀.state = .synSent := by
      simp only [synAckFor, Bool.and_eq_true, beq_iff_eq] at hsyn
      exact hsyn.1.1.1
    obtain ⟨hzero, hcount, hooo, hfin⟩ := h.fresh (.inl hst)
    obtain ⟨anchor, hwin⟩ := h.received
    refine ⟨⟨anchor, hwin.cap, hwin.count, hwin.head, hwin.ready, hwin.ranges, hwin.total,
      hwin.fin⟩, fun _ => ?_, fun hs => ?_, ?_, ?_, ?_⟩
    · change hdr.seq + 1 = p.seqAt (done + s₀.tcb.rxCount + if s₀.tcb.finRcvd then 1 else 0)
      rw [hfits.1 hsyn, hzero, hcount, hfin]
      simp [Peer.seqAt]
    · rw [hclean] at hs
      rcases hs with hs | hs <;> cases hs
    · simp [peerDone]
    · simp
    · simp

theorem phases (hphases : Phases e ev s₀ v v') : RecvInv p done live clean v'.t := by
  induction hphases with
  | refl => exact h
  | tail _ hlast ih => exact ih.phase hfits hrecv hlive hclean hlast

end

end RecvInv

/-! ## Runs -/

structure Trace where
  got : List U8
  live : Bool

def recvBytes (e : Env) (c : Conn) : Event → List U8
  | .recv len false =>
    match (sockRecv e c len false).2 with
    | .got data => data
    | _ => []
  | _ => []

def Trace.step (tr : Trace) (e : Env) (c : Conn) (ev : Event) : Trace :=
  { got := tr.got ++ recvBytes e c ev
    live := if ev.isConnect && c.s.state == .closed then true
      else tr.live && !aborts e c.s ev }

def Peer.Begins (p : Peer) : Birth → Prop
  | .create .. => True
  | .passive _ _ _ _ _ _ _ h => h.seq + 1 = p.first

def Birth.opened : Birth → Bool
  | .create .. => false
  | .passive .. => true

inductive RecvRun (p : Peer) : Conn → Trace → Prop where
  | start (b : Birth) (c : Conn) (h : b.conn = some c) (hb : p.Begins b) :
      RecvRun p c ⟨[], b.opened⟩
  | step (c : Conn) (tr : Trace) (e : Env) (ev : Event) (hrun : RecvRun p c tr)
      (hused : c.s.used = true) (hen : Enabled c.s ev)
      (hok : p.Allows tr.got.length c.s ev) :
      RecvRun p (stepConn e c ev) (tr.step e c ev)

section Run

variable {p : Peer} {e : Env} {t : Tcb} {c : Conn} {done : Nat} {live : Bool}

theorem Tcb.Fresh.received (h : t.Fresh) : Received p 0 t.toRcv := by
  refine ⟨0, h.rxCap, ?_, ?_, ?_, ?_, ?_, fun hf => absurd (h.finRcvd.symm.trans hf) (by decide)⟩
  · rw [h.rxCount]
    exact Nat.zero_le _
  · rw [h.rxHead]
    exact (Nat.zero_mod _).symm
  · rw [h.rxCount]
    exact .empty _ _ _ _ le_rfl
  · simp [h.ooo]
  · simp [h.rxCount]

theorem RecvInv.birth {b : Birth} (h : b.conn = some c) (hb : p.Begins b) :
    RecvInv p 0 b.opened false c.s.tcb := by
  cases b with
  | create e af =>
    obtain ⟨s, hs, rfl⟩ := Option.map_eq_some_iff.1 h
    obtain ⟨hfresh, hst⟩ := allocSock_tcb hs
    change RecvInv p 0 false false s.tcb
    have hst' : s.tcb.state = .closed := hst
    refine ⟨hfresh.received, ?_, ?_, ?_, ?_, ?_⟩ <;> simp [hst', linked, peerDone]
  | passive e af l slot parent src dst hdr =>
    obtain ⟨s, hs, rfl⟩ := Option.map_eq_some_iff.1 h
    obtain ⟨t, seq, hfresh, hres, hview⟩ :=
      passiveOpen_view e l slot parent src dst hdr (allocSock_tcb hs).1
    have htcb : (passiveOpen e s l slot parent src dst hdr).s.tcb = t := congrArg View.t hview
    rw [htcb]
    have hst : t.state = .synRcvd := by rw [hres]; rfl
    have hnxt : t.rcvNxt = hdr.seq + 1 := by rw [hres]; rfl
    refine ⟨hfresh.received, fun _ => ?_, ?_, ?_, ?_, ?_⟩
    · unfold Synced
      rw [hnxt, show hdr.seq + 1 = p.first from hb, hfresh.rxCount, hfresh.finRcvd]
      simp [Peer.seqAt]
    all_goals simp [hst, peerDone]

variable {len : Nat} {clean ok peek : Bool} {data : List U8} {tr : Trace} {s : Sock} {ack seq : U32}
  {fl : Flags}

theorem sockRecv_got (h : Received p done c.s.tcb.toRcv) (hgot : (sockRecv e c len peek).2 = .got data) :
    data = (p.stream.drop done).take (min c.s.rxCount len) := by
  unfold sockRecv at hgot
  split at hgot
  · cases hgot
  split at hgot
  · split at hgot
    · cases hgot
    · split at hgot <;> cases hgot
  cases hgot
  exact h.read (Nat.min_le_left _ _)

theorem sockRecv_eof (h : (sockRecv e c len peek).2 = .eof) :
    c.s.rxCount = 0 ∧ (c.s.finRcvd = true ∨ c.s.state = .closed) := by
  unfold sockRecv at h
  split at h
  · cases h
  split at h
  · next hzero =>
      split at h
      · cases h
      split at h
      · next hend => exact ⟨hzero, hend⟩
      · cases h
  · cases h

theorem sockRecv_tcb (c : Conn) (len : Nat) : (sockRecv e c len false).1.s.tcb = c.s.tcb ∧ recvBytes
    e c (.recv len false) = [] ∨ (sockRecv e c len false).1.s.tcb = c.s.tcb.take
    (min c.s.rxCount len) ∧ (sockRecv e c len false).2 = .got (recvBytes e c (.recv len false)) :=
    by
  unfold recvBytes
  dsimp only
  unfold sockRecv
  split
  · exact .inl ⟨rfl, rfl⟩
  split
  · split
    · exact .inl ⟨rfl, rfl⟩
    · split <;> exact .inl ⟨rfl, rfl⟩
  right
  refine ⟨?_, rfl⟩
  dsimp only
  rw [if_neg Bool.false_ne_true]
  unfold takeRx
  dsimp only
  split
  · rw [tcpSegment_tcb, dropRx_tcb]
  · rw [dropRx_tcb]

theorem RecvInv.take {n : Nat} (h : RecvInv p done live false t) (hn : n ≤ t.rxCount) :
    RecvInv p (done + n) live false (t.take n) := by
  have hpos : done + n + (t.rxCount - n) = done + t.rxCount := by omega
  refine ⟨h.received.take hn, fun hl => ?_, fun hs => ?_, h.done, h.ended, h.stream⟩
  · have hsync : t.rcvNxt = p.seqAt (done + t.rxCount + if t.finRcvd then 1 else 0) := h.synced hl
    change t.rcvNxt = p.seqAt (done + n + (t.rxCount - n) + if t.finRcvd then 1 else 0)
    rw [hpos, hsync]
  obtain ⟨hzero, hcount, hooo, hfin⟩ := h.fresh hs
  have hn0 : n = 0 := by omega
  subst hn0
  exact ⟨by omega, hcount, hooo, hfin⟩

theorem RecvInv.weaken {live' clean' : Bool} (h : RecvInv p done live clean t)
    (hlive : live' = true → live = true)
    (hclean : clean' = true → done = 0 ∧ t.rxCount = 0 ∧ t.ooo = [] ∧ t.finRcvd = false) :
    RecvInv p done live' clean' t :=
  ⟨h.received, h.synced, fun hs => hs.elim (fun hs => h.fresh (.inl hs)) hclean, h.done,
    fun hc hl => h.ended hc (hlive hl), h.stream⟩

theorem RecvInv.recv (len : Nat) (h : RecvInv p tr.got.length tr.live false c.s.tcb)
    (hgot : tr.got = p.stream.take tr.got.length) :
    RecvInv p (tr.step e c (.recv len false)).got.length (tr.step e c (.recv len false)).live
        false (stepConn e c (.recv len false)).s.tcb ∧ (tr.step e c (.recv len false)).got =
        p.stream.take (tr.step e c (.recv len false)).got.length := by
  have hlive : (tr.step e c (.recv len false)).live = tr.live := by
    simp [Trace.step, Event.isConnect, aborts]
  rw [hlive]
  change RecvInv p (tr.got ++ recvBytes e c (.recv len false)).length tr.live false
      (sockRecv e c len false).1.s.tcb ∧ tr.got ++ recvBytes e c (.recv len false) = _
  rcases sockRecv_tcb (e := e) c len with ⟨htcb, hbytes⟩ | ⟨htcb, hres⟩
  · rw [htcb, hbytes, append_nil]
    refine ⟨h, ?_⟩
    simp only [Trace.step, hbytes, append_nil]
    exact hgot
  have hdata := sockRecv_got h.received hres
  obtain ⟨anchor, hwin⟩ := h.received
  have htotal : tr.got.length + c.s.rxCount ≤ p.stream.length := hwin.total
  have hlen : (recvBytes e c (.recv len false)).length = min c.s.rxCount len := by
    rw [hdata, length_take, length_drop]
    omega
  rw [htcb, length_append, hlen]
  refine ⟨h.take (Nat.min_le_left _ _), ?_⟩
  simp only [Trace.step, length_append, hlen]
  rw [take_add, ← hgot, ← hdata]

theorem sockConnect_state (h : c.s.state = .closed) (slot : Slot) (ip : Addr) (port : U16)
    (lip : Addr) (lport : U16) : (sockConnect e c slot ip port lip lport).s.state = .synSent := by
  unfold sockConnect
  rw [if_pos h]
  rfl

theorem RecvInv.connect {slot : Slot} {ip : Addr}
    {port : U16} {lip : Addr} {lport : U16} (h : RecvInv p done live false c.s.tcb)
    (hok : p.Allows done c.s (.connect slot ip port lip lport)) (hst : c.s.state = .closed) :
    RecvInv p done true false (stepConn e c (.connect slot ip port lip lport)).s.tcb := by
  have hphases := stepConn_phases e c (.connect slot ip port lip lport) trivial
  have hinv : RecvInv p done false true
      (stepConn e c (.connect slot ip port lip lport)).view.t :=
    (h.weaken (fun hl => absurd hl Bool.false_ne_true) fun _ => hok).phases hok
      (fun _ hev => by cases hev) (fun _ => rfl) rfl hphases
  have hst' : (stepConn e c (.connect slot ip port lip lport)).s.tcb.state = .synSent :=
    sockConnect_state hst slot ip port lip lport
  refine ⟨hinv.received, hinv.synced, fun hs => hinv.fresh (hs.imp id (by simp)), hinv.done,
    fun hc => ?_, hinv.stream⟩
  rw [hst'] at hc
  cases hc

theorem RecvRun.inv (hrun : RecvRun p c tr) :
    RecvInv p tr.got.length tr.live false c.s.tcb ∧ tr.got = p.stream.take tr.got.length := by
  induction hrun with
  | start b c h hb => exact ⟨.birth h hb, by simp⟩
  | step c tr e ev _ _ hen hok ih =>
    obtain ⟨hinv, hgot⟩ := ih
    by_cases hrecv : ∃ len, ev = .recv len false
    · obtain ⟨len, rfl⟩ := hrecv
      exact hinv.recv len hgot
    have hbytes : recvBytes e c ev = [] := by
      unfold recvBytes
      split
      · next len => exact absurd ⟨len, rfl⟩ hrecv
      · rfl
    have hstep : (tr.step e c ev).got = tr.got := by
      simp [Trace.step, hbytes]
    rw [hstep]
    refine ⟨?_, hgot⟩
    cases hconn : ev.isConnect with
    | true =>
      cases ev with
      | connect slot ip port lip lport =>
        by_cases hst : c.s.state = .closed
        · have hlive : (tr.step e c (.connect slot ip port lip lport)).live = true := by
            simp [Trace.step, Event.isConnect, hst]
          rw [hlive]
          exact hinv.connect hok hst
        have hlive : (tr.step e c (.connect slot ip port lip lport)).live = tr.live := by
          simp [Trace.step, Event.isConnect, hst, aborts]
        have hsame : stepConn e c (.connect slot ip port lip lport) = c := if_neg hst
        rw [hlive, hsame]
        exact hinv
      | _ => cases hconn
    | false =>
      have hlive : (tr.step e c ev).live = (tr.live && !aborts e c.s ev) := by
        simp [Trace.step, hconn]
      rw [hlive]
      refine .phases (v := c.view) (hinv.weaken ?_ ?_) hok (fun len hev => hrecv ⟨len, hev⟩) ?_
        hconn.symm (stepConn_phases e c ev hen)
      · intro hl
        simp only [Bool.and_eq_true] at hl
        exact hl.1
      · simp
      intro habort
      simp [habort]

/-- A closed connection with nothing left to read reports a pending error once, and then its
end. -/
theorem sockRecv_closed (hst : c.s.state = .closed) (hzero : c.s.rxCount = 0) (e : Env) (len : Nat)
    (peek : Bool) :
    (c.s.err = none → sockRecv e c len peek = (c, .eof)) ∧
    ∀ err, c.s.err = some err → (sockRecv e c len peek).2 = .failed err ∧
      ∀ e' len' peek', sockRecv e' (sockRecv e c len peek).1 len' peek' =
        ((sockRecv e c len peek).1, .eof) := by
  constructor
  · intro hnone
    simp [sockRecv, hst, hzero, hnone]
  intro err hsome
  have hfirst : sockRecv e c len peek = ({ c with s := clearErr c.s }, .failed err) := by
    simp [sockRecv, hst, hzero, hsome]
  rw [hfirst]
  refine ⟨rfl, fun e' len' peek' => ?_⟩
  simp [sockRecv, clearErr, hst, hzero]

def greeting : Peer := ⟨[72, 105, 33], 101⟩

theorem Peer.allows_bare (hsyn : fl.syn = false) (hfin : fl.fin = false) :
    p.Allows done s (.segment (plainSeg seq ack fl []) ok) := by
  refine ⟨fun h => ?_, fun _ h => ?_⟩
  · simp [synAckFor, plainSeg, hsyn] at h
  · simp [plainSeg, hfin] at h

def plainAck : Event := .segment (plainSeg 101 plainConn.s.sndNxt { ack := true } []) true

def resetRead : List Event :=
  [plainAck, .accepted, .segment (plainSeg 101 0 { rst := true } []) true, .recv 10 false]

def lateStart : List Event :=
  [plainAck, .accepted,
    .segment (plainSeg 102 plainConn.s.sndNxt { ack := true } [105, 33]) true,
    .segment (plainSeg 101 plainConn.s.sndNxt { ack := true } [72]) true,
    .segment (plainSeg 104 plainConn.s.sndNxt { ack := true, fin := true } []) true,
    .recv 10 false]

def next (e : Env) (x : Conn × Trace) (ev : Event) : Conn × Trace :=
  (stepConn e x.1 ev, x.2.step e x.1 ev)

def Peer.Happens (p : Peer) (e : Env) : List Event → Conn × Trace → Prop
  | [], _ => True
  | ev :: rest, x =>
    (x.1.s.used = true ∧ Enabled x.1.s ev ∧ p.Allows x.2.got.length x.1.s ev) ∧
      p.Happens e rest (next e x ev)

theorem RecvRun.fold (evs : List Event) {x : Conn × Trace} (h : RecvRun p x.1 x.2)
    (hok : p.Happens e evs x) : RecvRun p (evs.foldl (next e) x).1 (evs.foldl (next e) x).2 := by
  induction evs generalizing x with
  | nil => exact h
  | cons ev rest ih =>
    obtain ⟨⟨hused, hen, hal⟩, hrest⟩ := hok
    exact ih (x := next e x ev) (.step _ _ e ev h hused hen hal) hrest

theorem Peer.allows_slice {i : Nat} (hsyn : fl.syn = false) (hslice : Slice p (plainSeg seq ack fl data) i)
    (hnear : i ≤ 2 ^ 30 ∧ done + s.rxCount ≤ 2 ^ 30) :
    p.Allows done s (.segment (plainSeg seq ack fl data) ok) := by
  refine ⟨fun h => ?_, fun _ _ => ⟨i, hslice, by omega, by omega⟩⟩
  simp [synAckFor, plainSeg, hsyn] at h

def started : Conn × Trace := (plainConn, ⟨[], true⟩)

theorem started_run : RecvRun greeting started.1 started.2 :=
  .start plainBirth plainConn plainBirth_conn rfl

def late : Conn × Trace := lateStart.foldl (next (calmEnv 2)) started

theorem late_run : RecvRun greeting late.1 late.2 :=
  RecvRun.fold (p := greeting) (e := calmEnv 2) lateStart started_run (by
    refine ⟨⟨?_, ?_, Peer.allows_bare rfl rfl⟩, ⟨?_, trivial, trivial⟩,
      ⟨?_, ?_, Peer.allows_slice (i := 1) rfl ⟨rfl, ⟨[], rfl⟩, by simp [plainSeg]⟩ ?_⟩,
      ⟨?_, ?_, Peer.allows_slice (i := 0) rfl ⟨rfl, ⟨[105, 33], rfl⟩, by simp [plainSeg]⟩ ?_⟩,
      ⟨?_, ?_, Peer.allows_slice (i := 3) rfl ⟨rfl, ⟨[], rfl⟩, fun _ => rfl⟩ ?_⟩,
      ⟨?_, trivial, trivial⟩, trivial⟩
    all_goals decide +kernel)

end Run

/-- What is acknowledged was received, and a peer that is done has sent all of it. -/
theorem acked_received {c : Conn} {tr : Trace} (hrun : RecvRun p c tr) :
    tr.got.length + c.s.rxCount ≤ p.stream.length ∧
    (linked c.s.state → c.s.rcvNxt =
      p.seqAt (tr.got.length + c.s.rxCount + if c.s.finRcvd then 1 else 0)) ∧
    (peerDone c.s.state → tr.got.length + c.s.rxCount = p.stream.length) := by
  have hinv := hrun.inv.1
  obtain ⟨anchor, hwin⟩ := id hinv.received
  exact ⟨hwin.total, hinv.synced, fun hdone => hwin.fin (hinv.done hdone)⟩

/-- The stream came in the wrong order, and its end after it. -/
theorem acked_received_late : late.2.got.length + late.1.s.rxCount = 3 ∧
    late.1.s.rcvNxt = greeting.seqAt 4 := by
  obtain ⟨-, hnext, hall⟩ := acked_received late_run
  have hdone : peerDone late.1.s.state = true := by decide +kernel
  have hlink : linked late.1.s.state = true := by decide +kernel
  have hfin : late.1.s.finRcvd = true := by decide +kernel
  have h3 : late.2.got.length + late.1.s.rxCount = 3 := hall hdone
  exact ⟨h3, by rw [hnext hlink, h3, hfin]; rfl⟩

end SamaraOS.Net
