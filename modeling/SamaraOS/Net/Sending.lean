import SamaraOS.Net.Api

/-!
# What sending can do to a connection

Congestion control, timing and acknowledgement scheduling decide when the code sends, not what
a segment may carry.  `Tcb` is the socket without them, and `Out` lists the moves of the sending
code: a retransmission, data from `sndNxt` on, a jump over what the peer has.  `tcp_output` and
fast recovery are sequences of these moves, with the FIN at the end.
-/

namespace SamaraOS.Net

open Conn

structure Rcv where
  rcvNxt : U32
  rx : Nat → U8
  rxCap : Nat
  rxHead : Nat
  rxCount : Nat
  ooo : List (U32 × U32)
  finRcvd : Bool

structure Ctl where
  used : Bool
  refs : Int
  type : SockType
  parent : Option Slot
  acceptq : List Slot

structure Still extends Rcv, Ctl where
  rip : Addr
  mss : U16
  sndUna : U32
  txSeq : U32
  tx : Nat → U8
  txCap : Nat
  txHead : Nat
  txLen : Nat
  sb : List (U32 × U32)
  shutWr : Bool

structure Tcb extends Still where
  state : TcpState
  sndNxt : U32
  sndMax : U32
  finSent : Bool

def Sock.tcb (s : Sock) : Tcb :=
  { used := s.used, refs := s.refs, type := s.type, parent := s.parent,
    acceptq := s.acceptq, state := s.state, rip := s.rip, mss := s.mss,
    sndUna := s.sndUna, sndNxt := s.sndNxt, sndMax := s.sndMax, txSeq := s.txSeq,
    tx := s.tx, txCap := s.txCap, txHead := s.txHead, txLen := s.txLen, sb := s.sb,
    shutWr := s.shutWr, finSent := s.finSent, rcvNxt := s.rcvNxt, rx := s.rx,
    rxCap := s.rxCap, rxHead := s.rxHead, rxCount := s.rxCount, ooo := s.ooo,
    finRcvd := s.finRcvd }

structure Sent where
  t : Tcb
  seq : U32
  fl : Flags
  len : Nat

structure View where
  t : Tcb
  sent : List Sent

def SegCall.view (k : SegCall) : Sent := ⟨k.s.tcb, k.seq, k.fl, k.len⟩

def Conn.view (c : Conn) : View := ⟨c.s.tcb, c.calls.map SegCall.view⟩

def linked : TcpState → Bool
  | .closed | .listen | .synSent => false
  | _ => true

theorem linked_of_canSend {st : TcpState} (h : canSend st = true) : linked st = true := by
  cases st <;> first | rfl | exact h

namespace Tcb

def ringEnd (t : Tcb) : U32 := t.txSeq + BitVec.ofNat 32 t.txLen

def sentLen (t : Tcb) : Nat :=
  let sent := (t.sndNxt - t.txSeq).toNat
  if t.finSent && sent != 0 then sent - 1 else sent

def retxLen (t : Tcb) (seq last : U32) : Nat :=
  min (if 0 < sd last t.ringEnd then t.ringEnd - seq else last - seq).toNat t.mss.toNat

def RetxRange (t : Tcb) (seq last : U32) : Prop :=
  (seq = t.sndUna ∧ last = t.sndMax) ∨
    (∃ r ∈ t.sb, last = r.1) ∧ sd seq last < 0 ∧
      (0 ≤ sd seq t.sndUna ∨ ∃ r ∈ t.sb, seq = r.2)

def advance (t : Tcb) (n : Nat) : Tcb :=
  let nxt := t.sndNxt + BitVec.ofNat 32 n
  { t with sndNxt := nxt, sndMax := if 0 ≤ sd t.sndNxt t.sndMax then nxt else t.sndMax }

def sendFin (t : Tcb) : Tcb :=
  let nxt := t.sndNxt + 1
  { t with
    sndNxt := nxt
    sndMax := if 0 < sd nxt t.sndMax then nxt else t.sndMax
    finSent := true
    state := finState t.state }

def sbAdd (t : Tcb) (r : U32 × U32) : Tcb :=
  { t with sb :=
      if sd r.1 t.sndUna < 0 ∨ sd r.2 r.1 ≤ 0 ∨ 0 < sd r.2 t.sndMax then t.sb
      else (sbInsert t.sb r.1 r.2 false).take 8 }

def acked (t : Tcb) (ack : U32) : Tcb :=
  let d := min (if 0 < sd ack t.txSeq then (ack - t.txSeq).toNat else 0) t.txLen
  { t with
    txHead := (t.txHead + d) % t.txCap
    txLen := t.txLen - d
    txSeq := t.txSeq + BitVec.ofNat 32 d
    sndUna := ack
    sndNxt := if sd t.sndNxt ack < 0 then ack else t.sndNxt
    sb := (t.sb.filter fun r => 0 < sd r.2 ack).map fun r =>
      (if sd r.1 ack < 0 then ack else r.1, r.2) }

end Tcb

inductive Out : View → View → Prop where
  | retx (t : Tcb) (sent : List Sent) (seq last : U32) (hstate : linked t.state = true)
      (hring : 0 < sd t.ringEnd seq) (hrange : t.RetxRange seq last) :
      Out ⟨t, sent⟩ ⟨t, sent ++ [⟨t, seq, { ack := true }, t.retxLen seq last⟩]⟩
  | send (t : Tcb) (sent : List Sent) (n : Nat) (psh : Bool)
      (hstate : canSend t.state = true) (hpos : 0 < n) (hmss : n ≤ t.mss.toNat)
      (havail : t.sentLen + n ≤ t.txLen) :
      Out ⟨t, sent⟩ ⟨t.advance n, sent ++ [⟨t, t.sndNxt, { ack := true, psh := psh }, n⟩]⟩
  | skip (t : Tcb) (sent : List Sent) (r : U32 × U32) (hr : r ∈ t.sb)
      (hlo : 0 ≤ sd t.sndNxt r.1) (hhi : sd t.sndNxt r.2 < 0)
      (hstate : canSend t.state = true) :
      Out ⟨t, sent⟩ ⟨{ t with sndNxt := r.2 }, sent⟩

abbrev Outs : View → View → Prop := Relation.ReflTransGen Out

def Tcb.FinDue (t : Tcb) : Prop :=
  canSend t.state = true ∧ t.shutWr = true ∧ t.finSent = false ∧ t.sentLen = t.txLen

def View.sendFin (v : View) : View :=
  ⟨v.t.sendFin, v.sent ++ [⟨v.t, v.t.sndNxt, { fin := true, ack := true }, 0⟩]⟩

def sackList (s : Sock) (o : TOpt) : List (U32 × U32) := if s.sackOk then o.sack else []

/--
The three ways of `tcp_ack_in`: the acknowledgement is out of range, repeats
what we know, or moves `sndUna`.
-/
inductive AckMid (t : Tcb) (blocks : List (U32 × U32)) (ack : U32) (sent : List Sent) :
    View → Prop where
  | outside (hout : sd ack t.sndUna < 0 ∨ 0 < sd ack t.sndMax) :
      AckMid t blocks ack sent ⟨t, sent⟩
  | dup (v : View) (hack : ack = t.sndUna) (houts : Outs ⟨blocks.foldl Tcb.sbAdd t, sent⟩ v)
      (hsyn : t.state = .synRcvd → v = ⟨blocks.foldl Tcb.sbAdd t, sent⟩) :
      AckMid t blocks ack sent v
  | advance (v : View) (hlo : 0 < sd ack t.sndUna) (hhi : sd ack t.sndMax ≤ 0)
      (houts : Outs ⟨(blocks.foldl Tcb.sbAdd t).acked ack, sent⟩ v) :
      AckMid t blocks ack sent v

theorem Out.frame {v v' : View} (h : Out v v') :
    v'.t = { v.t with sndNxt := v'.t.sndNxt, sndMax := v'.t.sndMax } := by
  cases h <;> rfl

theorem Outs.frame {v v' : View} (h : Outs v v') :
    v'.t = { v.t with sndNxt := v'.t.sndNxt, sndMax := v'.t.sndMax } := by
  induction h with
  | refl => rfl
  | tail _ hlast ih =>
    rw [hlast.frame, ih]

theorem Outs.state {v v' : View} (h : Outs v v') : v'.t.state = v.t.state := by
  rw [h.frame]

theorem foldl_sbAdd_frame (l : List (U32 × U32)) (t : Tcb) :
    l.foldl Tcb.sbAdd t = { t with sb := (l.foldl Tcb.sbAdd t).sb } := by
  induction l generalizing t with
  | nil => rfl
  | cons r rest ih => exact ih (t.sbAdd r)

theorem AckMid.frame {t : Tcb} {blocks : List (U32 × U32)} {ack : U32} {sent : List Sent}
    {v : View} (h : AckMid t blocks ack sent v) :
    v.t = { t with
      txHead := v.t.txHead, txLen := v.t.txLen, txSeq := v.t.txSeq, sndUna := v.t.sndUna,
      sndNxt := v.t.sndNxt, sndMax := v.t.sndMax, sb := v.t.sb } := by
  have hblocks := foldl_sbAdd_frame blocks t
  cases h with
  | outside => rfl
  | dup _ _ houts =>
    rw [houts.frame, hblocks]
  | advance _ _ _ houts =>
    rw [houts.frame, hblocks]
    rfl

/-! ## The code makes these moves -/

section

variable (e : Env) (c : Conn) (seq : U32) (fl : Flags) (len : Nat) (s : Sock)

theorem Conn.view_mk (calls : List SegCall) :
    Conn.view ⟨s, calls⟩ = ⟨s.tcb, calls.map SegCall.view⟩ := rfl

@[simp] theorem setCong_tcb (x : Cong) : (s.setCong x).tcb = s.tcb := rfl

@[simp] theorem setRtt_tcb (x : Rtt) : (s.setRtt x).tcb = s.tcb := rfl

@[simp] theorem setAck_tcb (x : AckSt) : (s.setAck x).tcb = s.tcb := rfl

@[simp] theorem setKa_tcb (x : KeepAlive) : (s.setKa x).tcb = s.tcb := rfl

@[simp] theorem setState_tcb (st : TcpState) : (s.setState st).tcb = { s.tcb with state := st } := rfl

@[simp] theorem setParent_tcb (p : Option Slot) :
    (s.setParent p).tcb = { s.tcb with parent := p } := rfl

@[simp] theorem setRefs_tcb (n : Int) : (s.setRefs n).tcb = { s.tcb with refs := n } := rfl

@[simp] theorem freeSock_tcb : (freeSock s).tcb = { s.tcb with used := false } := rfl

@[simp] theorem setWnd_tcb (x : U32) : (s.setWnd x).tcb = s.tcb := rfl

@[simp] theorem setAckNow_tcb : (setAckNow s).tcb = s.tcb := rfl

@[simp] theorem tcpSegment_tcb : (tcpSegment e c seq fl len).s.tcb = c.s.tcb := rfl

@[simp] theorem armRto_tcb : (armRto e s).tcb = s.tcb := rfl

@[simp] theorem touchTx_tcb : (touchTx e s).tcb = s.tcb := rfl

@[simp] theorem noteSent_tcb (n : Nat) : (noteSent e s n).tcb = s.tcb.advance n := by
  unfold noteSent
  simp only [setRtt_tcb, decide_eq_true_eq]
  rfl

@[simp] theorem noteRetx_tcb : (noteRetx s).tcb = s.tcb := rfl

@[simp] theorem setRexmitHi_tcb (hi : U32) : (setRexmitHi s hi).tcb = s.tcb := rfl

@[simp] theorem noteFin_tcb : (noteFin s).tcb = s.tcb.sendFin := rfl

theorem tcpSegment_sent :
    (tcpSegment e c seq fl len).calls.map SegCall.view = c.view.sent ++ [⟨c.s.tcb, seq, fl, len⟩] :=
    by
  simp only [tcpSegment, Conn.view, List.map_append, List.map_cons, List.map_nil]
  rfl

theorem tcpSegment_view :
    (tcpSegment e c seq fl len).view = ⟨c.s.tcb, c.view.sent ++ [⟨c.s.tcb, seq, fl, len⟩]⟩ :=
  congrArg (View.mk c.s.tcb) (tcpSegment_sent e c seq fl len)

theorem retxOne_outs (last : U32) (hstate : linked c.s.state = true)
    (hrange : c.s.tcb.RetxRange seq last) : Outs c.view (retxOne e c seq last).1.view := by
  unfold retxOne
  dsimp only
  split
  · exact .refl
  next hring =>
  refine .single ?_
  rw [view_mk (noteRetx _), noteRetx_tcb, tcpSegment_tcb, tcpSegment_sent]
  exact .retx c.s.tcb c.view.sent seq last hstate (not_le.1 hring) hrange

theorem sbHole_spec {sb : List (U32 × U32)} {a b x : U32} (h : sbHole sb a = (b, some x)) :
    (∃ r ∈ sb, x = r.1) ∧ sd b x < 0 ∧ (b = a ∨ ∃ r ∈ sb, b = r.2) := by
  induction sb generalizing a with
  | nil => simp [sbHole] at h
  | cons r rest ih =>
    unfold sbHole at h
    split at h
    · next hlt =>
        cases h
        exact ⟨⟨r, by simp, rfl⟩, hlt, .inl rfl⟩
    obtain ⟨⟨q, hq, hx⟩, hlt, hb⟩ := ih h
    refine ⟨⟨q, by simp [hq], hx⟩, hlt, ?_⟩
    rcases hb with hb | ⟨p, hp, hb⟩
    · split at hb
      · exact .inr ⟨r, by simp, hb⟩
      · exact .inl hb
    · exact .inr ⟨p, by simp [hp], hb⟩

theorem sackRetx_outs (hstate : linked c.s.state = true) : Outs c.view (sackRetx e c).1.view := by
  unfold sackRetx
  dsimp only
  split
  swap
  · exact .refl
  generalize ha : (if 0 < sd c.s.cong.rexmitHi c.s.sndUna then c.s.cong.rexmitHi
    else c.s.sndUna) = a
  have hstart : 0 ≤ sd a c.s.sndUna := by
    rw [← ha]
    split
    · next h => exact h.le
    · exact (Serial.diff_self _).ge
  split
  · exact .refl
  next b last hhole =>
  obtain ⟨hlast, hlt, hb⟩ := sbHole_spec hhole
  have hrange : c.s.tcb.RetxRange b last := by
    refine .inr ⟨hlast, hlt, ?_⟩
    rcases hb with rfl | hb
    · exact .inl hstart
    · exact .inr hb
  have hretx := retxOne_outs e c b last hstate hrange
  split
  · split
    · exact hretx
    rw [view_mk (armRto _ _), armRto_tcb, setRexmitHi_tcb]
    exact hretx
  · exact .refl

end

theorem sackSkip_outs (c : Conn) (hstate : canSend c.s.state = true) :
    Outs c.view (Conn.view { c with s := sackSkip c.s }) := by
  have hfold : ∀ (l : List (U32 × U32)) (nxt : U32), l ⊆ c.s.sb →
      Outs ⟨{ c.s.tcb with sndNxt := nxt }, c.view.sent⟩
        ⟨{ c.s.tcb with sndNxt := l.foldl (fun nxt r =>
          if 0 ≤ sd nxt r.1 ∧ sd nxt r.2 < 0 then r.2 else nxt) nxt }, c.view.sent⟩ := by
    intro l
    induction l with
    | nil => exact fun _ _ => .refl
    | cons r rest ih =>
      intro nxt hsub
      rw [List.foldl_cons]
      split
      · next h =>
          refine .head (.skip _ _ r (hsub (by simp)) h.1 h.2 hstate) (ih r.2 ?_)
          exact fun x hx => hsub (by simp [hx])
      · exact ih nxt fun x hx => hsub (by simp [hx])
  unfold sackSkip
  split
  · exact hfold c.s.sb c.s.sndNxt (fun _ h => h)
  · exact .refl

theorem chunkLen_le (s : Sock) : chunkLen s ≤ s.txLen - sentLen s ∧ chunkLen s ≤ s.mss.toNat := by
  simp only [chunkLen]
  omega

theorem outData_outs (e : Env) (c : Conn) (room : U32) (hstate : canSend c.s.state = true) :
    Outs c.view (outData e c room).1.view := by
  obtain ⟨hlen, hmss⟩ := chunkLen_le c.s
  unfold outData
  dsimp only
  split
  · exact .refl
  split
  · exact .refl
  split
  · exact .refl
  next havail hn _ =>
  have hsum : sentLen c.s + chunkLen c.s ≤ c.s.txLen := by omega
  refine .single ?_
  rw [view_mk (touchTx _ _), touchTx_tcb, armRto_tcb, noteSent_tcb, tcpSegment_tcb,
    tcpSegment_sent]
  exact .send c.s.tcb c.view.sent _ _ hstate (by omega) hmss hsum

section

variable (e : Env) (fuel : Nat) (c : Conn) (hstate : canSend c.s.state = true)

include hstate

theorem outRound_outs : Outs c.view (outRound e c).1.view := by
  have hretx := sackRetx_outs e c (linked_of_canSend hstate)
  have hkeep : canSend (sackRetx e c).1.s.state = true :=
    (congrArg canSend hretx.state).trans hstate
  unfold outRound
  dsimp only
  generalize (if flight c.s < c.s.cong.cwnd then c.s.cong.cwnd - flight c.s else 0) = room
  split
  · exact .refl
  split
  · exact hretx
  exact (hretx.trans (sackSkip_outs _ hkeep)).trans
    (outData_outs e ⟨sackSkip (sackRetx e c).1.s, (sackRetx e c).1.calls⟩ room hkeep)

theorem outLoop_outs : Outs c.view (outLoop e fuel c).view := by
  induction fuel generalizing c with
  | zero => exact .refl
  | succ fuel ih =>
    have hround := outRound_outs e c hstate
    unfold outLoop
    dsimp only
    split
    · exact hround.trans (ih _ ((congrArg canSend hround.state).trans hstate))
    · exact hround

theorem outFin_view :
    (outFin e c).view = c.view ∨ c.view.t.FinDue ∧ (outFin e c).view = c.view.sendFin := by
  unfold outFin
  split
  · next hfin =>
      simp only [Bool.and_eq_true, beq_iff_eq, Bool.not_eq_true'] at hfin
      refine .inr ⟨⟨hstate, hfin.1.1, hfin.1.2, hfin.2⟩, ?_⟩
      rw [view_mk (armRto _ _), armRto_tcb, touchTx_tcb, noteFin_tcb, tcpSegment_tcb, tcpSegment_sent]
      rfl
  · exact .inl rfl

private theorem outLoop_outFin_view :
    ∃ v, Outs c.view v ∧ ((outFin e (outLoop e fuel c)).view = v ∨
      v.t.FinDue ∧ (outFin e (outLoop e fuel c)).view = v.sendFin) := by
  have hloop := outLoop_outs e fuel c hstate
  exact ⟨_, hloop, outFin_view e _ ((congrArg canSend hloop.state).trans hstate)⟩

end

theorem tcpOutput_view (e : Env) (c : Conn) : ∃ v, Outs c.view v ∧
      ((tcpOutput e c).view = v ∨ v.t.FinDue ∧ (tcpOutput e c).view = v.sendFin) := by
  cases hstate : canSend c.s.state with
  | true =>
    rw [show tcpOutput e c = outFin e (outLoop e 1024 c) from if_pos hstate]
    exact outLoop_outFin_view e 1024 c hstate
  | false =>
    rw [show tcpOutput e c = c from if_neg (by simp [hstate])]
    exact ⟨_, .refl, .inl rfl⟩

theorem tcpOutput_still (e : Env) (c : Conn) : (tcpOutput e c).s.tcb.toStill = c.s.tcb.toStill := by
  obtain ⟨v, houts, hv⟩ := tcpOutput_view e c
  have hstill : v.t.toStill = c.s.tcb.toStill := by
    rw [houts.frame]
    rfl
  rcases hv with hv | ⟨_, hv⟩
  · rwa [show (tcpOutput e c).s.tcb = v.t from congrArg View.t hv]
  · rwa [show (tcpOutput e c).s.tcb = v.t.sendFin from congrArg View.t hv]

/-! ## Acknowledgements -/

section

variable (e : Env) (c : Conn) (s : Sock) (ack wnd : U32) (dlen : Nat) (o : TOpt)

theorem view_congr {s s' : Sock} (calls : List SegCall) (h : s.tcb = s'.tcb) :
    Conn.view ⟨s, calls⟩ = Conn.view ⟨s', calls⟩ :=
  congrArg (View.mk · _) h

theorem enterRec_outs (hstate : linked c.s.state = true) : Outs c.view (enterRec e c).view := by
  unfold enterRec
  dsimp only
  generalize hs : c.s.setCong _ = s
  have htcb : s.tcb = c.s.tcb := by rw [← hs, setCong_tcb]
  have hrange : s.tcb.RetxRange s.sndUna
      (if !s.sb.isEmpty && 0 < sd (s.sb.headD (0, 0)).1 s.sndUna then (s.sb.headD (0, 0)).1
        else s.sndMax) := by
    cases hsb : s.sb with
    | nil => exact .inl ⟨rfl, rfl⟩
    | cons r rest =>
      split
      · next hpos =>
          refine .inr ⟨⟨r, ?_, rfl⟩, Serial.diff_neg_of_pos (of_decide_eq_true hpos),
            .inl (Serial.diff_self _).ge⟩
          rw [show s.tcb.sb = s.sb from rfl, hsb]
          simp
      · exact .inl ⟨rfl, rfl⟩
  have hretx := retxOne_outs e ⟨s, c.calls⟩ _ _ (hs ▸ hstate) hrange
  rw [view_congr c.calls htcb] at hretx
  rw [view_mk (Sock.setRtt _ _), setRtt_tcb, setRexmitHi_tcb]
  exact hretx

theorem quiet_outs {s : Sock} (h : s.tcb = c.s.tcb) : Outs c.view (Conn.view ⟨s, c.calls⟩) := by
  rw [show Conn.view ⟨s, c.calls⟩ = c.view from view_congr c.calls h]

theorem dupAckIn_outs (hstate : linked c.s.state = true) :
    Outs c.view (dupAckIn e c wnd dlen o).view := by
  unfold dupAckIn
  dsimp only
  split
  · exact .refl
  split
  · exact quiet_outs c (setWnd_tcb _ _)
  split
  · split
    · exact (quiet_outs c (by simp)).trans (enterRec_outs e _ hstate)
    · exact quiet_outs c (by simp)
  · split <;> exact quiet_outs c (by simp)
  · exact quiet_outs c (by simp)

theorem ackRecovery_outs (acked : U32) (hstate : linked c.s.state = true)
    (hack : ack = c.s.sndUna) : Outs c.view (ackRecovery e c ack acked).view := by
  unfold ackRecovery
  dsimp only
  split
  · split
    · exact quiet_outs c (by simp)
    split
    · rw [view_mk (Sock.setCong _ _), setCong_tcb]
      exact retxOne_outs e c ack c.s.sndMax hstate (.inl ⟨hack, rfl⟩)
    · exact quiet_outs c (by simp)
  · split <;> exact quiet_outs c (by simp)

theorem sackAll_tcb : (sackAll s o).tcb = (sackList s o).foldl Tcb.sbAdd s.tcb := by
  have hfold : ∀ (l : List (U32 × U32)) (s : Sock),
      (l.foldl sbAdd s).tcb = l.foldl Tcb.sbAdd s.tcb := by
    intro l
    induction l with
    | nil => exact fun _ => rfl
    | cons r rest ih => exact fun s => ih (sbAdd s r)
  unfold sackAll sackList
  split
  · exact hfold o.sack s
  · rfl

theorem sackAll_eq : (sackAll s o).tcb = { s.tcb with sb := (sackAll s o).tcb.sb } := by
  rw [sackAll_tcb]
  exact foldl_sbAdd_frame _ _

@[simp] theorem sackAll_sndUna : (sackAll s o).sndUna = s.sndUna :=
  congrArg (·.sndUna) (sackAll_eq s o)

@[simp] theorem sackAll_state : (sackAll s o).state = s.state :=
  congrArg (·.state) (sackAll_eq s o)

@[simp] theorem acked_tcb : (sbTrim (ackRing s ack)).tcb = s.tcb.acked ack := rfl

theorem tcpAckIn_mid (hstate : linked c.s.state = true) :
    AckMid c.s.tcb (sackList c.s o) ack c.view.sent (tcpAckIn e c ack wnd dlen o).view := by
  unfold tcpAckIn
  dsimp only
  split
  · next hlt => exact .outside (.inl hlt)
  split
  · next hgt =>
      exact .outside (.inr hgt)
  rw [sackAll_sndUna]
  split
  · next heq =>
      refine .dup _ heq ?_ fun hsyn => ?_
      · rw [← sackAll_tcb]
        exact dupAckIn_outs e ⟨sackAll c.s o, c.calls⟩ wnd dlen o
          ((congrArg linked (sackAll_state c.s o)).trans hstate)
      rw [← sackAll_tcb]
      rw [show dupAckIn e ⟨sackAll c.s o, c.calls⟩ wnd dlen o = ⟨sackAll c.s o, c.calls⟩ from
        if_pos ((sackAll_state c.s o).trans hsyn)]
      rfl
  next hlt hgt hne =>
  have hpos : 0 < sd ack c.s.sndUna :=
    lt_of_le_of_ne (not_lt.1 hlt) fun h => hne (Serial.diff_eq_zero.1 h.symm)
  refine .advance _ hpos (not_lt.1 hgt) ?_
  generalize hs : Sock.setRtt _ (ackRtt _ _ _ _) = s
  have htcb : s.tcb = (sbTrim (ackRing (sackAll c.s o) ack)).tcb := by
    simp only [← hs, setRtt_tcb, setCong_tcb, setWnd_tcb]
  rw [← sackAll_tcb, ← acked_tcb, ← htcb]
  refine ackRecovery_outs e ⟨s, c.calls⟩ ack _ ?_ ?_
  · have h := congrArg (fun t : Tcb => linked t.state) htcb
    exact h.trans ((congrArg linked (sackAll_state c.s o)).trans hstate)
  · exact (congrArg (fun t : Tcb => t.sndUna) htcb).symm

end

end SamaraOS.Net
