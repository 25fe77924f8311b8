import SamaraOS.Net.Phases

/-!
# Ties between a connection and its listener

Until it is accepted a connection points to its listener, and no file refers to
it.  These fields, and whether the slot is in use, are all that a listener's
queue depends on; here is what each event does to them.
-/

namespace SamaraOS.Net

variable {e : Env}

theorem outPart_still (c : Conn) : (outPart e c).s.tcb.toStill = c.s.tcb.toStill := by
  unfold outPart
  dsimp only
  split
  · rw [tcpSegment_tcb, tcpOutput_still]
  · exact tcpOutput_still e c

theorem AckMid.ctl {t : Tcb} {blocks : List (U32 × U32)} {ack : U32} {sent : List Sent}
    {v : View} (h : AckMid t blocks ack sent v) : v.t.toCtl = t.toCtl := by
  rw [h.frame]

variable {s s' : Sock} {ev : Event}

theorem reapIfDone_le (h : (reapIfDone e s).used = true) : s.used = true := by
  simp only [reapIfDone] at h
  split at h
  · cases h
  · exact h

theorem reapIfDone_used (h : s.parent ≠ none) : (reapIfDone e s).used = s.used := by
  simp [reapIfDone, h]

def SameCtl (s s' : Sock) : Prop := s'.tcb.toCtl = s.tcb.toCtl

structure Ends (s s' : Sock) : Prop where
  acceptq : s'.acceptq = s.acceptq
  refs : s'.refs = s.refs
  used : s'.used = true → s.used = true
  parent : s'.parent = s.parent ∨ s'.parent = none

theorem SameCtl.ends (h : SameCtl s s') : Ends s s' :=
  ⟨congrArg Ctl.acceptq h, congrArg Ctl.refs h, (congrArg Ctl.used h).symm.trans,
    .inl (congrArg Ctl.parent h)⟩

theorem Ends.of_same {s₁ : Sock} (h : SameCtl s₁ s) (hends : Ends s s') : Ends s₁ s' := by
  have hs := h.ends
  refine ⟨hends.acceptq.trans hs.acceptq, hends.refs.trans hs.refs,
    fun hused => hs.used (hends.used hused), ?_⟩
  rcases hends.parent with hp | hp
  · rw [hp]
    exact hs.parent
  · exact .inr hp

theorem tcpKill_ctl (s : Sock) (err : Option Errno) :
    Ends s (tcpKill e s err) ∧ (s.parent ≠ none → (tcpKill e s err).used = false) := by
  unfold tcpKill
  dsimp only
  split
  · exact ⟨⟨rfl, rfl, fun h => absurd h Bool.false_ne_true, .inr rfl⟩, fun _ => rfl⟩
  next hp =>
  exact ⟨⟨rfl, rfl, reapIfDone_le, .inl rfl⟩,
    fun h => absurd (Option.isSome_iff_ne_none.2 h) hp⟩

def AckCtl (c : Conn) (ok : Bool) : AckRes → Prop
  | .go c' queued => SameCtl c.s c'.s ∧
      (queued = true → c.s.state = .synRcvd ∧ ok = true ∧ c'.s.state = .established)
  | .stop c' => Ends c.s c'.s ∧
      (c.s.parent ≠ none → c.s.state ≠ .synRcvd → SameCtl c.s c'.s)

theorem finAck_ctl {c c₁ : Conn} {ok queued : Bool} (hctl : SameCtl c.s c₁.s)
    (hq : queued = true → c.s.state = .synRcvd ∧ ok = true ∧ c₁.s.state = .established) :
    AckCtl c ok (finAck e c₁ queued) := by
  unfold finAck
  split
  swap
  · exact ⟨hctl, hq⟩
  split
  · next hst =>
      exact ⟨hctl, fun h => absurd (hst.symm.trans (hq h).2.2) (by decide)⟩
  · next hst =>
      exact ⟨hctl, fun h => absurd (hst.symm.trans (hq h).2.2) (by decide)⟩
  · refine ⟨Ends.of_same hctl ⟨rfl, rfl, reapIfDone_le, .inl rfl⟩, fun hp _ => ?_⟩
    have hp₁ : (toClosed c₁.s).parent ≠ none := by
      rwa [show (toClosed c₁.s).parent = c.s.parent from congrArg Ctl.parent hctl]
    unfold SameCtl
    rw [reapIfDone_tcb, reapIfDone_used hp₁]
    exact hctl
  · exact ⟨hctl, hq⟩

theorem ackPart_ctl (c : Conn) (h : Hdr) (o : TOpt) (ok : Bool) (hlink : linked c.s.state = true) :
    AckCtl c ok (ackPart e c h o ok) := by
  unfold ackPart
  split
  swap
  · exact ⟨rfl, by simp⟩
  have hmid := tcpAckIn_mid e c h.ack (hdrWnd c.s h) h.data.length o hlink
  generalize tcpAckIn e _ _ _ _ _ = c₁ at hmid
  have hctl : SameCtl c.s c₁.s := hmid.ctl
  have hst : c₁.s.state = c.s.state := congrArg Tcb.state hmid.frame
  by_cases hest : c₁.s.state = .synRcvd ∧ h.ack = c₁.s.sndNxt
  · have hsyn : c.s.state = .synRcvd := hst ▸ hest.1
    cases ok with
    | true =>
      rw [show estAck e c₁ h true = .go ⟨c₁.s.setState .established, c₁.calls⟩ true by
        simp [estAck, hest]]
      exact finAck_ctl hctl fun _ => ⟨hsyn, rfl, rfl⟩
    | false =>
      have hends := hctl.ends
      simp only [estAck, if_pos hest, Bool.false_eq_true, if_false]
      exact ⟨⟨hends.acceptq, hends.refs, fun h => absurd h Bool.false_ne_true, .inr rfl⟩,
        fun _ hne => absurd hsyn hne⟩
  rw [show estAck e c₁ h ok = .go c₁ false by simp [estAck, hest]]
  exact finAck_ctl hctl (by simp)

structure CtlStep (e : Env) (ev : Event) (s s' : Sock) : Prop extends Ends s s' where
  kept : aborts e s ev = false → s.parent ≠ none → s.state ≠ .synRcvd → SameCtl s s'
  killed : aborts e s ev = true → s.parent ≠ none → s'.used = false

theorem CtlStep.same (h : SameCtl s s') (hev : aborts e s ev = false) : CtlStep e ev s s' :=
  ⟨h.ends, fun _ _ _ => h, fun hkill => absurd hkill (by simp [hev])⟩

theorem CtlStep.kill (h : SameCtl s s') (err : Option Errno)
    (hev : aborts e s ev = true) : CtlStep e ev s (tcpKill e s' err) := by
  obtain ⟨hends, hused⟩ := tcpKill_ctl (e := e) s' err
  refine ⟨hends.of_same h, fun hno => absurd hev (by simp [hno]), fun _ hp => hused ?_⟩
  rwa [show s'.parent = s.parent from congrArg Ctl.parent h]

section

variable (c : Conn) (s : Sock) (a : AckSt) (calls : List SegCall) (h : Hdr) (ok : Bool)

theorem rstIn_ctl (hrst : h.fl.rst = true) : CtlStep e (.segment h ok) s (rstIn e s h) := by
  unfold rstIn
  split
  · next hstate =>
      split
      · next hack => exact .kill rfl _ (by simp [aborts, hrst, hack])
      · next hack => exact .same rfl (by simp [aborts, hstate, hack])
  next hstate =>
  have habort : aborts e s (.segment h ok) = true := by simp [aborts, hrst, hstate]
  split <;> exact .kill rfl _ habort

theorem synSentIn_ctl (o : TOpt) : SameCtl c.s (synSentIn e c h o).s := by
  unfold synSentIn SameCtl
  split
  · dsimp only
    generalize hs : ccInit _ = s
    have hctl : s.tcb.toCtl = c.s.tcb.toCtl := by
      rw [← hs]
      rfl
    rw [tcpOutput_still, tcpSegment_tcb, hctl]
  · rfl

theorem sockIn_ctl (hclosed : c.s.state ≠ .closed) (hlisten : c.s.state ≠ .listen) :
    CtlStep e (.segment h ok) c.s (sockIn e c h ok).1.s ∧
      ((sockIn e c h ok).2 = true → c.s.state = .synRcvd ∧ ok = true ∧
        SameCtl c.s (sockIn e c h ok).1.s ∧ (sockIn e c h ok).1.s.state ≠ .synRcvd) := by
  have hno : h.fl.rst = false → aborts e c.s (.segment h ok) = false := by
    intro hrst
    simp [aborts, hrst]
  unfold sockIn
  dsimp only
  split
  · next hrst => exact ⟨rstIn_ctl c.s h ok hrst, by simp⟩
  next hrst =>
  have habort := hno (by simpa using hrst)
  split
  · exact ⟨.same (synSentIn_ctl c h _) habort, by simp⟩
  next hsyn =>
  have hlink := linked_of_ne hclosed hlisten hsyn
  generalize hp : notePeer e c.s = p
  have hptcb : p.tcb = c.s.tcb := by rw [← hp, notePeer_tcb]
  have hout : ∀ c' : Conn, SameCtl c.s c'.s → SameCtl c.s (outPart e c').s := by
    intro c' hc'
    unfold SameCtl
    rw [outPart_still]
    exact hc'
  split
  · refine ⟨.same (hout _ ?_) habort, by simp⟩
    unfold SameCtl
    rw [setAckNow_tcb, hptcb]
  split
  · refine ⟨.same (hout _ ?_) habort, by simp⟩
    unfold SameCtl
    rw [setAckNow_tcb, noteTs_tcb, hptcb]
  generalize hn : noteTs p h (parseOpts h.opts) = n
  have hntcb : n.tcb = c.s.tcb := by rw [← hn, noteTs_tcb, hptcb]
  have hnst : n.state = c.s.state := congrArg Tcb.state hntcb
  have hsame : SameCtl c.s n := congrArg (fun t : Tcb => t.toCtl) hntcb
  have hack := ackPart_ctl (e := e) ⟨n, c.calls⟩ h (parseOpts h.opts) ok (by rwa [hnst])
  cases hres : ackPart e ⟨n, c.calls⟩ h (parseOpts h.opts) ok with
  | go c' queued =>
    rw [hres] at hack
    have hfin : SameCtl c.s (finPart e (dataPart e c'.s h)) := by
      unfold SameCtl
      rw [receive_frame]
      exact hack.1.trans hsame
    refine ⟨.same (hout _ hfin) habort, fun hqueued => ?_⟩
    obtain ⟨hsynr, hok, hest⟩ := hack.2 hqueued
    refine ⟨hnst ▸ hsynr, hok, hout _ hfin, ?_⟩
    have hreceive : Phases e (.segment h ok) c'.s c'.view
        (Conn.view ⟨finPart e (dataPart e c'.s h), c'.calls⟩) :=
      .single (.receive h ok c'.view.sent c'.s rfl (by rw [hest]; rfl) rfl (by rw [hest]; rfl))
    exact Phases.ne_synRcvd (hreceive.trans (outPart_phases _))
      (show c'.s.state ≠ .synRcvd by rw [hest]; decide)
  | stop c' =>
    rw [hres] at hack
    refine ⟨⟨hack.1.of_same hsame, fun _ hpar hst => (hack.2 ?_ ?_).trans hsame,
      fun hk => absurd hk (by simp [habort])⟩, by simp⟩
    · rwa [show n.parent = c.s.parent from congrArg Ctl.parent hsame]
    · rwa [hnst]

theorem rtoFire_ctl (hdue : rtoDue e s = true)
    (hstate : linked s.state = true ∨ s.state = .synSent) (hwait : s.state ≠ .timeWait) :
    CtlStep e .tick s (rtoFire e ⟨s.setAck a, calls⟩).s := by
  have habort : aborts e s .tick = gaveUp s := by
    rw [aborts_tick hstate hwait, if_pos hdue]
  unfold rtoFire
  dsimp only
  generalize hs : Sock.setRtt (s.setAck a) _ = s₁
  have hsame : SameCtl s s₁ := by
    unfold SameCtl
    rw [← hs, setRtt_tcb, setAck_tcb]
  split
  · next hgive =>
      refine .kill ?_ _ (habort.trans hgive)
      split
      · exact hsame
      exact hsame
  next hgive =>
  have hno : aborts e s .tick = false := habort.trans (Bool.not_eq_true _ ▸ hgive)
  refine .same ?_ hno
  unfold SameCtl
  split
  · rw [tcpSegment_tcb, setRtt_tcb]
    exact hsame
  · rw [tcpSegment_tcb, setRtt_tcb]
    exact hsame
  rw [tcpOutput_still, rewind_tcb]
  exact hsame

theorem kaFire_ctl (hdue : rtoDue e s = false) (hka : kaDue e s = true)
    (hstate : linked s.state = true ∨ s.state = .synSent) (hwait : s.state ≠ .timeWait) :
    CtlStep e .tick s (kaFire e ⟨s.setAck a, calls⟩).s := by
  have habort : aborts e s .tick = decide (s.ka.kaCnt ≤ s.ka.kaN) := by
    rw [aborts_tick hstate hwait, hdue, if_neg Bool.false_ne_true, hka, Bool.true_and]
  unfold kaFire
  split
  · next hcnt =>
      refine .kill ?_ _ (habort.trans (decide_eq_true hcnt))
      unfold SameCtl
      rw [tcpSegment_tcb, setAck_tcb]
  next hcnt =>
  refine .same ?_ (habort.trans (decide_eq_false hcnt))
  unfold SameCtl
  rw [setKa_tcb, tcpSegment_tcb, setAck_tcb]

theorem tickSock_ctl (hlisten : c.s.state ≠ .listen) : CtlStep e .tick c.s (tickSock e c).s := by
  unfold tickSock
  split
  · next hstate =>
      have hno : aborts e c.s .tick = false := by simp [aborts, timedOut, hstate]
      split
      · refine ⟨⟨rfl, rfl, reapIfDone_le, .inl rfl⟩, fun _ hp _ => ?_,
          fun hk => absurd hk (by simp [hno])⟩
        unfold SameCtl
        rw [reapIfDone_tcb, reapIfDone_used (s := c.s.setState .closed) hp]
        rfl
      · exact .same rfl hno
  · next hstate => exact .same rfl (by simp [aborts, timedOut, hstate])
  · next hstate => exact absurd hstate hlisten
  next hwait hclosed _ =>
  have hstate : linked c.s.state = true ∨ c.s.state = .synSent := by
    by_cases h : c.s.state = .synSent
    · exact .inr h
    · exact .inl (linked_of_ne hclosed hlisten h)
  obtain ⟨a, calls, htick, -⟩ := ackTick_eq (e := e) c
  rw [htick]
  change CtlStep e .tick c.s (if rtoDue e c.s then rtoFire e ⟨c.s.setAck a, calls⟩
    else if kaDue e c.s then kaFire e ⟨c.s.setAck a, calls⟩ else ⟨c.s.setAck a, calls⟩).s
  split
  · next hdue => exact rtoFire_ctl c.s a calls hdue hstate hwait
  next hdue =>
  have hdue' : rtoDue e c.s = false := by simpa using hdue
  split
  · next hka => exact kaFire_ctl c.s a calls hdue' hka hstate hwait
  next hka =>
  refine .same rfl ?_
  rw [aborts_tick hstate hwait, hdue']
  simp [hka]

end

/-- The calls on an open socket, apart from those that count references. -/
def Event.isCall : Event → Bool
  | .connect .. | .listen .. | .bind .. | .send _ | .recv .. | .shutdown _ | .opt _ | .setcc _
  | .takeError => true
  | _ => false

section

variable (c : Conn)

theorem output_ctl {c : Conn} (c' : Conn) (h : SameCtl c.s c'.s) :
    SameCtl c.s (tcpOutput e c').s := by
  unfold SameCtl
  rw [tcpOutput_still]
  exact h

theorem setbuf_ctl (s : Sock) (rc tc : Nat) : SameCtl s (tcpSetbuf e s rc tc) := by
  unfold SameCtl
  rw [tcpSetbuf_resized e s rc tc]

theorem connect_ctl (slot : Slot) (ip : Addr) (port : U16) (lip : Addr) (lport : U16) :
    SameCtl c.s (sockConnect e c slot ip port lip lport).s := by
  unfold sockConnect SameCtl
  split
  · dsimp only
    unfold connectBuf
    split
    · exact setbuf_ctl _ _ _
    · rfl
  · rfl

theorem recv_ctl (len : Nat) (peek : Bool) : SameCtl c.s (sockRecv e c len peek).1.s := by
  unfold sockRecv SameCtl
  split
  · rfl
  split
  · split
    · rfl
    · split <;> rfl
  split
  · rfl
  unfold takeRx
  dsimp only
  split
  · rw [tcpSegment_tcb]
    rfl
  · rfl

theorem opt_ctl (o : SockOpt) : SameCtl c.s (sockOpt e c o).s := by
  cases o with
  | sndbuf val => exact setbuf_ctl (setWant c.s c.s.wantRx (dblClamp val)) _ _
  | rcvbuf val => exact setbuf_ctl (setWant c.s (dblClamp val) c.s.wantTx) _ _
  | nodelay val =>
    dsimp only [sockOpt]
    split
    · exact output_ctl ⟨setNodelay c.s (val ≠ 0), c.calls⟩ rfl
    · rfl
  | cork val =>
    dsimp only [sockOpt]
    split
    · exact output_ctl ⟨setCork c.s (val ≠ 0), c.calls⟩ rfl
    · rfl
  | maxseg val =>
    dsimp only [sockOpt]
    split <;> rfl
  | keepalive | keepidle | keepintvl | keepcnt => rfl

theorem call_ctl (h : ev.isCall = true) : SameCtl c.s (stepConn e c ev).s := by
  cases ev with
  | connect slot ip port lip lport => exact connect_ctl c slot ip port lip lport
  | listen lip lport backlog =>
    change SameCtl c.s (sockListen c lip lport backlog).s
    unfold sockListen
    split <;> rfl
  | bind lip lport | setcc cc | takeError => rfl
  | send buf =>
    change SameCtl c.s (sockSend e c buf).1.s
    rcases sockSend_cases (e := e) c buf with hc | hc | ⟨-, -, hc⟩ <;> rw [hc]
    · rfl
    · rfl
    · exact output_ctl _ rfl
  | recv len peek => exact recv_ctl c len peek
  | shutdown how =>
    change SameCtl c.s (sockShutdown e c how).s
    unfold sockShutdown
    split <;> first | rfl | (split <;> first | rfl | exact output_ctl _ rfl)
  | opt o => exact opt_ctl c o
  | _ => exact absurd h Bool.false_ne_true

theorem reset_tcb :
    (stepConn e c .reset).s.tcb = { c.s.tcb with parent := none, used := false } := by
  dsimp only [stepConn]
  rw [freeSock_tcb, tcpSegment_tcb, setParent_tcb]

theorem reset_ends : (stepConn e c .reset).s.used = false ∧
    (stepConn e c .reset).s.acceptq = c.s.acceptq :=
  ⟨congrArg (fun t : Tcb => t.used) (reset_tcb (e := e) c),
    congrArg (fun t : Tcb => t.acceptq) (reset_tcb (e := e) c)⟩

theorem Phase.listen_stays {s₀ : Sock} {v v' : View} (h : Phase e ev s₀ v v')
    (hs₀ : s₀.state = .listen) (hev : aborts e s₀ ev = false) (hv : v.t.state = .listen) :
    v'.t.state = .listen := by
  have hlink : linked s₀.state ≠ true := by simp [hs₀, linked]
  cases h with
  | call | control | shut | recv | maxseg | connect => exact hv
  | out h => rwa [h.frame]
  | fin v hdue => exact absurd hdue.1 (by simp [hv, canSend])
  | ack _ _ _ _ _ hstate | rewind _ _ _ _ hstate => exact absurd hstate hlink
  | refuse _ _ _ _ _ hstate => exact absurd (hs₀.symm.trans hstate) (by decide)
  | receive _ _ _ s _ hstate => exact absurd hstate (by simp [show s.state = _ from hv, linked])
  | kill _ _ _ _ h => exact absurd h (by simp [hev])
  | expire _ _ h => exact absurd (hv.symm.trans h) (by decide)
  | write _ _ _ hstate => simp [hs₀] at hstate
  | resizeRx => rwa [setbufRx_frame]
  | resizeTx => rwa [setbufTx_frame]
  | start _ _ hstate => exact absurd (hv.symm.trans hstate) (by decide)
  | listen => rfl
  | synAck _ _ _ _ hsyn => simp [synAckFor, hs₀] at hsyn

theorem enabled_of_call (h : ev.isCall = true) : Enabled s ev := by
  cases ev with
  | segment | close => exact absurd h Bool.false_ne_true
  | _ => trivial

theorem call_listen (h : ev.isCall = true) (hlisten : c.s.state = .listen) :
    (stepConn e c ev).s.state = .listen := by
  have hno : aborts e c.s ev = false := by
    cases ev with
    | segment | tick => exact absurd h Bool.false_ne_true
    | _ => rfl
  have hphases := stepConn_phases e c ev (enabled_of_call h)
  change (stepConn e c ev).view.t.state = .listen
  generalize (stepConn e c ev).view = v at hphases
  induction hphases with
  | refl => exact hlisten
  | tail _ hlast ih => exact hlast.listen_stays hlisten hno ih

end

end SamaraOS.Net
