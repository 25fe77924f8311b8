import SamaraOS.Net.Sending

/-!
# The phases of an event

Every event on a socket is a series of phases: the moves of the sending code,
and the few places where the code changes the connection otherwise.  A phase
that depends on the input names the socket `s₀` the event found, so that what is
assumed about an event can be stated on the state before it.  The invariants of
a connection are proved once for each phase.
-/

namespace SamaraOS.Net

open Relation Conn

def afterFinAck : TcpState → TcpState
  | .finWait1 => .finWait2
  | .closing => .timeWait
  | .lastAck => .closed
  | st => st

namespace Tcb

def estState (t : Tcb) (ack : U32) : TcpState :=
  if t.state = .synRcvd ∧ ack = t.sndNxt then .established else t.state

def finAcked (t : Tcb) : Prop := t.finSent = true ∧ t.sndUna = t.sndNxt

instance (t : Tcb) : Decidable t.finAcked := inferInstanceAs (Decidable (_ ∧ _))

def ackedState (t : Tcb) : TcpState :=
  if t.finAcked then afterFinAck t.state else t.state

/-- The two looks `tcp_in` takes at the state after `tcp_ack_in`. -/
def settle (t : Tcb) (ack : U32) : Tcb :=
  let t := { t with state := t.estState ack }
  { t with state := t.ackedState }

def rewindState (t : Tcb) : TcpState :=
  if t.finSent then
    match t.state with
    | .finWait1 => .established
    | .lastAck => .closeWait
    | .closing => .established
    | st => st
  else t.state

def rewound (t : Tcb) (sb : List (U32 × U32)) : Tcb :=
  { t with sb := sb, sndNxt := t.sndUna, finSent := false, state := t.rewindState }

def dial (t : Tcb) (ip : Addr) (iss : U32) : Tcb :=
  { t with rip := ip, sndUna := iss, sndNxt := iss + 1, sndMax := iss + 1, txSeq := iss + 1 }

def append (t : Tcb) (buf : List U8) : Tcb :=
  let n := min buf.length (sub32 t.txCap t.txLen)
  { t with
    tx := Ring.write t.tx t.txCap ((t.txHead + t.txLen) % t.txCap) (buf.take n)
    txLen := (t.txLen + n) % 2 ^ 32 }

def take (t : Tcb) (n : Nat) : Tcb :=
  { t with rxHead := (t.rxHead + n) % t.rxCap, rxCount := t.rxCount - n }

end Tcb

def timedOut (e : Env) (s : Sock) : Bool :=
  match s.state with
  | .timeWait | .closed | .listen => false
  | _ => if rtoDue e s then gaveUp s else kaDue e s && s.ka.kaCnt ≤ s.ka.kaN

def aborts (e : Env) (s : Sock) : Event → Bool
  | .segment h _ => h.fl.rst && (s.state != .synSent || h.fl.ack)
  | .tick => timedOut e s
  | _ => false

def synAckFor (s : Sock) (h : Hdr) : Bool :=
  s.state == .synSent && h.fl.syn && h.fl.ack && h.ack == s.sndNxt

def Event.isConnect : Event → Bool
  | .connect .. => true
  | _ => false

def Event.isListen : Event → Bool
  | .listen .. => true
  | _ => false

inductive Phase (e : Env) (ev : Event) (s₀ : Sock) : View → View → Prop where
  | call (t : Tcb) (sent : List Sent) (seq : U32) (fl : Flags) (hfin : fl.fin = false) :
      Phase e ev s₀ ⟨t, sent⟩ ⟨t, sent ++ [⟨t, seq, fl, 0⟩]⟩
  | out {v v' : View} (h : Out v v') (hstate : canSend v.t.state = true) : Phase e ev s₀ v v'
  | fin (v : View) (h : v.t.FinDue) : Phase e ev s₀ v v.sendFin
  | ack (h : Hdr) (ok : Bool) (sent : List Sent) (v : View) (hev : ev = .segment h ok)
      (hstate : linked s₀.state = true)
      (hmid : AckMid s₀.tcb (sackList s₀ (parseOpts h.opts)) h.ack sent v) :
      Phase e ev s₀ ⟨s₀.tcb, sent⟩ ⟨v.t.settle h.ack, v.sent⟩
  | refuse (h : Hdr) (ok : Bool) (sent : List Sent) (v : View) (hev : ev = .segment h ok)
      (hstate : s₀.state = .synRcvd)
      (hmid : AckMid s₀.tcb (sackList s₀ (parseOpts h.opts)) h.ack sent v)
      (hack : h.ack = v.t.sndNxt) :
      Phase e ev s₀ ⟨s₀.tcb, sent⟩
        ⟨{ v.t with state := .established, parent := none, used := false },
          v.sent ++ [⟨{ v.t with state := .established, parent := none }, v.t.sndNxt,
            { rst := true }, 0⟩]⟩
  | receive (h : Hdr) (ok : Bool) (sent : List Sent) (s : Sock) (hev : ev = .segment h ok)
      (hstate : linked s.state = true) (hrcv : s.tcb.toRcv = s₀.tcb.toRcv)
      (hlink : linked s₀.state = true) :
      Phase e ev s₀ ⟨s.tcb, sent⟩ ⟨(finPart e (dataPart e s h)).tcb, sent⟩
  | kill (t : Tcb) (sent : List Sent) (used : Bool) (parent : Option Slot)
      (h : aborts e s₀ ev = true) :
      Phase e ev s₀ ⟨t, sent⟩
        ⟨{ t with state := .closed, used := used, parent := parent }, sent⟩
  | expire (t : Tcb) (sent : List Sent) (h : t.state = .timeWait) :
      Phase e ev s₀ ⟨t, sent⟩ ⟨{ t with state := .closed }, sent⟩
  | control (t : Tcb) (sent : List Sent) (used : Bool) (refs : Int) (parent : Option Slot)
      (acceptq : List Slot) :
      Phase e ev s₀ ⟨t, sent⟩
        ⟨{ t with used := used, refs := refs, parent := parent, acceptq := acceptq }, sent⟩
  | rewind (sent : List Sent) (sb : List (U32 × U32)) (hev : ev = .tick)
      (hdue : rtoDue e s₀ = true) (hstate : linked s₀.state = true)
      (hsyn : s₀.state ≠ .synRcvd) (hsb : sb = [] ∨ sb = s₀.sb) :
      Phase e ev s₀ ⟨s₀.tcb, sent⟩ ⟨s₀.tcb.rewound sb, sent⟩
  | write (buf : List U8) (sent : List Sent) (hev : ev = .send buf)
      (hstate : s₀.state = .established ∨ s₀.state = .closeWait) (hshut : s₀.shutWr = false) :
      Phase e ev s₀ ⟨s₀.tcb, sent⟩ ⟨s₀.tcb.append buf, sent⟩
  | shut (t : Tcb) (sent : List Sent) (hstate : linked t.state = true) :
      Phase e ev s₀ ⟨t, sent⟩ ⟨{ t with shutWr := true }, sent⟩
  | resizeRx (ok : Bool) (rc : Nat) (s : Sock) (sent : List Sent) (hcap : s.rxCap ≠ 0)
      (hrc : bufMin ≤ rc ∧ rc ≤ bufMax) :
      Phase e ev s₀ ⟨s.tcb, sent⟩ ⟨(setbufRx ok s rc).tcb, sent⟩
  | resizeTx (ok : Bool) (tc : Nat) (s : Sock) (sent : List Sent)
      (htc : bufMin ≤ tc ∧ tc ≤ bufMax) :
      Phase e ev s₀ ⟨s.tcb, sent⟩ ⟨(setbufTx ok s tc).tcb, sent⟩
  | recv (len : Nat) (sent : List Sent) (hev : ev = .recv len false)
      (hstate : s₀.state ≠ .listen ∧ s₀.state ≠ .synSent) (hcount : s₀.rxCount ≠ 0) :
      Phase e ev s₀ ⟨s₀.tcb, sent⟩ ⟨s₀.tcb.take (min s₀.rxCount len), sent⟩
  | maxseg (t : Tcb) (sent : List Sent) (mss : U16) (hlo : 64 ≤ mss.toNat)
      (hhi : mss.toNat ≤ t.mss.toNat) :
      Phase e ev s₀ ⟨t, sent⟩ ⟨{ t with mss := mss }, sent⟩
  | connect (slot : Slot) (ip : Addr) (port : U16) (lip : Addr) (lport : U16)
      (sent : List Sent) (iss : U32) (hev : ev = .connect slot ip port lip lport)
      (hstate : s₀.state = .closed) :
      Phase e ev s₀ ⟨s₀.tcb, sent⟩ ⟨s₀.tcb.dial ip iss, sent⟩
  | start (t : Tcb) (sent : List Sent) (hstate : t.state = .closed) (hev : ev.isConnect = true) :
      Phase e ev s₀ ⟨t, sent⟩ ⟨{ t with state := .synSent }, sent⟩
  | listen (lip : Addr) (lport : U16) (backlog : Int) (sent : List Sent)
      (hev : ev = .listen lip lport backlog)
      (hstate : s₀.state = .closed ∨ s₀.state = .listen) :
      Phase e ev s₀ ⟨s₀.tcb, sent⟩
        ⟨{ s₀.tcb with state := .listen, rxCap := 0, txCap := 0 }, sent⟩
  | synAck (h : Hdr) (ok : Bool) (sent : List Sent) (hev : ev = .segment h ok)
      (hsyn : synAckFor s₀ h = true) :
      Phase e ev s₀ ⟨s₀.tcb, sent⟩
        ⟨{ s₀.tcb with
            mss := (synOpts s₀ (parseOpts h.opts)).mss, rcvNxt := h.seq + 1, sndUna := h.ack,
            state := .established }, sent⟩

abbrev Phases (e : Env) (ev : Event) (s₀ : Sock) : View → View → Prop :=
  ReflTransGen (Phase e ev s₀)

/-! ## What a phase leaves alone -/

section

variable (ok : Bool) (e : Env) (r : DataRes) (s : Sock) (h : Hdr)

theorem absorb_frame (fuel : Nat) (s : Sock) :
    (absorb fuel s).tcb = { s.tcb with toRcv := (absorb fuel s).tcb.toRcv } := by
  induction fuel generalizing s with
  | zero => rfl
  | succ fuel ih =>
    unfold absorb
    split
    · rfl
    rw [ih]
    rfl

theorem takeData_frame (seq : U32) (off : Nat) (data : List U8) : (takeData e s seq off data).tcb =
      { s.tcb with toRcv := (takeData e s seq off data).tcb.toRcv } := by
  unfold takeData
  split
  · rw [setAck_tcb, absorb_frame]
    rfl
  · rfl

theorem dataPart_frame :
    (dataPart e s h).s.tcb = { s.tcb with toRcv := (dataPart e s h).s.tcb.toRcv } := by
  unfold dataPart
  split
  · rfl
  dsimp only
  split
  · rfl
  split
  · rfl
  · exact takeData_frame e s _ _ _

theorem finPart_tcb : (finPart e r).tcb = r.s.tcb ∨
      (r.fin = true ∧ r.seq + BitVec.ofNat 32 r.dlen = r.s.rcvNxt ∧ r.s.finRcvd = false ∧
        takesData r.s.state = true ∧ (finPart e r).tcb = { r.s.tcb with
          rcvNxt := r.s.rcvNxt + 1, finRcvd := true, state := finRcvState r.s }) := by
  unfold finPart
  dsimp only
  split
  · next hfin =>
      split
      · next h => exact .inr ⟨hfin, h.1, h.2.1, h.2.2, rfl⟩
      · split <;> exact .inl rfl
  · exact .inl rfl

theorem finPart_frame : (finPart e r).tcb = { r.s.tcb with
      toRcv := (finPart e r).tcb.toRcv, state := (finPart e r).tcb.state } := by
  rcases finPart_tcb e r with h | ⟨-, -, -, -, h⟩ <;> rw [h]

theorem receive_frame : (finPart e (dataPart e s h)).tcb = { s.tcb with
      toRcv := (finPart e (dataPart e s h)).tcb.toRcv
      state := (finPart e (dataPart e s h)).tcb.state } := by
  rw [finPart_frame, dataPart_frame]

theorem dataPart_state : (dataPart e s h).s.state = s.state :=
  congrArg (fun t : Tcb => t.state) (dataPart_frame e s h)

theorem finRcvState_dataPart : finRcvState (dataPart e s h).s = finRcvState s := by
  have hframe := dataPart_frame e s h
  unfold finRcvState
  rw [dataPart_state,
    show (dataPart e s h).s.sndUna = s.sndUna from congrArg (fun t : Tcb => t.sndUna) hframe,
    show (dataPart e s h).s.sndNxt = s.sndNxt from congrArg (fun t : Tcb => t.sndNxt) hframe]

theorem receive_state : (finPart e (dataPart e s h)).tcb.state =
    s.state ∨ takesData s.state = true ∧ (finPart e (dataPart e s h)).tcb.state = finRcvState s :=
    by
  rcases finPart_tcb e (dataPart e s h) with heq | ⟨-, -, -, htakes, heq⟩
  · left
    rw [heq]
    exact dataPart_state e s h
  right
  rw [dataPart_state] at htakes
  refine ⟨htakes, ?_⟩
  rw [heq]
  exact finRcvState_dataPart e s h

theorem setbufRx_frame (rc : Nat) : (setbufRx ok s rc).tcb = { s.tcb with
      rx := (setbufRx ok s rc).rx, rxCap := (setbufRx ok s rc).rxCap,
      rxHead := (setbufRx ok s rc).rxHead, ooo := (setbufRx ok s rc).ooo } := by
  unfold setbufRx
  split <;> rfl

theorem setbufTx_frame (tc : Nat) : (setbufTx ok s tc).tcb = { s.tcb with
      tx := (setbufTx ok s tc).tx, txCap := (setbufTx ok s tc).txCap,
      txHead := (setbufTx ok s tc).txHead } := by
  unfold setbufTx
  split <;> rfl

end

variable {v v' : View} {e : Env} {ev : Event} {s₀ : Sock} {st : TcpState} {rc tc : Nat}

theorem AckMid.state {t : Tcb} {blocks : List (U32 × U32)} {ack : U32} {sent : List Sent}
    (h : AckMid t blocks ack sent v) : v.t.state = t.state := by
  rw [h.frame]

theorem Tcb.settle_state (t : Tcb) (ack : U32) :
    (t.settle ack).state = t.state ∨ (t.settle ack).state ∈
      [.established, .finWait2, .timeWait, .closed] := by
  simp only [settle, ackedState, estState]
  split <;> split <;> cases t.state <;> simp [afterFinAck]

theorem Phase.state_cases (h : Phase e ev s₀ v v') : v'.t.state = v.t.state ∨
      v'.t.state ≠ .synRcvd ∧ (v'.t.state = .listen → ev.isListen = true) := by
  cases h with
  | call | control | write | shut | recv | maxseg | connect => exact .inl rfl
  | out h => exact .inl (by rw [h.frame])
  | fin =>
    change finState v.t.state = v.t.state ∨ finState v.t.state ≠ .synRcvd ∧
      (finState v.t.state = .listen → _)
    cases v.t.state <;> simp [finState]
  | ack h ok sent v hev hstate hmid =>
    rcases v.t.settle_state h.ack with hst | hst
    · exact .inl (hst.trans hmid.state)
    right
    generalize (v.t.settle h.ack).state = st at hst
    cases st <;> simp_all
  | refuse | kill | expire | start | synAck => exact .inr ⟨by simp, by simp⟩
  | receive h ok sent s =>
    rcases receive_state e s h with heq | ⟨htakes, heq⟩
    · exact .inl heq
    right
    rw [heq]
    unfold finRcvState
    cases hst : s.state <;> simp_all [takesData]
    split <;> simp
  | rewind =>
    change Tcb.rewindState _ = s₀.tcb.state ∨ Tcb.rewindState _ ≠ _ ∧
      (Tcb.rewindState _ = .listen → _)
    unfold Tcb.rewindState
    split
    · cases s₀.tcb.state <;> simp
    · exact .inl rfl
  | resizeRx => exact .inl (by rw [setbufRx_frame])
  | resizeTx => exact .inl (by rw [setbufTx_frame])
  | listen _ _ _ _ hev => exact .inr ⟨by simp, fun _ => by rw [hev]; rfl⟩

theorem Phases.ne_synRcvd (h : Phases e ev s₀ v v') (hv : v.t.state ≠ .synRcvd) :
    v'.t.state ≠ .synRcvd := by
  induction h with
  | refl => exact hv
  | tail _ hlast ih =>
    rcases hlast.state_cases with heq | hne
    · rwa [heq]
    · exact hne.1

theorem Phases.ne_listen (h : Phases e ev s₀ v v') (hev : ev.isListen = false)
    (hv : v.t.state ≠ .listen) : v'.t.state ≠ .listen := by
  induction h with
  | refl => exact hv
  | tail _ hlast ih =>
    rcases hlast.state_cases with heq | hne
    · rwa [heq]
    · exact fun hst => absurd (hne.2 hst) (by simp [hev])

/-! ## Every event is a series of phases -/

section Code

variable {e : Env} {ev : Event} {s₀ : Sock}

section

variable (s : Sock) (a : AckSt) (calls : List SegCall) (c : Conn) (err : Option Errno) (h : Hdr)
  (ok : Bool)

theorem Outs.phases {v v' : View} (h : Outs v v') (hstate : canSend v.t.state = true) :
    Phases e ev s₀ v v' := by
  induction h with
  | refl => exact .refl
  | tail hinit hlast ih =>
    refine ih.tail (.out hlast ?_)
    rw [Outs.state hinit]
    exact hstate

theorem call_phases (seq : U32) (fl : Flags) (hfin : fl.fin = false) :
    Phases e ev s₀ c.view (tcpSegment e c seq fl 0).view := by
  rw [tcpSegment_view]
  exact .single (.call _ _ _ _ hfin)

theorem tcpOutput_phases : Phases e ev s₀ c.view (tcpOutput e c).view := by
  cases hstate : canSend c.s.state with
  | true =>
    obtain ⟨v, houts, hv | ⟨hdue, hv⟩⟩ := tcpOutput_view e c
    · rw [hv]
      exact houts.phases hstate
    rw [hv]
    exact (houts.phases hstate).tail (.fin v hdue)
  | false =>
    rw [show tcpOutput e c = c from if_neg (by simp [hstate])]

theorem outPart_phases : Phases e ev s₀ c.view (outPart e c).view := by
  unfold outPart
  dsimp only
  split
  · exact (tcpOutput_phases c).trans (call_phases _ _ _ rfl)
  · exact tcpOutput_phases c

theorem reapIfDone_tcb : (reapIfDone e s).tcb = { s.tcb with used := (reapIfDone e s).used } := rfl

theorem tcpKill_tcb : (tcpKill e s err).tcb = { s.tcb with
      state := .closed
      used := (tcpKill e s err).used
      parent := (tcpKill e s err).parent } := by
  unfold tcpKill
  dsimp only
  split <;> rfl

theorem kill_phases (h : aborts e s₀ ev = true) :
    Phases e ev s₀ c.view (Conn.view ⟨tcpKill e c.s err, c.calls⟩) := by
  rw [view_mk (tcpKill _ _ _), tcpKill_tcb]
  exact .single (.kill _ _ _ _ h)

theorem rstIn_phases (hrst : h.fl.rst = true) :
    Phases e (.segment h ok) c.s c.view (Conn.view ⟨rstIn e c.s h, c.calls⟩) := by
  unfold rstIn
  split
  · next hstate =>
      split
      · next hack => exact kill_phases c _ (by simp [aborts, hrst, hack])
      · exact .refl
  next hstate =>
  have habort : aborts e c.s (.segment h ok) = true := by simp [aborts, hrst, hstate]
  split <;> exact kill_phases c _ habort

theorem synSentIn_phases (hstate : c.s.state = .synSent) :
    Phases e (.segment h ok) c.s c.view (synSentIn e c h (parseOpts h.opts)).view := by
  unfold synSentIn
  split
  · next hsyn =>
      have hfor : synAckFor c.s h = true := by simpa [synAckFor, hstate] using hsyn
      dsimp only
      generalize hs : ccInit _ = s
      have htcb : s.tcb = { c.s.tcb with
          mss := (synOpts c.s (parseOpts h.opts)).mss, rcvNxt := h.seq + 1, sndUna := h.ack,
          state := .established } := by
        rw [← hs]
        rfl
      have hfirst : Phases e (.segment h ok) c.s c.view (Conn.view ⟨s, c.calls⟩) := by
        rw [view_mk s, htcb]
        exact .single (.synAck h ok c.view.sent rfl hfor)
      exact (hfirst.trans (call_phases ⟨s, c.calls⟩ _ _ rfl)).trans (tcpOutput_phases _)
  · exact .refl

theorem linked_estState {t : Tcb} {ack : U32} (h : linked t.state = true) :
    linked (t.estState ack) = true := by
  unfold Tcb.estState
  split
  · rfl
  · exact h

theorem afterFinAck_eq (h₁ : st ≠ .finWait1) (h₂ : st ≠ .closing)
    (h₃ : st ≠ .lastAck) : afterFinAck st = st := by
  cases st <;> first | rfl | contradiction

theorem finAck_view (queued : Bool) : (∃ c', finAck e c queued = .go c' queued ∧
        c'.view = ⟨{ c.s.tcb with state := c.s.tcb.ackedState }, c.view.sent⟩ ∧
        (linked c.s.state = true → linked c'.s.state = true)) ∨
      (∃ c' used, finAck e c queued = .stop c' ∧
        c'.view = ⟨{ c.s.tcb with state := c.s.tcb.ackedState, used := used }, c.view.sent⟩) := by
  unfold finAck Tcb.ackedState
  split
  · next hacked =>
      rw [if_pos (show c.s.tcb.finAcked from hacked)]
      split
      · next hst =>
          refine .inl ⟨_, rfl, ?_, fun _ => rfl⟩
          rw [show c.s.tcb.state = .finWait1 from hst]
          rfl
      · next hst =>
          refine .inl ⟨_, rfl, ?_, fun _ => rfl⟩
          rw [show c.s.tcb.state = .closing from hst]
          rfl
      · next hst =>
          refine .inr ⟨_, (reapIfDone e (toClosed c.s)).used, rfl, ?_⟩
          rw [show c.s.tcb.state = .lastAck from hst, view_mk (reapIfDone _ _), reapIfDone_tcb]
          rfl
      next h₁ h₂ h₃ =>
      refine .inl ⟨c, rfl, ?_, id⟩
      rw [show afterFinAck c.s.tcb.state = c.s.tcb.state from afterFinAck_eq h₁ h₂ h₃]
      rfl
  next hacked =>
  rw [if_neg (show ¬ c.s.tcb.finAcked from hacked)]
  exact .inl ⟨c, rfl, rfl, id⟩

theorem finAck_phases {c c₁ : Conn} (c₂ : Conn) {h : Hdr} {ok : Bool} (queued : Bool)
    (hstate : linked c.s.state = true)
    (hmid : AckMid c.s.tcb (sackList c.s (parseOpts h.opts)) h.ack c.view.sent c₁.view)
    (htcb : c₂.s.tcb = { c₁.s.tcb with state := c₁.s.tcb.estState h.ack })
    (hcalls : c₂.calls = c₁.calls) :
    (∃ c', finAck e c₂ queued = .go c' queued ∧
        Phases e (.segment h ok) c.s c.view c'.view ∧ linked c'.s.state = true ∧
        c'.s.tcb.toRcv = c.s.tcb.toRcv) ∨
      (∃ c', finAck e c₂ queued = .stop c' ∧ Phases e (.segment h ok) c.s c.view c'.view) := by
  have hack : Phase e (.segment h ok) c.s c.view ⟨c₁.s.tcb.settle h.ack, c₁.view.sent⟩ :=
    .ack h ok c.view.sent c₁.view rfl hstate hmid
  have hsettle : ({ c₂.s.tcb with state := c₂.s.tcb.ackedState } : Tcb) =
      c₁.s.tcb.settle h.ack := by
    rw [htcb]
    rfl
  have hsent : c₂.view.sent = c₁.view.sent := congrArg (List.map _) hcalls
  have hframe := hmid.frame
  rcases finAck_view (e := e) c₂ queued with ⟨c', hgo, hview, hlink⟩ | ⟨c', used, hstop, hview⟩
  · rw [hsettle, hsent] at hview
    refine .inl ⟨c', hgo, ?_, hlink ?_, ?_⟩
    · rw [hview]
      exact .single hack
    · have hst : c₂.s.state = c₁.s.tcb.estState h.ack := congrArg Tcb.state htcb
      rw [hst]
      refine linked_estState ?_
      rw [show c₁.s.tcb.state = c.s.state from congrArg Tcb.state hframe]
      exact hstate
    rw [show c'.s.tcb = c₁.s.tcb.settle h.ack from congrArg View.t hview]
    change c₁.view.t.toRcv = c.s.tcb.toRcv
    rw [hframe]
  refine .inr ⟨c', hstop, ?_⟩
  have hused : c'.view = ⟨{ c₁.s.tcb.settle h.ack with used := used }, c₁.view.sent⟩ := by
    rw [hview, hsent, ← hsettle]
  rw [hused]
  exact (ReflTransGen.single hack).tail (.control _ _ _ _ _ _)

theorem ackPart_phases {s : Sock} (htcb : s.tcb = c.s.tcb) (hsack : s.sackOk = c.s.sackOk)
    (hstate : linked c.s.state = true) :
    (∃ c' queued, ackPart e ⟨s, c.calls⟩ h (parseOpts h.opts) ok = .go c' queued ∧
        Phases e (.segment h ok) c.s c.view c'.view ∧ linked c'.s.state = true ∧
        c'.s.tcb.toRcv = c.s.tcb.toRcv) ∨
      (∃ c', ackPart e ⟨s, c.calls⟩ h (parseOpts h.opts) ok = .stop c' ∧
        Phases e (.segment h ok) c.s c.view c'.view) := by
  have hlist : sackList s (parseOpts h.opts) = sackList c.s (parseOpts h.opts) := by
    simp only [sackList, hsack]
  have hview : Conn.view ⟨s, c.calls⟩ = c.view := view_congr c.calls htcb
  have hlink : linked s.state = true := by
    rw [← hstate]
    exact congrArg (fun t : Tcb => linked t.state) htcb
  unfold ackPart
  cases hfl : h.fl.ack with
  | false => exact .inl ⟨⟨s, c.calls⟩, false, by simp, by rw [hview], hlink, by rw [htcb]⟩
  | true =>
    have hmid := tcpAckIn_mid e ⟨s, c.calls⟩ h.ack (hdrWnd s h) h.data.length
      (parseOpts h.opts) hlink
    rw [htcb, hlist, hview] at hmid
    generalize tcpAckIn e _ _ _ _ _ = c₁ at hmid
    by_cases hest : c₁.s.state = .synRcvd ∧ h.ack = c₁.s.sndNxt
    · have hst : c₁.s.tcb.estState h.ack = .established := if_pos hest
      cases ok with
      | true =>
        rw [show estAck e c₁ h true = .go ⟨c₁.s.setState .established, c₁.calls⟩ true by
          simp [estAck, hest]]
        rcases finAck_phases ⟨c₁.s.setState .established, c₁.calls⟩ true hstate hmid
          (by rw [hst, setState_tcb]) rfl with ⟨c', hgo, hphases⟩ | hstop
        · exact .inl ⟨c', true, hgo, hphases⟩
        · exact .inr hstop
      | false =>
        right
        refine ⟨_, by simp only [estAck, if_pos hest, Bool.false_eq_true, if_false]; rfl, ?_⟩
        rw [view_mk (freeSock _), freeSock_tcb, tcpSegment_tcb, tcpSegment_sent]
        have hsyn : c.s.state = .synRcvd := by
          rw [← show c₁.s.state = c.s.state from congrArg Tcb.state hmid.frame]
          exact hest.1
        exact .single (.refuse h false c.view.sent c₁.view rfl hsyn hmid hest.2)
    have hst : c₁.s.tcb.estState h.ack = c₁.s.tcb.state := if_neg hest
    rw [show estAck e c₁ h ok = .go c₁ false by simp [estAck, hest]]
    rcases finAck_phases c₁ false hstate hmid (by rw [hst]) rfl with
      ⟨c', hgo, hphases⟩ | hstop
    · exact .inl ⟨c', false, hgo, hphases⟩
    · exact .inr hstop

theorem linked_of_ne (h₁ : st ≠ .closed) (h₂ : st ≠ .listen)
    (h₃ : st ≠ .synSent) : linked st = true := by
  cases st <;> first | rfl | contradiction

theorem quiet_phases {s : Sock} (h : s.tcb = c.s.tcb) :
    Phases e ev s₀ c.view (Conn.view ⟨s, c.calls⟩) := by
  rw [show Conn.view ⟨s, c.calls⟩ = c.view from view_congr c.calls h]

@[simp] theorem notePeer_tcb : (notePeer e s).tcb = s.tcb := rfl

@[simp] theorem noteTs_tcb (o : TOpt) : (noteTs s h o).tcb = s.tcb := rfl

theorem sockIn_phases (hclosed : c.s.state ≠ .closed) (hlisten : c.s.state ≠ .listen) :
    Phases e (.segment h ok) c.s c.view (sockIn e c h ok).1.view := by
  unfold sockIn
  dsimp only
  split
  · next hrst => exact rstIn_phases c h ok hrst
  split
  · next hsyn => exact synSentIn_phases c h ok hsyn
  next hsyn =>
  have hlink := linked_of_ne hclosed hlisten hsyn
  generalize hp : notePeer e c.s = p
  have hptcb : p.tcb = c.s.tcb := by rw [← hp, notePeer_tcb]
  have hpsack : p.sackOk = c.s.sackOk := by rw [← hp]; rfl
  split
  · exact (quiet_phases c (by rw [setAckNow_tcb, hptcb])).trans (outPart_phases _)
  split
  · exact (quiet_phases c (by rw [setAckNow_tcb, noteTs_tcb, hptcb])).trans (outPart_phases _)
  have hack := ackPart_phases (e := e) c (s := noteTs p h (parseOpts h.opts)) h ok
    (by rw [noteTs_tcb, hptcb]) hpsack hlink
  rcases hack with ⟨c', queued, hgo, hphases, hlink', hrcv⟩ | ⟨c', hstop, hphases⟩
  · rw [hgo]
    have hreceive : Phase e (.segment h ok) c.s c'.view
        (Conn.view ⟨finPart e (dataPart e c'.s h), c'.calls⟩) :=
      .receive h ok c'.view.sent c'.s rfl hlink' hrcv hlink
    exact (hphases.tail hreceive).trans (outPart_phases _)
  rw [hstop]
  exact hphases

theorem rewind_tcb : (rewind s).tcb = s.tcb.rewound (rewind s).sb := rfl

theorem rewind_sb : (rewind s).sb = [] ∨ (rewind s).sb = s.sb := by
  change (if _ then [] else s.sb) = [] ∨ (if _ then [] else s.sb) = s.sb
  split
  · exact .inl rfl
  · exact .inr rfl

variable {s} (hstate : linked s.state = true ∨ s.state = .synSent) (hwait : s.state ≠ .timeWait)

include hstate hwait

theorem aborts_tick : aborts e s .tick =
      if rtoDue e s then gaveUp s else kaDue e s && s.ka.kaCnt ≤ s.ka.kaN := by
  change timedOut e s = _
  unfold timedOut
  split
  · next h => exact absurd h hwait
  · next h => simp [h, linked] at hstate
  · next h => simp [h, linked] at hstate
  · rfl

theorem rtoFire_phases (hdue : rtoDue e s = true) :
    Phases e .tick s (Conn.view ⟨s, calls⟩) (rtoFire e ⟨s.setAck a, calls⟩).view := by
  unfold rtoFire
  dsimp only
  generalize hs : Sock.setRtt (s.setAck a) _ = s₁
  have htcb : s₁.tcb = s.tcb := by rw [← hs, setRtt_tcb, setAck_tcb]
  have hquiet : Phases e .tick s (Conn.view ⟨s, calls⟩) (Conn.view ⟨s₁, calls⟩) :=
    quiet_phases ⟨s, calls⟩ htcb
  split
  · next hgive =>
      have habort : aborts e s .tick = true := by
        rw [aborts_tick hstate hwait, if_pos hdue]
        exact hgive
      split
      · exact hquiet.trans (kill_phases _ _ habort)
      · exact (hquiet.trans (call_phases ⟨s₁, calls⟩ _ _ rfl)).trans (kill_phases _ _ habort)
  generalize hs₂ : Sock.setRtt s₁ _ = s₂
  have htcb₂ : s₂.tcb = s.tcb := by rw [← hs₂, setRtt_tcb, htcb]
  have hquiet₂ : Phases e .tick s (Conn.view ⟨s, calls⟩) (Conn.view ⟨s₂, calls⟩) :=
    quiet_phases ⟨s, calls⟩ htcb₂
  have hst : s₂.state = s.state := congrArg Tcb.state htcb₂
  split
  · exact hquiet₂.trans (call_phases ⟨s₂, calls⟩ _ _ rfl)
  · exact hquiet₂.trans (call_phases ⟨s₂, calls⟩ _ _ rfl)
  next hsent hrcvd =>
  rw [hst] at hsent hrcvd
  have hrewind : Phase e .tick s (Conn.view ⟨s, calls⟩) (Conn.view ⟨rewind s₂, calls⟩) := by
    have hsb : (rewind s₂).sb = [] ∨ (rewind s₂).sb = s.sb := by
      rw [show s.sb = s₂.sb from congrArg (fun t : Tcb => t.sb) htcb₂.symm]
      exact rewind_sb s₂
    rw [view_mk (rewind _), rewind_tcb, htcb₂]
    exact .rewind _ _ rfl hdue (hstate.resolve_right hsent) hrcvd hsb
  exact (ReflTransGen.single hrewind).trans (tcpOutput_phases _)

theorem kaFire_phases (hdue : rtoDue e s = false) (hka : kaDue e s = true) :
    Phases e .tick s (Conn.view ⟨s, calls⟩) (kaFire e ⟨s.setAck a, calls⟩).view := by
  have hquiet : Phases e .tick s (Conn.view ⟨s, calls⟩) (Conn.view ⟨s.setAck a, calls⟩) :=
    quiet_phases ⟨s, calls⟩ (setAck_tcb s a)
  have hcall := fun seq fl hfin => hquiet.trans (call_phases ⟨s.setAck a, calls⟩ seq fl hfin)
  unfold kaFire
  split
  · next hcnt =>
      have habort : aborts e s .tick = true := by
        rw [aborts_tick hstate hwait, hdue, if_neg Bool.false_ne_true, hka]
        exact decide_eq_true hcnt
      exact (hcall _ _ rfl).trans (kill_phases _ _ habort)
  · exact (hcall _ _ rfl).trans (quiet_phases _ (setKa_tcb _ _))

theorem liveTick_phases :
    Phases e .tick s (Conn.view ⟨s, calls⟩) (liveTick e ⟨s.setAck a, calls⟩).view := by
  change Phases e .tick s _ (if rtoDue e s then rtoFire e ⟨s.setAck a, calls⟩
    else if kaDue e s then kaFire e ⟨s.setAck a, calls⟩ else ⟨s.setAck a, calls⟩).view
  split
  · next hdue => exact rtoFire_phases a calls hstate hwait hdue
  split
  · next hdue hka => exact kaFire_phases a calls hstate hwait (by simpa using hdue) hka
  · exact quiet_phases ⟨s, calls⟩ (setAck_tcb s a)

end

theorem ackTick_eq (c : Conn) : ∃ a calls, ackTick e c = ⟨c.s.setAck a, calls⟩ ∧
    Phases e .tick c.s c.view (Conn.view ⟨c.s, calls⟩) := by
  unfold ackTick
  split
  · refine ⟨_, _, rfl, ?_⟩
    have hcall : Phases e .tick c.s _ _ := call_phases c c.s.sndMax { ack := true } rfl
    rwa [tcpSegment_view, ← tcpSegment_sent e, ← view_mk c.s] at hcall
  · exact ⟨c.s.ack, c.calls, rfl, .refl⟩

theorem tickSock_phases (c : Conn) : Phases e .tick c.s c.view (tickSock e c).view := by
  unfold tickSock
  split
  · next hstate =>
      split
      · rw [view_mk (reapIfDone _ _), reapIfDone_tcb, setState_tcb]
        exact (ReflTransGen.single (.expire c.s.tcb c.view.sent hstate)).tail (.control _ _ _ _ _ _)
      · exact .refl
  · exact .refl
  · exact .refl
  next hwait hclosed hlisten =>
  have hstate : linked c.s.state = true ∨ c.s.state = .synSent := by
    by_cases h : c.s.state = .synSent
    · exact .inr h
    · exact .inl (linked_of_ne hclosed hlisten h)
  obtain ⟨a, calls, htick, hfirst⟩ := ackTick_eq (e := e) c
  rw [htick]
  exact hfirst.trans (liveTick_phases a calls hstate hwait)

/-! ### The calls -/

section

variable (s : Sock)

@[simp] theorem clearErr_tcb : (clearErr s).tcb = s.tcb := rfl

@[simp] theorem putTx_tcb (buf : List U8) : (putTx s buf).tcb = s.tcb.append buf := rfl

@[simp] theorem dropRx_tcb (n : Nat) : (dropRx s n).tcb = s.tcb.take n := rfl

@[simp] theorem shutSock_tcb : (shutSock s).tcb = { s.tcb with shutWr := true } := rfl

end

theorem bufClamp_bounds (v : Nat) : bufMin ≤ bufClamp v ∧ bufClamp v ≤ bufMax := by
  unfold bufClamp bufMin bufMax
  split
  · omega
  · split <;> omega

section

variable (c : Conn)

include c

theorem tcpSetbuf_phases (rc tc : Nat) :
    Phases e ev s₀ c.view (Conn.view ⟨tcpSetbuf e c.s rc tc, c.calls⟩) := by
  unfold tcpSetbuf
  split
  · exact .refl
  next hcap =>
  exact (ReflTransGen.single (.resizeRx (e.memOk 2) (bufClamp rc) c.s c.view.sent hcap
    (bufClamp_bounds rc))).tail
      (.resizeTx (e.memOk 3) (bufClamp tc) _ c.view.sent (bufClamp_bounds tc))

theorem sockSend_cases (buf : List U8) :
    (sockSend e c buf).1 = c ∨ (sockSend e c buf).1 = ⟨clearErr c.s, c.calls⟩ ∨
      ((c.s.state = .established ∨ c.s.state = .closeWait) ∧ c.s.shutWr = false ∧
        (sockSend e c buf).1 = tcpOutput e ⟨putTx c.s buf, c.calls⟩) := by
  unfold sockSend
  split
  · exact .inl rfl
  split
  · exact .inl rfl
  split
  · exact .inr (.inl rfl)
  split
  · exact .inl rfl
  next hopen =>
  rw [not_or, not_and_or, not_not, not_not, Bool.not_eq_true] at hopen
  dsimp only
  split
  · exact .inl rfl
  · exact .inr (.inr ⟨hopen.2, hopen.1, rfl⟩)

theorem send_phases (buf : List U8) :
    Phases e (.send buf) c.s c.view (sockSend e c buf).1.view := by
  rcases sockSend_cases (e := e) c buf with hc | hc | ⟨hstate, hshut, hc⟩ <;> rw [hc]
  · exact quiet_phases c (clearErr_tcb c.s)
  have hwrite : Phase e (.send buf) c.s c.view (Conn.view ⟨putTx c.s buf, c.calls⟩) := by
    exact .write buf c.view.sent rfl hstate hshut
  exact (ReflTransGen.single hwrite).trans (tcpOutput_phases _)

theorem recv_phases (len : Nat) (peek : Bool) :
    Phases e (.recv len peek) c.s c.view (sockRecv e c len peek).1.view := by
  unfold sockRecv
  split
  · exact .refl
  split
  · split
    · exact quiet_phases c (clearErr_tcb c.s)
    · split <;> exact .refl
  next hstate hcount =>
  cases peek with
  | true => exact .refl
  | false =>
    have htake : Phase e (.recv len false) c.s c.view
        (Conn.view ⟨dropRx c.s (min c.s.rxCount len), c.calls⟩) := by
      exact .recv len c.view.sent rfl (by tauto) hcount
    dsimp only [takeRx]
    rw [if_neg Bool.false_ne_true]
    split
    · exact (ReflTransGen.single htake).trans (call_phases _ _ _ rfl)
    · exact .single htake

omit c in
@[simp] theorem dialSock_tcb (s : Sock) (iss : U32) (ip : Addr) (port : U16) (lip : Addr)
    (lport : U16) : (dialSock s iss ip port lip lport).tcb = s.tcb.dial ip iss := rfl

omit c in
theorem setbuf_state (s : Sock) (rc tc : Nat) : (tcpSetbuf e s rc tc).state = s.state := by
  unfold tcpSetbuf setbufTx setbufRx
  split
  · rfl
  · split <;> split <;> rfl

theorem connect_phases (slot : Slot) (ip : Addr) (port : U16) (lip : Addr)
    (lport : U16) : Phases e (.connect slot ip port lip lport) c.s c.view
      (sockConnect e c slot ip port lip lport).view := by
  unfold sockConnect
  split
  · next hstate =>
      generalize hd : dialSock c.s (connectIss e slot) ip port lip lport = d
      have hdial : Phase e (.connect slot ip port lip lport) c.s c.view
          (Conn.view ⟨d, c.calls⟩) := by
        rw [view_mk d, ← hd, dialSock_tcb]
        exact .connect slot ip port lip lport c.view.sent _ rfl hstate
      have hbuf : Phases e (.connect slot ip port lip lport) c.s (Conn.view ⟨d, c.calls⟩)
          (Conn.view ⟨connectBuf e d ip, c.calls⟩) := by
        unfold connectBuf
        split
        · exact tcpSetbuf_phases ⟨d, c.calls⟩ _ _
        · exact .refl
      have hbstate : (connectBuf e d ip).tcb.state = .closed := by
        rw [← hstate, ← show d.state = c.s.state by rw [← hd]; rfl]
        unfold connectBuf
        split
        · exact setbuf_state d _ _
        · rfl
      generalize connectBuf e d ip = b at hbuf hbstate
      have hstart : Phase e (.connect slot ip port lip lport) c.s (Conn.view ⟨b, c.calls⟩)
          (Conn.view ⟨synTimer e (clearErr (b.setState .synSent)), c.calls⟩) := by
        exact .start b.tcb _ hbstate rfl
      exact (((ReflTransGen.single hdial).trans hbuf).tail hstart).trans (call_phases _ _ _ rfl)
  · exact .refl

theorem listen_phases (lip : Addr) (lport : U16) (backlog : Int) :
    Phases e (.listen lip lport backlog) c.s c.view (sockListen c lip lport backlog).view := by
  unfold sockListen
  split
  · next hstate => exact .single (.listen lip lport backlog c.view.sent rfl hstate)
  · exact .refl

theorem shut_output_phases (hstate : linked c.s.state = true) :
    Phases e ev s₀ c.view (tcpOutput e ⟨shutSock c.s, c.calls⟩).view := by
  have hshut : Phase e ev s₀ c.view (Conn.view ⟨shutSock c.s, c.calls⟩) := by
    exact .shut c.s.tcb c.view.sent hstate
  exact (ReflTransGen.single hshut).trans (tcpOutput_phases _)

theorem shutdown_phases (how : Int) : Phases e ev s₀ c.view (sockShutdown e c how).view := by
  unfold sockShutdown
  split
  case h_5 => exact .refl
  all_goals next h => split <;> first | exact shut_output_phases c (by rw [h]; rfl) | exact .refl

theorem control_phases {s : Sock} (used : Bool) (refs : Int) (parent : Option Slot)
    (acceptq : List Slot)
    (h : s.tcb = { c.s.tcb with
      used := used, refs := refs, parent := parent, acceptq := acceptq }) :
    Phases e ev s₀ c.view (Conn.view ⟨s, c.calls⟩) := by
  rw [view_mk s, h]
  exact .single (.control _ _ _ _ _ _)

theorem close_phases (hlisten : c.s.state ≠ .listen) :
    Phases e ev s₀ c.view (sockClose e c).view := by
  unfold sockClose
  dsimp only
  generalize hs : c.s.setRefs (c.s.refs - 1) = s
  have hst : s.state = c.s.state := by rw [← hs]; rfl
  have hunref : Phases e ev s₀ c.view (Conn.view ⟨s, c.calls⟩) :=
    control_phases c c.s.used (c.s.refs - 1) c.s.parent c.s.acceptq (by rw [← hs, setRefs_tcb]; rfl)
  split
  · exact hunref
  split
  · exact hunref.trans (control_phases ⟨s, c.calls⟩ false s.refs s.parent s.acceptq
      (by rw [freeSock_tcb]; rfl))
  next hopen =>
  rw [not_or, not_or, hst] at hopen
  have hlink : linked s.state = true := by
    rw [hst]
    exact linked_of_ne hopen.2.1 hlisten hopen.2.2
  have hout := hunref.trans (shut_output_phases ⟨s, c.calls⟩ hlink)
  generalize tcpOutput e _ = o at hout
  exact hout.trans (control_phases o (reapIfDone e o.s).used o.s.refs o.s.parent o.s.acceptq
    (reapIfDone_tcb o.s))

theorem opt_phases (o : SockOpt) : Phases e ev s₀ c.view (sockOpt e c o).view := by
  cases o with
  | keepalive val | keepidle val | keepintvl val | keepcnt val =>
    exact quiet_phases c (setKa_tcb _ _)
  | sndbuf val =>
    exact (quiet_phases c rfl).trans
      (tcpSetbuf_phases ⟨setWant c.s c.s.wantRx (dblClamp val), c.calls⟩ _ _)
  | rcvbuf val =>
    exact (quiet_phases c rfl).trans
      (tcpSetbuf_phases ⟨setWant c.s (dblClamp val) c.s.wantTx, c.calls⟩ _ _)
  | nodelay val =>
    have hset : Phases e ev s₀ c.view (Conn.view ⟨setNodelay c.s (val ≠ 0), c.calls⟩) :=
      quiet_phases c rfl
    dsimp only [sockOpt]
    split
    · exact hset.trans (tcpOutput_phases _)
    · exact hset
  | cork val =>
    have hset : Phases e ev s₀ c.view (Conn.view ⟨setCork c.s (val ≠ 0), c.calls⟩) :=
      quiet_phases c rfl
    dsimp only [sockOpt]
    split
    · exact hset.trans (tcpOutput_phases _)
    · exact hset
  | maxseg val =>
    dsimp only [sockOpt]
    split
    · next hval =>
        have hto : (BitVec.ofInt 16 val).toNat = val.toNat := by
          rw [BitVec.toNat_ofInt]
          omega
        have hle : (BitVec.ofInt 16 val).toNat ≤ c.s.tcb.mss.toNat := by
          change _ ≤ c.s.mss.toNat
          omega
        exact .single (.maxseg c.s.tcb c.view.sent (BitVec.ofInt 16 val) (by omega) hle)
    · exact .refl

end

end Code

def Enabled (s : Sock) : Event → Prop
  | .segment _ _ => s.state ≠ .closed ∧ s.state ≠ .listen
  | .close => s.state ≠ .listen
  | _ => True

theorem stepConn_phases (e : Env) (c : Conn) (ev : Event) (h : Enabled c.s ev) :
    Phases e ev c.s c.view (stepConn e c ev).view := by
  cases ev with
  | segment hdr ok => exact sockIn_phases c hdr ok h.1 h.2
  | tick => exact tickSock_phases c
  | connect slot ip port lip lport => exact connect_phases c slot ip port lip lport
  | listen lip lport backlog => exact listen_phases c lip lport backlog
  | bind lip lport => exact quiet_phases c rfl
  | send buf => exact send_phases c buf
  | recv len peek => exact recv_phases c len peek
  | shutdown how => exact shutdown_phases c how
  | opt o => exact opt_phases c o
  | setcc cc => exact quiet_phases c (setCong_tcb _ _)
  | takeError => exact quiet_phases c (clearErr_tcb _)
  | ref | unref => exact control_phases c c.s.used _ c.s.parent c.s.acceptq (setRefs_tcb _ _)
  | close => exact close_phases c h
  | queue q => exact control_phases c c.s.used c.s.refs c.s.parent q rfl
  | free => exact control_phases c false c.s.refs c.s.parent c.s.acceptq (freeSock_tcb _)
  | accepted => exact control_phases c c.s.used 1 none c.s.acceptq rfl
  | orphaned => exact control_phases c c.s.used 0 none c.s.acceptq rfl
  | reset =>
    have hparent : Phases e .reset c.s c.view (Conn.view ⟨c.s.setParent none, c.calls⟩) :=
      control_phases c c.s.used c.s.refs none c.s.acceptq (setParent_tcb _ _)
    have hcall := hparent.trans
      (call_phases ⟨c.s.setParent none, c.calls⟩ (c.s.setParent none).sndNxt { rst := true } rfl)
    dsimp only [stepConn]
    generalize tcpSegment e _ _ _ _ = k at hcall
    exact hcall.trans (control_phases k false k.s.refs k.s.parent k.s.acceptq (freeSock_tcb _))
  | dropped => exact control_phases c false c.s.refs none c.s.acceptq rfl

/-! ## Runs -/

def calmEnv (now : U32) : Env :=
  ⟨now, fun _ => true, fun _ => false, fun _ => true, fun ip => ip, fun _ => none⟩

/-- How a socket comes to be: by `sock_create`, or for a SYN to a listener. -/
inductive Birth where
  | create (e : Env) (af : Nat)
  | passive (e : Env) (af : Nat) (l : Sock) (slot parent : Slot) (src dst : Addr) (h : Hdr)

def Birth.conn : Birth → Option Conn
  | .create e af => (allocSock e .stream af).map fun s => ⟨s, []⟩
  | .passive e af l slot parent src dst h =>
    (allocSock e .stream af).map fun s => passiveOpen e s l slot parent src dst h

def peerAddr : Addr := map4 0x0A000202

def webListener : Sock :=
  { used := true, refs := 1, state := .listen, lport := 80, backlog := 4 }

def streamSock : Sock :=
  { used := true, af := 2, refs := 1, rxCap := bufDef, txCap := bufDef }

def plainSeg (seq ack : U32) (fl : Flags) (data : List U8) : Hdr :=
  { sport := 4000, dport := 80, seq := seq, ack := ack, fl := fl, win := 65535, opts := []
    data := data }

def plainBirth : Birth :=
  .passive (calmEnv 1) 2 webListener 1 0 peerAddr 0 (plainSeg 100 0 { syn := true } [])

def plainConn : Conn :=
  passiveOpen (calmEnv 1) streamSock webListener 1 0 peerAddr 0
    (plainSeg 100 0 { syn := true } [])

theorem plainBirth_conn : plainBirth.conn = some plainConn := rfl

structure Tcb.Fresh (t : Tcb) : Prop where
  used : t.used = true
  acceptq : t.acceptq = []
  rxCap : bufMin ≤ t.rxCap ∧ t.rxCap ≤ bufMax
  rxHead : t.rxHead = 0
  rxCount : t.rxCount = 0
  ooo : t.ooo = []
  finRcvd : t.finRcvd = false
  txCap : bufMin ≤ t.txCap ∧ t.txCap ≤ bufMax
  txHead : t.txHead = 0
  txLen : t.txLen = 0
  sb : t.sb = []
  shutWr : t.shutWr = false
  finSent : t.finSent = false

theorem allocSock_tcb {e : Env} {af : Nat} {s : Sock} (h : allocSock e .stream af = some s) :
    s.tcb.Fresh ∧ s.state = .closed := by
  unfold allocSock at h
  dsimp only at h
  split at h
  · cases h
    have hdef : bufMin ≤ bufDef ∧ bufDef ≤ bufMax := by decide
    exact ⟨⟨rfl, rfl, hdef, rfl, rfl, rfl, rfl, hdef, rfl, rfl, rfl, rfl, rfl⟩, rfl⟩
  · cases h

theorem Tcb.Fresh.setbufRx {s : Sock} {ok : Bool} (h : s.tcb.Fresh)
    (hrc : bufMin ≤ rc ∧ rc ≤ bufMax) : (Net.setbufRx ok s rc).tcb.Fresh := by
  unfold Net.setbufRx
  split
  · exact ⟨h.used, h.acceptq, hrc, rfl, h.rxCount, rfl, h.finRcvd, h.txCap, h.txHead, h.txLen,
      h.sb, h.shutWr, h.finSent⟩
  · exact h

theorem Tcb.Fresh.setbufTx {s : Sock} {ok : Bool} (h : s.tcb.Fresh)
    (htc : bufMin ≤ tc ∧ tc ≤ bufMax) : (Net.setbufTx ok s tc).tcb.Fresh := by
  unfold Net.setbufTx
  split
  · exact ⟨h.used, h.acceptq, h.rxCap, h.rxHead, h.rxCount, h.ooo, h.finRcvd, htc, rfl, h.txLen,
      h.sb, h.shutWr, h.finSent⟩
  · exact h

theorem Tcb.Fresh.tcpSetbuf {e : Env} {s : Sock} (h : s.tcb.Fresh) :
    (Net.tcpSetbuf e s rc tc).tcb.Fresh := by
  unfold Net.tcpSetbuf
  split
  · exact h
  · exact (h.setbufRx (bufClamp_bounds rc)).setbufTx (bufClamp_bounds tc)

def Resized (t t' : Tcb) : Prop :=
  t' = { t with
    rx := t'.rx, rxCap := t'.rxCap, rxHead := t'.rxHead, ooo := t'.ooo,
    tx := t'.tx, txCap := t'.txCap, txHead := t'.txHead }

theorem tcpSetbuf_resized (e : Env) (s : Sock) (rc tc : Nat) :
    Resized s.tcb (tcpSetbuf e s rc tc).tcb := by
  unfold Resized tcpSetbuf
  split
  · rfl
  · rw [setbufTx_frame, setbufRx_frame]

theorem passiveBuf_resized (e : Env) (c l : Sock) (src : Addr) :
    Resized c.tcb (passiveBuf e c l src).tcb := by
  unfold passiveBuf
  split
  · exact tcpSetbuf_resized e c _ _
  split
  · exact tcpSetbuf_resized e (setWant c _ _) _ _
  · exact rfl

theorem Tcb.Fresh.passiveBuf {c : Sock} (h : c.tcb.Fresh) (e : Env) (l : Sock) (src : Addr) :
    (Net.passiveBuf e c l src).tcb.Fresh := by
  unfold Net.passiveBuf
  split
  · exact h.tcpSetbuf
  split
  · exact Tcb.Fresh.tcpSetbuf (s := setWant c _ _) h
  · exact h

/-- The socket a listener makes for a SYN, up to the size and place of its rings. -/
def Tcb.answer (t : Tcb) (iss : U32) (parent : Slot) (src : Addr) (h : Hdr) : Tcb :=
  { t with
    refs := 0, parent := some parent, rip := src,
    mss := stripMss (peerMss (parseOpts h.opts) src) (parseOpts h.opts).ts,
    sndUna := iss, sndNxt := iss + 1, sndMax := iss + 1, txSeq := iss + 1,
    rcvNxt := h.seq + 1, state := .synRcvd }

@[simp] theorem ccInit_tcb (s : Sock) : (ccInit s).tcb = s.tcb := rfl

theorem passiveOpts_tcb (c : Sock) (o : TOpt) (src : Addr) :
    (passiveOpts c o src).tcb = { c.tcb with mss := stripMss (peerMss o src) o.ts } := rfl

theorem passiveSock_tcb (e : Env) (s l : Sock) (slot parent : Slot) (src dst : Addr) (h : Hdr) :
    (passiveSock e s l slot parent src dst h).tcb =
      { (passiveBuf e (answerSock s l (passiveIss e slot) parent src dst h) l src).tcb with
        mss := stripMss (peerMss (parseOpts h.opts) src) (parseOpts h.opts).ts
        state := .synRcvd } := by
  unfold passiveSock
  rw [setKa_tcb, setState_tcb, ccInit_tcb, passiveOpts_tcb]

theorem passiveOpen_view (e : Env) {s : Sock} (l : Sock) (slot parent : Slot) (src dst : Addr)
    (h : Hdr) (hs : s.tcb.Fresh) :
    ∃ t seq, t.Fresh ∧ Resized (s.tcb.answer (passiveIss e slot) parent src h) t ∧
      (passiveOpen e s l slot parent src dst h).view =
        ⟨t, [⟨t, seq, { syn := true, ack := true }, 0⟩]⟩ := by
  have hanswer : (answerSock s l (passiveIss e slot) parent src dst h).tcb.Fresh :=
    ⟨hs.used, hs.acceptq, hs.rxCap, hs.rxHead, hs.rxCount, hs.ooo, hs.finRcvd, hs.txCap,
      hs.txHead, hs.txLen, hs.sb, hs.shutWr, hs.finSent⟩
  have hbuf := passiveBuf_resized e (answerSock s l (passiveIss e slot) parent src dst h) l src
  have hf := hanswer.passiveBuf e l src
  refine ⟨(passiveSock e s l slot parent src dst h).tcb,
    (passiveSock e s l slot parent src dst h).iss, ?_, ?_, ?_⟩
  · rw [passiveSock_tcb]
    exact ⟨hf.used, hf.acceptq, hf.rxCap, hf.rxHead, hf.rxCount, hf.ooo, hf.finRcvd, hf.txCap,
      hf.txHead, hf.txLen, hf.sb, hf.shutWr, hf.finSent⟩
  · rw [passiveSock_tcb]
    unfold Resized at hbuf ⊢
    conv_lhs => rw [hbuf]
    rfl
  rfl

/-- A run of one socket in use: from its birth through any events the table lets through, under
conditions on the birth and on each event. -/
inductive Run (born : Birth → Prop) (ok : Conn → Env → Event → Prop) : Conn → Prop where
  | start (b : Birth) (c : Conn) (h : b.conn = some c) (hb : born b) : Run born ok c
  | step (c : Conn) (e : Env) (ev : Event) (hrun : Run born ok c) (hused : c.s.used = true)
      (hen : Enabled c.s ev) (hok : ok c e ev) : Run born ok (stepConn e c ev)

theorem Run.invariant {born : Birth → Prop} {ok : Conn → Env → Event → Prop} {P : View → Prop}
    (hborn : ∀ b c, b.conn = some c → born b → P c.view)
    (hphase : ∀ c e ev v v', Run born ok c → ok c e ev → P c.view → P v →
      Phase e ev c.s v v' → P v') {c : Conn} (h : Run born ok c) : P c.view := by
  induction h with
  | start b c hb hok => exact hborn b c hb hok
  | step c e ev hrun _ hen hok ih =>
    have hphases := stepConn_phases e c ev hen
    generalize (stepConn e c ev).view = v at hphases
    induction hphases with
    | refl => exact ih
    | tail _ hlast ihv => exact hphase c e ev _ _ hrun hok ih ihv hlast

def plays (c : Conn) (l : List (Env × Event)) : Conn :=
  l.foldl (fun c x => stepConn x.1 c x.2) c

instance (s : Sock) : (ev : Event) → Decidable (Enabled s ev)
  | .segment _ _ => inferInstanceAs (Decidable (_ ∧ _))
  | .close => inferInstanceAs (Decidable (_ ≠ _))
  | .tick | .connect .. | .listen .. | .bind .. | .send _ | .recv .. | .shutdown _ | .opt _
  | .setcc _ | .takeError | .ref | .unref | .queue _ | .free | .accepted | .orphaned | .reset
  | .dropped => inferInstanceAs (Decidable True)

def canPlay (c : Conn) : List (Env × Event) → Bool
  | [] => true
  | x :: rest => c.s.used && decide (Enabled c.s x.2) && canPlay (stepConn x.1 c x.2) rest

theorem Run.fold (l : List (Env × Event)) {born : Birth → Prop} {c : Conn}
    (h : Run born (fun _ _ _ => True) c) (hl : canPlay c l = true) :
    Run born (fun _ _ _ => True) (plays c l) := by
  induction l generalizing c with
  | nil => exact h
  | cons x rest ih =>
    simp only [canPlay, Bool.and_eq_true, decide_eq_true_eq] at hl
    exact ih (.step c x.1 x.2 h hl.1.1 hl.1.2 trivial) hl.2

end SamaraOS.Net
