import SamaraOS.Net.Phases

/-!
# The segment size a handshake agrees on

Both ways of opening a connection take the peer's MSS option, bound it by the
link, and subtract the 12 bytes of the timestamp option in 16 bits.  The result
is a usable size unless timestamps are on and the peer asked for 1 to 12 bytes.
With a usable size every segment fits the buffer `tcp_segment` builds it in.
-/

namespace SamaraOS.Net

open List

def MssFits (mss : U16) (rip : Addr) : Prop := 1 ≤ mss.toNat ∧ mss.toNat ≤ linkMss rip

def stripWraps (ts : Bool) (o : TOpt) : Bool := ts && 1 ≤ o.mss && o.mss ≤ 12

def bufRoom (len : Nat) : Nat := if len ≤ mssMax then 60 + mssMax + 16 else bigBuf

def SegCall.Fits (k : SegCall) : Prop := k.hl + k.len ≤ bufRoom k.len

instance (mss : U16) (rip : Addr) : Decidable (MssFits mss rip) :=
  inferInstanceAs (Decidable (_ ∧ _))

instance (k : SegCall) : Decidable k.Fits := inferInstanceAs (Decidable (_ ≤ _))

section

variable (s : Sock) (now : U32)

theorem linkMss_bounds (rip : Addr) : 1440 ≤ linkMss rip ∧ linkMss rip ≤ 16000 := by
  unfold linkMss loMss mssMax
  split
  · omega
  · split <;> omega

theorem stripMss_fits_iff (o : TOpt) (rip : Addr) (ts : Bool) :
    MssFits (stripMss (peerMss o rip) ts) rip ↔ stripWraps ts o = false := by
  have hlink := linkMss_bounds rip
  have hpm : peerMss o rip ≤ linkMss rip ∧ 1 ≤ peerMss o rip ∧
      (peerMss o rip ≤ 12 ↔ 1 ≤ o.mss ∧ o.mss ≤ 12) := by
    unfold peerMss
    split <;> omega
  unfold MssFits stripMss
  rw [BitVec.toNat_ofInt]
  cases ts with
  | false =>
    simp only [stripWraps, Bool.false_and, Bool.false_eq_true, if_false, iff_true]
    omega
  | true =>
    simp only [stripWraps, Bool.true_and, if_true, Bool.and_eq_false_iff,
      decide_eq_false_iff_not]
    omega

theorem length_tsOption : (tsOption s now).length = 10 := rfl

theorem length_synOptions : (synOptions s now).length ≤ 20 := by
  unfold synOptions
  cases s.tsOk <;> cases s.sackOk <;> cases s.wsOk <;> simp [length_tsOption]

theorem length_sackOptions : (sackOptions s).length ≤ if s.tsOk then 28 else 36 := by
  have hflat : ∀ l : List (U32 × U32),
      (l.flatMap fun r => put32 r.1 ++ put32 r.2).length = 8 * l.length := by
    intro l
    induction l with
    | nil => rfl
    | cons r rest ih =>
      rw [flatMap_cons, length_append, ih, length_cons]
      change 8 + 8 * rest.length = 8 * (rest.length + 1)
      omega
  simp only [sackOptions, length_append, hflat, length_take, length_cons,
    length_nil]
  split <;> omega

theorem headerLen_le (fl : Flags) (len : Nat) : headerLen s now fl len ≤ 60 := by
  have hsyn := length_synOptions s now
  have hsack := length_sackOptions s
  unfold headerLen segOptions
  split
  · omega
  have hopt : (if s.sackOk && !s.ooo.isEmpty && len == 0 then sackOptions s else []).length ≤
      (sackOptions s).length := by
    split
    · exact le_rfl
    · exact Nat.zero_le _
  rw [length_append]
  cases hts : s.tsOk with
  | false =>
    rw [hts, if_neg Bool.false_ne_true] at hsack
    rw [if_neg Bool.false_ne_true, length_nil]
    omega
  | true =>
    rw [hts, if_pos rfl] at hsack
    rw [if_pos rfl, length_append, length_tsOption, length_cons, length_cons,
      length_nil]
    omega

end

/-! ## Every segment fits -/

def Sent.Small (k : Sent) : Prop :=
  k.len = 0 ∨ k.fl.syn = false ∧ k.len ≤ k.t.mss.toNat ∧ MssFits k.t.mss k.t.rip

theorem SegCall.fits_of_small {k : SegCall} (h : k.view.Small) : k.Fits := by
  have hhl := headerLen_le k.s k.now k.fl k.len
  have hlink := linkMss_bounds k.s.rip
  unfold SegCall.Fits SegCall.hl bufRoom mssMax bigBuf
  rcases h with hlen | ⟨hsyn, hlen, hmss⟩
  · rw [show k.len = 0 from hlen] at hhl ⊢
    rw [if_pos (by omega)]
    omega
  change k.len ≤ k.s.mss.toNat at hlen
  change 1 ≤ k.s.mss.toNat ∧ k.s.mss.toNat ≤ linkMss k.s.rip at hmss
  split
  · omega
  omega

/-- The size is usable once the peer's options are in, and was for all we sent. -/
structure MssInv (v : View) : Prop where
  mss : linked v.t.state = true → MssFits v.t.mss v.t.rip
  sent : ∀ k ∈ v.sent, k.Small

theorem MssInv.say {t t' : Tcb} {sent : List Sent} {k : Sent} (h : MssInv ⟨t, sent⟩) (hk : k.Small)
    (hmss : linked t'.state = true → MssFits t'.mss t'.rip) : MssInv ⟨t', sent ++ [k]⟩ := by
  refine ⟨hmss, fun j hj => ?_⟩
  rcases mem_append.1 hj with hj | hj
  · exact h.sent j hj
  · exact mem_singleton.1 hj ▸ hk

theorem MssInv.out {v v' : View} (h : MssInv v) (hout : Out v v') : MssInv v' := by
  cases hout with
  | retx t sent seq last hstate _ _ =>
    exact h.say (.inr ⟨rfl, Nat.min_le_right _ _, h.mss hstate⟩) h.mss
  | send t sent n psh hstate _ hmss _ =>
    exact h.say (.inr ⟨rfl, hmss, h.mss (linked_of_canSend hstate)⟩) h.mss
  | skip t sent r _ _ _ _ => exact ⟨h.mss, h.sent⟩

theorem MssInv.outs {v v' : View} (h : MssInv v) (houts : Outs v v') : MssInv v' := by
  induction houts with
  | refl => exact h
  | tail _ hlast ih => exact ih.out hlast

theorem MssInv.ackMid {t : Tcb} {blocks : List (U32 × U32)} {ack : U32} {sent : List Sent}
    {v : View} (h : MssInv ⟨t, sent⟩) (hmid : AckMid t blocks ack sent v) : MssInv v := by
  have hframe := foldl_sbAdd_frame blocks t
  cases hmid with
  | outside => exact h
  | dup _ _ houts | advance _ _ _ houts =>
    rw [hframe] at houts
    refine .outs ?_ houts
    exact ⟨h.mss, h.sent⟩

def Birth.mssOk : Birth → Prop
  | .create _ _ => True
  | .passive _ _ _ _ _ _ _ h => stripWraps (parseOpts h.opts).ts (parseOpts h.opts) = false

def mssStepOk (c : Conn) (_ : Env) : Event → Prop
  | .segment h _ => synAckFor c.s h = true →
      stripWraps (c.s.tsOk && (parseOpts h.opts).ts) (parseOpts h.opts) = false
  | _ => True

theorem MssInv.phase {c : Conn} {e : Env} {ev : Event} {v v' : View} (hok : mssStepOk c e ev)
    (h : MssInv v) (hphase : Phase e ev c.s v v') : MssInv v' := by
  -- The size changes only where a handshake ends and with `TCP_MAXSEG`.
  cases hphase with
  | call => exact h.say (.inl rfl) h.mss
  | out hout => exact h.out hout
  | fin _ hdue =>
    exact h.say (.inl rfl) fun _ => h.mss (linked_of_canSend hdue.1)
  | ack hdr ok sent v₁ _ hstate hmid =>
    have h₁ := h.ackMid hmid
    have hfits := h₁.mss (by rw [hmid.frame]; exact hstate)
    exact ⟨fun _ => hfits, h₁.sent⟩
  | refuse hdr ok sent v₁ _ hstate hmid =>
    have h₁ := h.ackMid hmid
    have hfits := h₁.mss (by rw [hmid.frame, show c.s.tcb.state = _ from hstate]; rfl)
    exact .say ⟨fun _ => hfits, h₁.sent⟩ (.inl rfl) fun _ => hfits
  | receive hdr ok sent s _ hstate _ =>
    have hfits := h.mss hstate
    rw [receive_frame]
    exact ⟨fun _ => hfits, h.sent⟩
  | kill | expire | start | listen => exact ⟨fun hl => absurd hl Bool.false_ne_true, h.sent⟩
  | control | write | shut | recv => exact ⟨h.mss, h.sent⟩
  | rewind sent sb _ _ hstate _ _ => exact ⟨fun _ => h.mss hstate, h.sent⟩
  | resizeRx ok rc s sent _ _ =>
    rw [setbufRx_frame]
    exact ⟨h.mss, h.sent⟩
  | resizeTx ok tc s sent _ =>
    rw [setbufTx_frame]
    exact ⟨h.mss, h.sent⟩
  | maxseg t sent mss hlo hhi =>
    refine ⟨fun hl => ?_, h.sent⟩
    have hfits := h.mss hl
    exact ⟨le_trans (by decide) hlo, hhi.trans hfits.2⟩
  | connect slot ip port lip lport sent iss _ hstate =>
    refine ⟨fun hl => ?_, h.sent⟩
    rw [show (c.s.tcb.dial ip iss).state = _ from hstate] at hl
    exact absurd hl Bool.false_ne_true
  | synAck hdr ok sent hev hsyn =>
    subst hev
    exact ⟨fun _ => (stripMss_fits_iff _ _ _).mpr (hok hsyn), h.sent⟩

theorem MssInv.birth {b : Birth} {c : Conn} (h : b.conn = some c) (hb : b.mssOk) :
    MssInv c.view := by
  cases b with
  | create e af =>
    obtain ⟨s, hs, rfl⟩ := Option.map_eq_some_iff.1 h
    refine ⟨fun hl => ?_, fun k hk => by simp [Conn.view] at hk⟩
    rw [show (Conn.view ⟨s, []⟩).t.state = _ from (allocSock_tcb hs).2] at hl
    exact absurd hl Bool.false_ne_true
  | passive e af l slot parent src dst hdr =>
    obtain ⟨s, hs, rfl⟩ := Option.map_eq_some_iff.1 h
    obtain ⟨t, seq, _, hres, hview⟩ :=
      passiveOpen_view e l slot parent src dst hdr (allocSock_tcb hs).1
    rw [hview]
    refine ⟨fun _ => ?_, fun k hk => ?_⟩
    · rw [hres]
      exact (stripMss_fits_iff _ _ _).mpr hb
    rw [mem_singleton.1 hk]
    exact .inl rfl

theorem synSentIn_mss (e : Env) (c : Conn) (h : Hdr) (hsyn : synAckFor c.s h = true) :
    (synSentIn e c h (parseOpts h.opts)).s.mss = (synOpts c.s (parseOpts h.opts)).mss ∧
      (synSentIn e c h (parseOpts h.opts)).s.rip = c.s.rip := by
  simp only [synAckFor, Bool.and_eq_true] at hsyn
  unfold synSentIn
  rw [if_pos (by simp only [Bool.and_eq_true]; exact ⟨⟨hsyn.1.1.2, hsyn.1.2⟩, hsyn.2⟩)]
  dsimp only
  generalize hs : ccInit _ = s
  have hmss : s.mss = (synOpts c.s (parseOpts h.opts)).mss ∧ s.rip = c.s.rip := by
    rw [← hs]
    exact ⟨rfl, rfl⟩
  have hstill := tcpOutput_still e (tcpSegment e ⟨s, c.calls⟩ s.sndNxt { ack := true } 0)
  exact ⟨(congrArg Still.mss hstill).trans hmss.1, (congrArg Still.rip hstill).trans hmss.2⟩

/-- The segment size is usable exactly when the handshake did not lose it to the timestamp
option, on either way of opening; in a run whose handshakes did not, it stays usable and every
segment fits its buffer. -/
theorem mss_usable_iff (e : Env) (h : Hdr) (c : Conn) :
    (∀ (af : Nat) (s l : Sock) (slot parent : Slot) (src dst : Addr),
      allocSock e .stream af = some s → (MssFits (passiveOpen e s l slot parent src dst h).s.mss
            (passiveOpen e s l slot parent src dst h).s.rip ↔
          stripWraps (parseOpts h.opts).ts (parseOpts h.opts) = false)) ∧
    (∀ ok : Bool, h.fl.rst = false → synAckFor c.s h = true →
      (MssFits (stepConn e c (.segment h ok)).s.mss (stepConn e c (.segment h ok)).s.rip ↔
        stripWraps (c.s.tsOk && (parseOpts h.opts).ts) (parseOpts h.opts) = false)) ∧
    (Run Birth.mssOk mssStepOk c →
      (linked c.s.state = true → MssFits c.s.mss c.s.rip) ∧ ∀ k ∈ c.calls, k.Fits) := by
  refine ⟨?_, ?_, ?_⟩
  · intro af s l slot parent src dst hs
    obtain ⟨t, seq, _, hres, hview⟩ :=
      passiveOpen_view e l slot parent src dst h (allocSock_tcb hs).1
    have ht : (passiveOpen e s l slot parent src dst h).s.tcb = t := congrArg View.t hview
    change MssFits (passiveOpen e s l slot parent src dst h).s.tcb.mss
      (passiveOpen e s l slot parent src dst h).s.tcb.rip ↔ _
    rw [ht, hres]
    exact stripMss_fits_iff _ _ _
  · intro ok hrst hsyn
    have hstate : c.s.state = .synSent := by
      simp only [synAckFor, Bool.and_eq_true, beq_iff_eq] at hsyn
      exact hsyn.1.1.1
    have hstep : stepConn e c (.segment h ok) = synSentIn e c h (parseOpts h.opts) := by
      simp only [stepConn, sockIn, hrst, hstate, Bool.false_eq_true, if_false, if_true]
    obtain ⟨hmss, hrip⟩ := synSentIn_mss e c h hsyn
    rw [hstep, hmss, hrip]
    exact stripMss_fits_iff _ _ _
  intro hrun
  have hinv : MssInv c.view := hrun.invariant (fun b c hb hok => MssInv.birth hb hok)
    fun c e ev v v' _ hok _ h hphase => h.phase hok hphase
  refine ⟨hinv.mss, fun k hk => SegCall.fits_of_small (hinv.sent _ ?_)⟩
  exact mem_map_of_mem hk

def tsSyn (mss : U8) : Hdr :=
  { sport := 4000, dport := 80, seq := 100, ack := 0, fl := { syn := true }, win := 65535
    opts := [2, 4, 0, mss, 1, 1, 8, 10, 0, 0, 0, 1, 0, 0, 0, 0], data := [] }

def tsChild (mss : U8) : Conn :=
  passiveOpen (calmEnv 1) streamSock webListener 1 0 peerAddr 0 (tsSyn mss)

def tsAck (c : Conn) : Hdr :=
  { sport := 4000, dport := 80, seq := 101, ack := c.s.sndNxt, fl := { ack := true }
    win := 65535, opts := [1, 1, 8, 10, 0, 0, 0, 2, 0, 0, 0, 2], data := [] }

def tsWrite (mss : U8) : Conn :=
  let c := stepConn (calmEnv 2) (tsChild mss) (.segment (tsAck (tsChild mss)) true)
  stepConn (calmEnv 3) c (.send (List.replicate 16500 7))

theorem mss_five_overruns :
    ¬ MssFits (tsChild 5).s.mss (tsChild 5).s.rip ∧ ∃ k ∈ (tsWrite 5).calls, ¬ k.Fits := by
  decide +kernel

theorem mss_hundred_usable :
    MssFits (tsChild 100).s.mss (tsChild 100).s.rip ∧ ∀ k ∈ (tsChild 100).calls, k.Fits :=
  ⟨((mss_usable_iff (calmEnv 1) (tsSyn 100) (tsChild 100)).1 2 streamSock webListener 1 0
      peerAddr 0 rfl).mpr (by decide +kernel),
    ((mss_usable_iff (calmEnv 1) (tsSyn 100) (tsChild 100)).2.2 (.start
      (.passive (calmEnv 1) 2 webListener 1 0 peerAddr 0 (tsSyn 100)) _ rfl
      (show stripWraps _ _ = false by decide +kernel))).2⟩

end SamaraOS.Net
