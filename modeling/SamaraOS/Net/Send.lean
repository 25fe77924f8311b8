import SamaraOS.Net.SendWindow

/-!
# What a socket sends

A run of one socket with the bytes its application wrote.  As long as nothing is
written while bytes are being sent again, and no timeout finds a byte that was never
sent, every segment with data carries the bytes that were written at its sequence
number, and the three sequence numbers of the sender stay in order.
-/

namespace SamaraOS.Net

open Relation List Opening

structure SendInv (w : Writer) (v : View) : Prop extends Sends w v where
  opening : Opening v.t
  level : v.t.Level

/-! ## Acknowledgements -/

section Ack

variable {w : Writer} {t : Tcb} {blocks : List (U32 × U32)} {ack : U32} {sent : List Sent}
  {v : View}

private theorem blocks_sends (h : Sends w ⟨t, sent⟩) (hok : ∀ r ∈ blocks, t.BlockOk r) :
    Sends w ⟨blocks.foldl Tcb.sbAdd t, sent⟩ := by
  refine ⟨h.written.congr ?_, h.ordered.blocks h.written.len_lt hok, h.mark, h.log⟩
  rw [foldl_sbAdd_frame]
  rfl

private theorem blocks_level (h : t.Level) : (blocks.foldl Tcb.sbAdd t).Level := by
  rw [foldl_sbAdd_frame]
  exact h

private theorem blocks_opening (h : Opening t) (hrcvd : t.state = .synRcvd) :
    Opening (blocks.foldl Tcb.sbAdd t) := by
  rw [foldl_sbAdd_frame]
  exact ⟨h.half, h.begun, fun hsent => absurd (hrcvd.symm.trans hsent) (by decide)⟩

section

variable (h : SendInv w ⟨t, sent⟩)

include h

section

variable (hrcvd : t.state = .synRcvd)

include hrcvd

private theorem half_fin : t.finSent = false := by
  obtain ⟨hlen, -, hnxt, -⟩ := h.opening.half (.inr hrcvd)
  cases hfin : t.finSent with
  | false => rfl
  | true =>
    have hplace := h.ordered.fin hfin
    dsimp only at hplace hnxt
    omega

private theorem half_outside :
    0 ≤ sd t.sndNxt t.sndUna ∧ sd t.sndNxt t.sndMax ≤ 0 ∧ t.sndUna ≠ t.sndNxt := by
  obtain ⟨-, huna, hnxt, hmax⟩ := h.opening.half (.inr hrcvd)
  dsimp only at huna hnxt hmax
  rw [t.sd_pos (by omega) (by omega), t.sd_pos (by omega) (by omega)]
  refine ⟨by omega, by omega, fun heq => ?_⟩
  rw [heq] at huna
  omega

private theorem half_advance (hlo : 0 < sd ack t.sndUna) (hhi : sd ack t.sndMax ≤ 0) :
    ack = t.sndNxt := by
  obtain ⟨-, huna, hnxt, hmax⟩ := h.opening.half (.inr hrcvd)
  dsimp only at huna hnxt hmax
  have hbetween := t.between (by omega) (by omega) hlo.le hhi
  rw [t.sd_pos (by omega) (by omega)] at hlo
  exact Tcb.pos_inj (t := t) (by omega)

end

omit h in
private theorem outs_stay {v v' : View} (h : Outs v v') (hstate : canSend v.t.state = false) :
    v'.t = v.t := by
  induction h with
  | refl => rfl
  | tail hinit hlast ih =>
    have hst : canSend _ = false := (congrArg canSend (Outs.state hinit)).trans hstate
    cases hlast with
    | retx => exact ih
    | send t sent n psh hsend | skip t sent r hr hlo hhi hsend => exact absurd hsend (by simp [hst])

theorem SendInv.ackMid (hlink : linked t.state = true)
    (hmid : AckMid t blocks ack sent v) (hok : ∀ r ∈ blocks, t.BlockOk r) :
    Sends w v ∧ v.t.Level ∧ (1 ≤ v.t.pos v.t.sndUna ∧ (t.state = .synRcvd → ack = v.t.sndNxt) ∨
      t.state = .synRcvd ∧ ack ≠ v.t.sndNxt ∧ v.t.finSent = false ∧ Opening v.t) := by
  cases hmid with
  | outside hout =>
    refine ⟨h.toSends, h.level, ?_⟩
    by_cases hrcvd : t.state = .synRcvd
    · obtain ⟨hlo, hhi, -⟩ := half_outside h hrcvd
      refine .inr ⟨hrcvd, fun heq => ?_, half_fin h hrcvd, h.opening⟩
      rw [heq] at hout
      exact hout.elim (not_lt.2 hlo) (not_lt.2 hhi)
    · exact .inl ⟨h.opening.one_le hlink hrcvd, fun hst => absurd hst hrcvd⟩
  | dup _ hack houts hsyn =>
    have hblocks := blocks_sends h.toSends hok
    have hlevel : (blocks.foldl Tcb.sbAdd t).Level := blocks_level h.level
    by_cases hrcvd : t.state = .synRcvd
    · have hne := (half_outside h hrcvd).2.2
      have hfin := half_fin h hrcvd
      rw [hsyn hrcvd]
      refine ⟨hblocks, hlevel, .inr ⟨hrcvd, ?_, ?_, blocks_opening h.opening hrcvd⟩⟩
      · rw [hack, foldl_sbAdd_frame]
        exact hne
      rw [foldl_sbAdd_frame]
      exact hfin
    have hone : 1 ≤ (blocks.foldl Tcb.sbAdd t).pos (blocks.foldl Tcb.sbAdd t).sndUna := by
      rw [foldl_sbAdd_frame]
      exact h.opening.one_le hlink hrcvd
    obtain ⟨hsends, hlast⟩ := hblocks.outs houts hone hlevel
    refine ⟨hsends, hlast, .inl ⟨?_, fun hst => absurd hst hrcvd⟩⟩
    rw [houts.frame]
    exact hone
  | advance _ hlo hhi houts =>
    have hblocks := blocks_sends h.toSends hok
    have hframe := foldl_sbAdd_frame blocks t
    have hlo' : 0 < sd ack (blocks.foldl Tcb.sbAdd t).sndUna := by
      rw [hframe]
      exact hlo
    have hhi' : sd ack (blocks.foldl Tcb.sbAdd t).sndMax ≤ 0 := by
      rw [hframe]
      exact hhi
    obtain ⟨hordered, hone, hkept⟩ := hblocks.ordered.acked hblocks.written.len_lt hlo' hhi'
    have hacked : Sends w ⟨(blocks.foldl Tcb.sbAdd t).acked ack, sent⟩ :=
      ⟨hblocks.written.acked ack, hordered, h.mark, h.log⟩
    obtain ⟨hsends, hlast⟩ := hacked.outs houts hone (hkept (blocks_level h.level))
    refine ⟨hsends, hlast, .inl ⟨?_, fun hrcvd => ?_⟩⟩
    · rw [houts.frame]
      exact hone
    have hst : ((blocks.foldl Tcb.sbAdd t).acked ack).state = .synRcvd := by
      rw [hframe]
      exact hrcvd
    have hnxt : (blocks.foldl Tcb.sbAdd t).sndNxt = ack := by
      rw [hframe]
      exact (half_advance h hrcvd hlo hhi).symm
    rw [outs_stay houts (by rw [hst]; rfl)]
    change ack = if sd (blocks.foldl Tcb.sbAdd t).sndNxt ack < 0 then ack
      else (blocks.foldl Tcb.sbAdd t).sndNxt
    rw [hnxt, ite_self]

end

theorem SendInv.settle (h : Sends w v) (hlink : linked v.t.state = true) (hlevel : v.t.Level) (hmid : 1 ≤ v.t.pos
    v.t.sndUna ∧ (v.t.state = .synRcvd → ack = v.t.sndNxt) ∨ v.t.state = .synRcvd ∧ ack ≠ v.t.sndNxt
    ∧ v.t.finSent = false ∧ Opening v.t) : SendInv w ⟨v.t.settle ack, v.sent⟩ := by
  refine ⟨h.congr rfl rfl, ?_, hlevel.congr rfl⟩
  rcases hmid with ⟨hone, hsyn⟩ | ⟨hrcvd, hne, hfin, hopening⟩
  · have hest : v.t.estState ack ≠ .synRcvd ∧ v.t.estState ack ≠ .synSent := by
      unfold Tcb.estState
      split
      · exact ⟨by decide, by decide⟩
      next hno =>
      exact ⟨fun hst => hno ⟨hst, hsyn hst⟩, fun hst => by simp [hst, linked] at hlink⟩
    have hstate : (v.t.settle ack).state ≠ .synRcvd ∧ (v.t.settle ack).state ≠ .synSent := by
      change Tcb.ackedState { v.t with state := v.t.estState ack } ≠ _ ∧
        Tcb.ackedState { v.t with state := v.t.estState ack } ≠ _
      unfold Tcb.ackedState
      split
      · change afterFinAck (v.t.estState ack) ≠ _ ∧ afterFinAck (v.t.estState ack) ≠ _
        cases hst : v.t.estState ack <;> simp_all [afterFinAck]
      · exact hest
    exact of_open hone hstate.2 hstate.1
  refine hopening.congr rfl ?_
  have hest : v.t.estState ack = v.t.state := if_neg fun hboth => hne hboth.2
  change Tcb.ackedState { v.t with state := v.t.estState ack } = v.t.state
  rw [hest]
  exact if_neg fun hacked => absurd hacked.1 (by simp [hfin])

end Ack

/-! ## Every phase -/

def Event.opens : Event → Bool
  | .connect .. | .listen .. | .send _ => true
  | _ => false

def SackOk (s : Sock) : Event → Prop
  | .segment h _ => linked s.state = true →
      ∀ r ∈ sackList s (parseOpts h.opts), s.tcb.BlockOk r
  | _ => True

/-- Nothing is written while bytes are sent again, and a timeout finds no byte that was never
sent. -/
def LevelOk (e : Env) (s : Sock) : Event → Prop
  | .send _ => s.sndNxt = s.sndMax
  | .tick => rtoDue e s = true → sd s.tcb.ringEnd s.sndMax ≤ 0
  | _ => True

variable {w : Writer} {t : Tcb} {sent : List Sent} {e : Env} {c : Conn} {s s₀ : Sock} {ev : Event}

theorem SendInv.move {t' : Tcb} (h : SendInv w ⟨t, sent⟩) (hring : t'.ring = t.ring)
    (hwindow : t'.window = t.window) (hst : t'.state = t.state ∨ t'.state = .closed ∨ 1 ≤ t.pos
    t.sndUna ∧ t'.state ≠ .synSent ∧ t'.state ≠ .synRcvd) : SendInv w ⟨t', sent⟩ := by
  refine ⟨h.toSends.congr hring hwindow, ?_, h.level.congr hwindow⟩
  rcases hst with hst | hst | ⟨hone, hsent, hrcvd⟩
  · exact h.opening.congr hwindow hst
  · change Opening t'
    refine ⟨fun hhalf => ?_, fun _ => .inl hst, fun hsent => ?_⟩
    · exact absurd hst (by rcases hhalf with hhalf | hhalf <;> simp [hhalf])
    · exact absurd (hst.symm.trans hsent) (by decide)
  refine of_open ?_ hsent hrcvd
  simp only [Tcb.window, Prod.mk.injEq] at hwindow
  change 1 ≤ Serial.off (t'.txSeq - 1) t'.sndUna
  rw [hwindow.1, hwindow.2.1]
  exact hone

private theorem finRcvState_open (h : takesData s.state = true) :
    finRcvState s ≠ .synSent ∧ finRcvState s ≠ .synRcvd := by
  unfold finRcvState
  cases hst : s.state <;> simp_all [takesData]
  split <;> simp

theorem SendInv.receive {hdr : Hdr} (h : SendInv w ⟨s.tcb, sent⟩)
    (hlink : linked s.state = true) : SendInv w ⟨(finPart e (dataPart e s hdr)).tcb, sent⟩ := by
  have hframe := receive_frame e s hdr
  have hstate := receive_state e s hdr
  generalize (finPart e (dataPart e s hdr)).tcb = t' at hframe hstate
  refine h.move (by rw [hframe]; rfl) (by rw [hframe]; rfl) ?_
  rcases hstate with hst | ⟨htakes, hst⟩
  · exact .inl hst
  have hrcvd : s.tcb.state ≠ .synRcvd := fun hst => by
    rw [show s.state = .synRcvd from hst] at htakes
    exact absurd htakes (by decide)
  have hopen := finRcvState_open htakes
  rw [← hst] at hopen
  exact .inr (.inr ⟨h.opening.one_le hlink hrcvd, hopen.1, hopen.2⟩)

theorem SendInv.phase {v v' : View}
    (h : SendInv w v) (hphase : Phase e ev s₀ v v') (hev : ev.opens = false)
    (hsack : SackOk s₀ ev) (hlevel : LevelOk e s₀ ev) : SendInv w v' := by
  cases hphase with
  | call t sent seq fl => exact ⟨h.toSends.call seq fl, h.opening, h.level⟩
  | out hout hstate =>
    have hlink := linked_of_canSend hstate
    have hrcvd : v.t.state ≠ .synRcvd := fun hst => by simp [hst, canSend] at hstate
    have hone := h.opening.one_le hlink hrcvd
    obtain ⟨hsends, hlast⟩ := h.toSends.out hout hone h.level
    refine ⟨hsends, ?_, hlast⟩
    rw [hout.frame]
    refine of_open hone (fun hst => ?_) hrcvd
    change v.t.state = .synSent at hst
    simp [hst, canSend] at hstate
  | fin _ hdue =>
    have hstate := hdue.1
    have hlink := linked_of_canSend hstate
    have hrcvd : v.t.state ≠ .synRcvd := fun hst => by simp [hst, canSend] at hstate
    have hone := h.opening.one_le hlink hrcvd
    have hlen := h.written.len_lt
    obtain ⟨hord, hlast⟩ := h.ordered.sendFin hlen hone hdue
    refine ⟨h.toSends.say ?_ (h.written.congr rfl) hord, ?_, hlast⟩
    · exact ⟨h.ordered.inOrder hlen, fun hpos => absurd hpos (Nat.lt_irrefl 0)⟩
    refine of_open hone ?_ ?_ <;>
    · change finState v.t.state ≠ _
      cases hst : v.t.state <;> simp_all [finState, canSend]
  | ack hdr ok sent v₁ hev' hstate hmid =>
    subst hev'
    obtain ⟨hsends, hlast, hcases⟩ := h.ackMid hstate hmid (hsack hstate)
    rw [show s₀.tcb.state = v₁.t.state from hmid.state.symm] at hcases
    exact .settle hsends (by rw [hmid.state]; exact hstate) hlast hcases
  | refuse hdr ok sent v₁ hev' hstate hmid hack =>
    subst hev'
    have hlink : linked s₀.state = true := by
      rw [hstate]
      rfl
    obtain ⟨hsends, hlast, hone | ⟨-, hne, -⟩⟩ := h.ackMid hlink hmid (hsack hlink)
    · refine ⟨.congr (.call (.congr hsends ?_ ?_) _ _) ?_ ?_, ?_, hlast.congr ?_⟩
      all_goals first | rfl | exact of_open hone.1 (by simp) (by simp)
    · exact absurd hack hne
  | receive hdr ok sent s _ hstate => exact h.receive hstate
  | kill | expire => exact h.move rfl rfl (.inr (.inl rfl))
  | control | recv | maxseg => exact h.move rfl rfl (.inl rfl)
  | rewind sent sb hev' hdue hstate hsyn hsb =>
    subst hev'
    have hone := h.opening.one_le hstate hsyn
    have hord := h.ordered
    have hsub : ∀ r ∈ sb, r ∈ s₀.tcb.sb := by
      rcases hsb with rfl | rfl
      · simp
      · exact fun _ hr => hr
    have hsent := hlevel hdue
    have htop : s₀.tcb.pos s₀.tcb.sndMax ≤ s₀.tcb.txLen + 2 := hord.top
    have hlen : s₀.tcb.txLen < 2 ^ 30 := h.written.len_lt
    have hend := Tcb.pos_ringEnd hlen
    change sd s₀.tcb.ringEnd s₀.tcb.sndMax ≤ 0 at hsent
    rw [s₀.tcb.sd_pos (by omega) (by omega), hend] at hsent
    refine ⟨⟨h.written.congr rfl, ?_, h.mark, h.log⟩, ?_, .inr ?_⟩
    · exact ⟨hord.una, hord.done, le_rfl, hord.nxt.trans hord.most, hord.top, hord.shut,
        fun hfin => absurd hfin Bool.false_ne_true, fun r hr => hord.sack r (hsub r hr)⟩
    · refine of_open hone ?_ ?_ <;>
      · change Tcb.rewindState s₀.tcb ≠ _
        unfold Tcb.rewindState
        change linked s₀.tcb.state = true at hstate
        change s₀.tcb.state ≠ _ at hsyn
        cases hst : s₀.tcb.state <;> simp_all [linked] <;> split <;> simp
    · change s₀.tcb.txLen + 1 ≤ s₀.tcb.pos s₀.tcb.sndMax
      omega
  | write buf sent hev' | connect _ _ _ _ _ _ _ hev' | listen _ _ _ _ hev' =>
    exact absurd hev (by simp [hev', Event.opens])
  | shut t sent hstate =>
    have hord : Ordered t := h.ordered
    refine ⟨⟨h.written.congr rfl, ?_, h.mark, h.log⟩,
      ⟨h.opening.half, h.opening.begun, h.opening.fresh⟩, h.level⟩
    exact ⟨hord.una, hord.done, hord.nxt, hord.most, hord.top,
      fun hshut => absurd hshut.symm Bool.false_ne_true, hord.fin, hord.sack⟩
  | resizeRx ok rc s sent =>
    rw [setbufRx_frame]
    exact h.move rfl rfl (.inl rfl)
  | resizeTx ok tc s sent htc =>
    have hwindow : (setbufTx ok s tc).tcb.window = s.tcb.window := by
      rw [setbufTx_frame]
      rfl
    refine ⟨⟨h.written.resize ok htc, h.ordered.congr hwindow, h.mark, h.log⟩, ?_,
      h.level.congr hwindow⟩
    refine h.opening.congr hwindow ?_
    dsimp only
    rw [setbufTx_frame]
  | start _ _ _ hev' => cases ev <;> simp_all [Event.opens, Event.isConnect]
  | synAck hdr ok sent _ hsyn =>
    simp only [synAckFor, Bool.and_eq_true, beq_iff_eq] at hsyn
    obtain ⟨⟨⟨hst, -⟩, -⟩, hack⟩ := hsyn
    have hst' : s₀.tcb.state = .synSent := hst
    obtain ⟨hlen, huna, hnxt, hmax⟩ := h.opening.half (.inl hst')
    have hsb := h.opening.fresh hst'
    have hord := h.ordered
    dsimp only at hlen huna hnxt hmax hsb hord
    have hplace : s₀.tcb.pos hdr.ack = 1 := by
      rw [hack]
      exact hnxt
    refine ⟨⟨h.written.congr rfl, ?_, h.mark, h.log⟩, ?_, h.level⟩
    · refine ⟨?_, ?_, ?_, hord.most, hord.top, hord.shut, hord.fin, ?_⟩
      · exact hplace.le.trans (by decide)
      · exact fun htwo => absurd (hplace.symm.trans htwo) (by decide)
      · exact (hplace.trans hnxt.symm).le
      intro r hr
      change r ∈ s₀.tcb.sb at hr
      rw [hsb] at hr
      cases hr
    · exact of_open hplace.ge (by simp) (by simp)

theorem SendInv.phases {v v' : View}
    (h : SendInv w v) (hphases : Phases e ev s₀ v v') (hev : ev.opens = false)
    (hsack : SackOk s₀ ev) (hlevel : LevelOk e s₀ ev) : SendInv w v' := by
  induction hphases with
  | refl => exact h
  | tail _ hlast ih => exact ih.phase hlast hev hsack hlevel

/-! ## Writing and connecting -/

theorem SendInv.append (h : SendInv w ⟨t, sent⟩)
    (buf : List U8) (hstate : t.state = .established ∨ t.state = .closeWait)
    (hshut : t.shutWr = false) (hnew : t.sndNxt = t.sndMax) :
    SendInv (w.put (buf.take (min buf.length (sub32 t.txCap t.txLen)))) ⟨t.append buf, sent⟩ := by
  have hwritten := Written.append h.written buf
  have hlen : t.txLen ≤ (t.append buf).txLen := by
    have hcap : t.txCap ≤ bufMax := h.written.cap.2
    have hle : t.txLen ≤ t.txCap := h.written.len
    have hmax : bufMax < 2 ^ 30 := by decide
    change t.txLen ≤ (t.txLen + min buf.length (sub32 t.txCap t.txLen)) % 2 ^ 32
    unfold sub32
    omega
  have hhalf : ¬ (t.state = .synSent ∨ t.state = .synRcvd) := by
    rcases hstate with hst | hst <;> simp [hst]
  refine ⟨⟨hwritten, h.ordered.append buf hshut hlen, h.mark, fun x hx => ?_⟩, ?_,
    .inl (congrArg t.pos hnew)⟩
  · exact (h.log x hx).put _
  · exact ⟨fun hst => absurd hst hhalf, h.opening.begun, fun hst => absurd (.inl hst) hhalf⟩

theorem SendInv.output (h : SendInv w c.view) : SendInv w (tcpOutput e c).view := by
  have hphases : Phases e .accepted c.s c.view (tcpOutput e c).view := tcpOutput_phases c
  exact h.phases hphases rfl trivial trivial

theorem SendInv.dial (h : SendInv w ⟨t, sent⟩)
    (ip : Addr) (iss : U32) (hstate : t.state = .closed) (hlen : t.txLen = 0)
    (hfin : t.finSent = false) (hsb : t.sb = []) :
    SendInv ⟨[], iss + 1, sent.length⟩ ⟨t.dial ip iss, sent⟩ := by
  have hpos : (t.dial ip iss).pos (iss + 1) = 1 := (t.dial ip iss).pos_txSeq
  have huna : (t.dial ip iss).pos iss = 0 := by
    change Serial.off (iss + 1 - 1) iss = 0
    rw [BitVec.add_sub_cancel]
    exact Serial.off_self iss
  have hgone : Writer.gone ⟨[], iss + 1, sent.length⟩ (t.dial ip iss) = 0 := Nat.zero_sub _
  refine ⟨⟨⟨h.written.cap, h.written.len, ?_, ?_, t.txHead, ?_, ?_⟩, ?_, le_rfl, ?_⟩, ?_, .inl rfl⟩
  · exact hlen.le
  · rw [hgone]
    exact (BitVec.add_zero _).symm
  · obtain ⟨anchor, hhead, -⟩ := h.written.ring
    have hlt : t.txHead < t.txCap := by
      rw [show t.txHead = _ from hhead]
      exact Nat.mod_lt _ h.written.cap_pos
    rw [hgone]
    exact (Nat.mod_eq_of_lt hlt).symm
  · exact Ring.Holds.empty _ _ _ _ (Nat.zero_le _)
  · have hnil : (t.dial ip iss).sb = [] := hsb
    refine ⟨huna.le.trans (by decide), fun _ => hlen, ?_, le_rfl, ?_, fun _ => ?_, fun hf => ?_, ?_⟩
    · exact huna.le.trans (Nat.zero_le _)
    · exact hpos.le.trans (by omega)
    · exact hpos.le.trans (by omega)
    · exact absurd (hfin.symm.trans hf) (by decide)
    · simp [hnil]
  · simp
  refine ⟨fun hhalf => ?_, fun _ => .inl hstate, fun hst => ?_⟩
  · exact absurd hstate (by
      change t.state = .synSent ∨ t.state = .synRcvd at hhalf
      rcases hhalf with hst | hst <;> simp [hst])
  · exact absurd (hstate.symm.trans hst) (by decide)

theorem SendInv.start {t₀ : Tcb} (h : SendInv w ⟨t, sent⟩)
    {ip : Addr} {iss : U32} (hwindow : t.window = (t₀.dial ip iss).window) (hlen : t₀.txLen = 0)
    (hsb : t₀.sb = []) : SendInv w ⟨{ t with state := .synSent }, sent⟩ := by
  refine ⟨h.toSends.congr rfl rfl, ?_, h.level⟩
  have hdial : Opening { t₀.dial ip iss with state := .synSent } := by
    have hone : (t₀.dial ip iss).pos (iss + 1) = 1 := (t₀.dial ip iss).pos_txSeq
    have huna : (t₀.dial ip iss).pos iss = 0 := by
      change Serial.off (iss + 1 - 1) iss = 0
      rw [BitVec.add_sub_cancel]
      exact Serial.off_self iss
    exact ⟨fun _ => ⟨hlen, huna, hone, hone⟩, fun _ => .inr (.inl rfl), fun _ => hsb⟩
  exact hdial.congr hwindow rfl

theorem Resized.window {t' : Tcb} (h : Resized t t') : t'.window = t.window := by
  rw [h]
  rfl

def Tcb.Unsent (t : Tcb) : Prop := t.txLen = 0 ∧ t.finSent = false ∧ t.sb = []

theorem SendInv.connect (h : SendInv w c.view) (slot : Slot)
    (ip : Addr) (port : U16) (lip : Addr) (lport : U16) (hstate : c.s.state = .closed)
    (hclean : c.s.tcb.Unsent) :
    SendInv ⟨[], connectIss e slot + 1, c.calls.length⟩
      (sockConnect e c slot ip port lip lport).view := by
  obtain ⟨hlen, hfin, hsb⟩ := hclean
  unfold sockConnect
  rw [if_pos hstate]
  dsimp only
  generalize hd : dialSock c.s (connectIss e slot) ip port lip lport = d
  have hdtcb : d.tcb = c.s.tcb.dial ip (connectIss e slot) := by rw [← hd, dialSock_tcb]
  have hmark : c.calls.length = c.view.sent.length := (length_map _).symm
  have hdial : SendInv ⟨[], connectIss e slot + 1, c.calls.length⟩ ⟨d.tcb, c.view.sent⟩ := by
    rw [hdtcb, hmark]
    exact SendInv.dial h ip _ hstate hlen hfin hsb
  have hbuf : SendInv ⟨[], connectIss e slot + 1, c.calls.length⟩
      ⟨(connectBuf e d ip).tcb, c.view.sent⟩ ∧ Resized d.tcb (connectBuf e d ip).tcb := by
    unfold connectBuf
    split
    · have hphases : Phases e .accepted d (Conn.view ⟨d, c.calls⟩)
          (Conn.view ⟨tcpSetbuf e d (2 ^ 20) (2 ^ 20), c.calls⟩) := tcpSetbuf_phases ⟨d, c.calls⟩ _ _
      exact ⟨SendInv.phases hdial hphases rfl trivial trivial, tcpSetbuf_resized e d _ _⟩
    · exact ⟨hdial, rfl⟩
  generalize connectBuf e d ip = b at hbuf
  obtain ⟨hbuf, hres⟩ := hbuf
  have hwindow : b.tcb.window = (c.s.tcb.dial ip (connectIss e slot)).window := by
    rw [hres.window, hdtcb]
  have hstart := hbuf.start hwindow hlen hsb
  have hsyn : (synTimer e (clearErr (b.setState .synSent))).tcb =
      { b.tcb with state := .synSent } := by
    rw [synTimer, setRtt_tcb, clearErr_tcb, setState_tcb]
  rw [tcpSegment_view, hsyn, Conn.view_mk (synTimer _ _)]
  exact ⟨Sends.call hstart.toSends _ _, hstart.opening, hstart.level⟩

def SendRes.count : SendRes → Nat
  | .put n => n
  | _ => 0

theorem sockSend_count (e : Env) (c : Conn) (buf : List U8) :
    ((sockSend e c buf).2.count = 0 ∧ (sockSend e c buf).1.view = c.view) ∨
      ((c.s.state = .established ∨ c.s.state = .closeWait) ∧ c.s.shutWr = false ∧
        (sockSend e c buf).1 = tcpOutput e ⟨putTx c.s buf, c.calls⟩ ∧
        (sockSend e c buf).2.count = min buf.length (sub32 c.s.txCap c.s.txLen)) := by
  unfold sockSend
  split
  · exact .inl ⟨rfl, rfl⟩
  split
  · exact .inl ⟨rfl, rfl⟩
  split
  · exact .inl ⟨rfl, view_congr c.calls (clearErr_tcb c.s)⟩
  split
  · exact .inl ⟨rfl, rfl⟩
  next hopen =>
  rw [not_or, not_and_or, not_not, not_not, Bool.not_eq_true] at hopen
  dsimp only
  split
  · exact .inl ⟨rfl, rfl⟩
  · exact .inr ⟨hopen.2, hopen.1, rfl, rfl⟩

/-! ## Runs -/

def Writer.step (w : Writer) (e : Env) (c : Conn) : Event → Writer
  | .send buf => w.put (buf.take (sockSend e c buf).2.count)
  | .connect slot .. =>
    if c.s.state = .closed then ⟨[], connectIss e slot + 1, c.calls.length⟩ else w
  | _ => w

/-- What may happen to a socket.  Reported ranges begin within what was sent, and a connection is
new only where nothing is left to send. -/
structure SendOk (c : Conn) (e : Env) (ev : Event) : Prop where
  level : LevelOk e c.s ev
  sack : SackOk c.s ev
  clean : ev.isConnect = true → c.s.state = .closed → c.s.tcb.Unsent
  connection : ev.isListen = false

inductive SendRun : Writer → Conn → Prop where
  | start (b : Birth) (c : Conn) (h : b.conn = some c) : SendRun ⟨[], c.s.txSeq, 0⟩ c
  | step (w : Writer) (c : Conn) (e : Env) (ev : Event) (hrun : SendRun w c)
      (hused : c.s.used = true) (hen : Enabled c.s ev) (hok : SendOk c e ev) :
      SendRun (w.step e c ev) (stepConn e c ev)

theorem Written.fresh (h : t.Fresh) : Written ⟨[], t.txSeq, 0⟩ t := by
  have hgone : Writer.gone ⟨[], t.txSeq, 0⟩ t = 0 := Nat.zero_sub _
  refine ⟨h.txCap, ?_, ?_, ?_, 0, ?_, Ring.Holds.empty _ _ _ _ (Nat.zero_le _)⟩
  · rw [h.txLen]
    exact Nat.zero_le _
  · exact h.txLen.le
  · rw [hgone]
    exact (BitVec.add_zero _).symm
  rw [hgone, h.txHead]
  exact (Nat.zero_mod _).symm

theorem Ordered.fresh (h : t.Fresh) (huna : t.pos t.sndUna ≤ 1)
    (hnxt : t.sndNxt = t.txSeq) (hmax : t.sndMax = t.txSeq) : Ordered t := by
  have hone := t.pos_txSeq
  have hlen := h.txLen
  rw [← hnxt] at hone
  have hmost : t.pos t.sndMax = 1 := by
    rw [hmax]
    exact t.pos_txSeq
  refine ⟨by omega, by omega, by omega, by omega, by omega, fun _ => by omega, fun hfin => ?_, ?_⟩
  · exact absurd (h.finSent.symm.trans hfin) (by decide)
  · simp [h.sb]

theorem SendInv.birth {b : Birth} (h : b.conn = some c) : SendInv ⟨[], c.s.txSeq, 0⟩ c.view := by
  cases b with
  | create e af =>
    rw [Birth.conn, Option.map_eq_some_iff] at h
    obtain ⟨s, hs, rfl⟩ := h
    obtain ⟨hfresh, hclosed⟩ := allocSock_tcb hs
    have hzero : s.tcb.sndUna = s.tcb.txSeq ∧ s.tcb.sndNxt = s.tcb.txSeq ∧
        s.tcb.sndMax = s.tcb.txSeq := by
      unfold allocSock at hs
      dsimp only at hs
      split at hs
      · cases hs
        exact ⟨rfl, rfl, rfl⟩
      · cases hs
    have huna : s.tcb.pos s.tcb.sndUna = 1 := by
      rw [hzero.1]
      exact s.tcb.pos_txSeq
    refine ⟨⟨.fresh hfresh, .fresh hfresh huna.le hzero.2.1 hzero.2.2,
      Nat.zero_le _, by simp [Conn.view]⟩, of_open huna.ge ?_ ?_, ?_⟩
    rotate_right
    · exact .inl (congrArg s.tcb.pos (hzero.2.1.trans hzero.2.2.symm))
    all_goals
      change s.state ≠ _
      simp [hclosed]
  | passive e af l slot parent src dst hdr =>
    rw [Birth.conn, Option.map_eq_some_iff] at h
    obtain ⟨s, hs, rfl⟩ := h
    obtain ⟨t, seq, hfresh, hres, hview⟩ :=
      passiveOpen_view e l slot parent src dst hdr (allocSock_tcb hs).1
    have htcb : (passiveOpen e s l slot parent src dst hdr).s.txSeq = t.txSeq :=
      congrArg (fun v : View => v.t.txSeq) hview
    have hwindow := hres.window
    simp only [Tcb.window, Prod.mk.injEq] at hwindow
    obtain ⟨hseq, huna, hnxt, hmax, -⟩ := hwindow
    have hzero : t.pos t.sndUna = 0 := by
      rw [huna, Tcb.pos, hseq]
      change Serial.off (passiveIss e slot + 1 - 1) (passiveIss e slot) = 0
      rw [BitVec.add_sub_cancel]
      exact Serial.off_self _
    have hnxt' : t.sndNxt = t.txSeq := hnxt.trans hseq.symm
    have hmax' : t.sndMax = t.txSeq := hmax.trans hseq.symm
    have hst : t.state = .synRcvd := by
      rw [hres]
      rfl
    rw [hview, htcb]
    have hsends : Sends ⟨[], t.txSeq, 0⟩ ⟨t, []⟩ :=
      ⟨.fresh hfresh, .fresh hfresh (hzero.le.trans (by decide)) hnxt' hmax', le_rfl,
        by simp⟩
    refine ⟨hsends.call seq _, ⟨fun _ => ⟨hfresh.txLen, hzero, ?_, ?_⟩, fun _ => ?_, fun _ => ?_⟩,
      .inl (congrArg t.pos (hnxt'.trans hmax'.symm))⟩
    · change t.pos t.sndNxt = 1
      rw [hnxt']
      exact t.pos_txSeq
    · change t.pos t.sndMax = 1
      rw [hmax']
      exact t.pos_txSeq
    · exact .inr (.inr hst)
    · exact hfresh.sb

theorem SendRun.inv (h : SendRun w c) : SendInv w c.view := by
  induction h with
  | start b c hb => exact .birth hb
  | step w c e ev hrun hused hen hok ih =>
    have hphases := stepConn_phases e c ev hen
    cases hev : ev.opens with
    | false =>
      have hsame : w.step e c ev = w := by
        cases ev <;> first | rfl | exact absurd hev (by simp [Event.opens])
      rw [hsame]
      exact ih.phases hphases hev hok.sack hok.level
    | true =>
      cases ev with
      | connect slot ip port lip lport =>
        by_cases hst : c.s.state = .closed
        · have hw : w.step e c (.connect slot ip port lip lport) =
              ⟨[], connectIss e slot + 1, c.calls.length⟩ := if_pos hst
          rw [hw]
          exact ih.connect slot ip port lip lport hst (hok.clean rfl hst)
        have hw : w.step e c (.connect slot ip port lip lport) = w := if_neg hst
        have hc : stepConn e c (.connect slot ip port lip lport) = c := if_neg hst
        rw [hw, hc]
        exact ih
      | send buf =>
        change SendInv (w.put (buf.take (sockSend e c buf).2.count)) (sockSend e c buf).1.view
        rcases sockSend_count e c buf with ⟨hzero, hview⟩ | ⟨hstate, hshut, hc, hcount⟩
        · rw [hzero, hview, take_zero, show w.put [] = w by simp [Writer.put]]
          exact ih
        rw [hc, hcount]
        refine .output ?_
        rw [Conn.view_mk (putTx _ _), putTx_tcb]
        exact .append ih buf hstate hshut hok.level
      | listen lip lport backlog => exact absurd hok.connection (by simp [Event.isListen])
      | _ => cases hev

/-- In every run the sender's numbers are in order, and were at every segment; and each segment
with data lies in the ring and carries what was written at its place in the stream. -/
theorem stream_sent (w : Writer) (c : Conn) (hrun : SendRun w c) :
    (0 ≤ sd c.s.sndNxt c.s.sndUna ∧ 0 ≤ sd c.s.sndMax c.s.sndNxt) ∧ ∀ k ∈ c.calls.drop w.mark,
        (0 ≤ sd k.s.sndNxt k.s.sndUna ∧ 0 ≤ sd k.s.sndMax k.s.sndNxt) ∧
          (0 < k.len → 0 ≤ sd k.seq k.s.txSeq ∧
            sd (k.seq + BitVec.ofNat 32 k.len) (k.s.txSeq + BitVec.ofNat 32 k.s.txLen) ≤ 0 ∧
            ∃ i, k.seq = w.first + BitVec.ofNat 32 i ∧ i + k.len ≤ w.wrote.length ∧
              segData k.s k.seq k.len = (w.wrote.drop i).take k.len) := by
  have hinv := hrun.inv
  refine ⟨hinv.ordered.inOrder hinv.written.len_lt, fun k hk => ?_⟩
  have hmem : k.view ∈ c.view.sent.drop w.mark := by
    change k.view ∈ (c.calls.map SegCall.view).drop w.mark
    rw [← map_drop]
    exact mem_map_of_mem hk
  obtain ⟨horder, hcarries⟩ := hinv.log k.view hmem
  refine ⟨horder, fun hlen => ?_⟩
  obtain ⟨hlo, hhi, i, hseq, hdata, hle⟩ := hcarries hlen
  exact ⟨hlo, hhi, i, hseq, hle, hdata⟩

def sendAck : Event := .segment (plainSeg 101 plainConn.s.sndNxt { ack := true } []) true

def lossRun : List (Env × Event) :=
  [(calmEnv 2, sendAck), (calmEnv 2, .accepted), (calmEnv 2, .send (replicate 100 7)),
    (calmEnv 3, .send (replicate 300 8)), (calmEnv 5000, .tick)]

theorem timeout_passes_max : ∃ c, Run (fun _ => True) (fun _ _ _ => True) c ∧
    sd c.s.sndMax c.s.sndNxt < 0 :=
  ⟨_, .fold lossRun (.start plainBirth plainConn plainBirth_conn trivial) (by decide +kernel),
    by decide +kernel⟩

theorem sackOk_of_nil {h : Hdr} {ok : Bool}
    (hnil : sackList s (parseOpts h.opts) = []) : SackOk s (.segment h ok) := by
  intro _ r hr
  rw [hnil] at hr
  cases hr

def greetConn : Conn :=
  stepConn (calmEnv 2) (stepConn (calmEnv 2) plainConn sendAck) (.send [72, 105])

theorem greet_run : ∃ w, SendRun w greetConn ∧ w.wrote = [72, 105] ∧ w.mark = 0 := by
  have hstart := SendRun.start plainBirth plainConn plainBirth_conn
  have hack := hstart.step _ _ (calmEnv 2) sendAck (by decide +kernel) (by decide +kernel)
    ⟨trivial, sackOk_of_nil (by decide +kernel), by simp [sendAck, Event.isConnect], rfl⟩
  have hlevel : LevelOk (calmEnv 2) (stepConn (calmEnv 2) plainConn sendAck).s (.send [72, 105]) := by
    change _ = _
    decide +kernel
  exact ⟨_, hack.step _ _ (calmEnv 2) (.send [72, 105]) (by decide +kernel) trivial
    ⟨hlevel, trivial, by simp [Event.isConnect], rfl⟩, by decide +kernel, by decide +kernel⟩

theorem greeting_sent : ∃ w c, SendRun w c ∧ w.wrote = [72, 105] ∧
    0 ≤ sd c.s.sndMax c.s.sndNxt ∧ ∃ k ∈ c.calls.drop w.mark, k.len = 2 ∧
      ∃ i, segData k.s k.seq k.len = ([72, 105].drop i).take k.len := by
  obtain ⟨w, hrun, hwrote, hmark⟩ := greet_run
  obtain ⟨horder, hcalls⟩ := stream_sent _ _ hrun
  have hlast : ∃ k ∈ greetConn.calls.drop 0, k.len = 2 := by decide +kernel
  obtain ⟨k, hk, hlen⟩ := hlast
  rw [hmark, hwrote] at hcalls
  obtain ⟨-, -, i, -, -, hdata⟩ := (hcalls k hk).2 (by omega)
  exact ⟨w, greetConn, hrun, hwrote, horder.2, k, by rw [hmark]; exact hk, hlen, i, hdata⟩

theorem flight_bounds (h : SendRun w c) : Ordered c.s.tcb ∧ Opening c.s.tcb :=
  ⟨h.inv.ordered, h.inv.opening⟩

/-- The greeting is sent, and sent again by a timeout. -/
theorem flight_bounds_again : ∃ w c, SendRun w c ∧ w.wrote = [72, 105] ∧
    (c.calls.filter (0 < ·.len)).length = 2 ∧ Ordered c.s.tcb ∧ Opening c.s.tcb := by
  obtain ⟨w, hrun, hwrote, -⟩ := greet_run
  have hlevel : LevelOk (calmEnv 5000) greetConn.s .tick := by
    change _ → _
    decide +kernel
  have htick := hrun.step _ _ (calmEnv 5000) .tick (by decide +kernel) trivial
    ⟨hlevel, trivial, by simp [Event.isConnect], rfl⟩
  exact ⟨_, _, htick, hwrote, by decide +kernel, flight_bounds htick⟩

end SamaraOS.Net
