import SamaraOS.Net.Phases

/-!
# The send window

The three sequence numbers of the sender, the scoreboard and the send ring are
placed on one line that starts a step below the first byte of the ring, so that
an unacknowledged SYN has a place on it and a FIN comes right after the last
byte.  The invariant orders them on that line and ties the ring to what the
application wrote.
-/

namespace SamaraOS.Net

open List Serial Tcb

open SamaraOS.Ring (Holds)

/-- The place of a sequence number; the first byte of the ring is at 1. -/
def Tcb.pos (t : Tcb) (x : U32) : Nat := Serial.off (t.txSeq - 1) x

variable {t t' : Tcb} {a b : U32} {r : U32 × U32} {v v' : View}

theorem Tcb.pos_add {x : U32} {n : Nat} (h : t.pos x + n < 2 ^ 32) :
    t.pos (x + BitVec.ofNat 32 n) = t.pos x + n :=
  off_add h

@[simp] theorem Tcb.pos_txSeq (t : Tcb) : t.pos t.txSeq = 1 := by
  have hself : Serial.off t.txSeq t.txSeq + 1 < 2 ^ 32 := by simp
  have hsub := off_base_sub hself
  rw [off_self] at hsub
  exact hsub

theorem Tcb.pos_ringEnd (h : t.txLen < 2 ^ 30) : t.pos t.ringEnd = t.txLen + 1 := by
  unfold Tcb.ringEnd
  rw [pos_add (by rw [pos_txSeq]; omega), pos_txSeq]
  omega

theorem Tcb.sd_pos (t : Tcb) (ha : t.pos a < 2 ^ 31) (hb : t.pos b < 2 ^ 31) :
    sd a b = (t.pos a : Int) - t.pos b :=
  diff_eq ha hb

theorem Tcb.sub_pos (t : Tcb) (h : t.pos b ≤ t.pos a) : (a - b).toNat = t.pos a - t.pos b :=
  sub_toNat h

theorem Tcb.between (t : Tcb) {u m : U32} (hu : t.pos u ≤ t.pos m) (hm : t.pos m < 2 ^ 31)
    (hlo : 0 ≤ sd a u) (hhi : sd a m ≤ 0) : t.pos u ≤ t.pos a ∧ t.pos a ≤ t.pos m :=
  between_of_diff hu hm hlo hhi

theorem Tcb.pos_inj (h : t.pos a = t.pos b) : a = b :=
  off_inj h

theorem Tcb.pos_drop {d : Nat} (hseq : t'.txSeq = t.txSeq + BitVec.ofNat 32 d)
    {x : U32} (h : d ≤ t.pos x) : t'.pos x = t.pos x - d := by
  have hbase : t'.txSeq - 1 = t.txSeq - 1 + BitVec.ofNat 32 d := by
    grind
  unfold Tcb.pos
  rw [hbase]
  exact off_base_add h

/-! ## The invariant -/

structure Writer where
  wrote : List U8
  first : U32
  mark : Nat

def Writer.gone (w : Writer) (t : Tcb) : Nat := w.wrote.length - t.txLen

structure Written (w : Writer) (t : Tcb) : Prop where
  cap : bufMin ≤ t.txCap ∧ t.txCap ≤ bufMax
  len : t.txLen ≤ t.txCap
  total : t.txLen ≤ w.wrote.length
  seq : t.txSeq = w.first + BitVec.ofNat 32 (w.gone t)
  ring : ∃ anchor, t.txHead = (anchor + w.gone t) % t.txCap ∧
    Holds t.tx t.txCap anchor w.wrote (w.gone t) w.wrote.length

def Tcb.Sacked (t : Tcb) (r : U32 × U32) : Prop :=
  t.pos t.sndUna ≤ t.pos r.1 ∧ t.pos r.1 < t.pos r.2 ∧ t.pos r.2 ≤ t.pos t.sndMax

/-- The last place is that of the FIN, which only a shut down socket sends. -/
structure Ordered (t : Tcb) : Prop where
  una : t.pos t.sndUna ≤ 2
  done : t.pos t.sndUna = 2 → t.txLen = 0
  nxt : t.pos t.sndUna ≤ t.pos t.sndNxt
  most : t.pos t.sndNxt ≤ t.pos t.sndMax
  top : t.pos t.sndMax ≤ t.txLen + 2
  shut : t.shutWr = false → t.pos t.sndMax ≤ t.txLen + 1
  fin : t.finSent = true → t.pos t.sndNxt = t.txLen + 2
  sack : ∀ r ∈ t.sb, t.Sacked r

/-- Nothing is being sent again, or every byte in the ring was sent before. -/
def Tcb.Level (t : Tcb) : Prop :=
  t.pos t.sndNxt = t.pos t.sndMax ∨ t.txLen + 1 ≤ t.pos t.sndMax

structure Opening (t : Tcb) : Prop where
  half : t.state = .synSent ∨ t.state = .synRcvd →
    t.txLen = 0 ∧ t.pos t.sndUna = 0 ∧ t.pos t.sndNxt = 1 ∧ t.pos t.sndMax = 1
  begun : t.pos t.sndUna = 0 → t.state = .closed ∨ t.state = .synSent ∨ t.state = .synRcvd
  fresh : t.state = .synSent → t.sb = []

def Sent.data (x : Sent) : List U8 :=
  Ring.read x.t.tx x.t.txCap
    ((x.t.txHead + (x.seq - x.t.txSeq).toNat) % 2 ^ 32 % x.t.txCap) x.len

structure Sent.Carries (w : Writer) (x : Sent) : Prop where
  lo : 0 ≤ sd x.seq x.t.txSeq
  hi : sd (x.seq + BitVec.ofNat 32 x.len) x.t.ringEnd ≤ 0
  data : ∃ i, x.seq = w.first + BitVec.ofNat 32 i ∧ x.data = (w.wrote.drop i).take x.len ∧
    i + x.len ≤ w.wrote.length

def Tcb.InOrder (t : Tcb) : Prop := 0 ≤ sd t.sndNxt t.sndUna ∧ 0 ≤ sd t.sndMax t.sndNxt

structure Sent.Sound (w : Writer) (x : Sent) : Prop where
  order : x.t.InOrder
  carries : 0 < x.len → x.Carries w

structure Sends (w : Writer) (v : View) : Prop where
  written : Written w v.t
  ordered : Ordered v.t
  mark : w.mark ≤ v.sent.length
  log : ∀ x ∈ v.sent.drop w.mark, x.Sound w

variable {w : Writer}

theorem Written.len_lt (h : Written w t) : t.txLen < 2 ^ 30 := by
  have hcap := h.cap.2
  have hlen := h.len
  have hmax : bufMax < 2 ^ 30 := by decide
  omega

theorem Written.cap_pos (h : Written w t) : 0 < t.txCap := by
  have hmin : 0 < bufMin := by decide
  exact hmin.trans_le h.cap.1

theorem Written.gone_add (h : Written w t) : w.gone t + t.txLen = w.wrote.length :=
  Nat.sub_add_cancel h.total

def Tcb.ring (t : Tcb) : U32 × (Nat → U8) × Nat × Nat × Nat :=
  (t.txSeq, t.tx, t.txCap, t.txHead, t.txLen)

theorem Written.congr (h : Written w t) (hring : t'.ring = t.ring) : Written w t' := by
  simp only [Tcb.ring, Prod.mk.injEq] at hring
  obtain ⟨hseq, htx, hcap, hhead, hlen⟩ := hring
  have hgone : w.gone t' = w.gone t := by simp only [Writer.gone, hlen]
  constructor
  · rw [hcap]
    exact h.cap
  · rw [hcap, hlen]
    exact h.len
  · rw [hlen]
    exact h.total
  · rw [hseq, hgone]
    exact h.seq
  rw [htx, hcap, hhead, hgone]
  exact h.ring

def Tcb.window (t : Tcb) : U32 × U32 × U32 × U32 × Nat × List (U32 × U32) × Bool × Bool :=
  (t.txSeq, t.sndUna, t.sndNxt, t.sndMax, t.txLen, t.sb, t.shutWr, t.finSent)

theorem Ordered.congr (h : Ordered t) (hwindow : t'.window = t.window) : Ordered t' := by
  simp only [Tcb.window, Prod.mk.injEq] at hwindow
  obtain ⟨hseq, huna, hnxt, hmax, hlen, hsb, hshut, hfin⟩ := hwindow
  have hpos : t'.pos = t.pos := by
    funext x
    simp only [Tcb.pos, hseq]
  constructor <;> simp only [Tcb.Sacked, hpos, huna, hnxt, hmax, hlen, hsb, hshut, hfin]
  · exact h.una
  · exact h.done
  · exact h.nxt
  · exact h.most
  · exact h.top
  · exact h.shut
  · exact h.fin
  · exact h.sack

theorem Tcb.Level.congr (h : t.Level) (hwindow : t'.window = t.window) : t'.Level := by
  simp only [Tcb.window, Prod.mk.injEq] at hwindow
  obtain ⟨hseq, -, hnxt, hmax, hlen, -⟩ := hwindow
  simp only [Tcb.Level, Tcb.pos, hseq, hnxt, hmax, hlen]
  exact h

theorem Sends.congr {sent : List Sent} (h : Sends w ⟨t, sent⟩)
    (hring : t'.ring = t.ring) (hwindow : t'.window = t.window) : Sends w ⟨t', sent⟩ :=
  ⟨h.written.congr hring, h.ordered.congr hwindow, h.mark, h.log⟩

theorem Ordered.inOrder (h : Ordered t) (hlen : t.txLen < 2 ^ 30) : t.InOrder := by
  have hnxt := h.nxt
  have hmax := h.most
  have htop := h.top
  unfold Tcb.InOrder
  rw [t.sd_pos (by omega) (by omega), t.sd_pos (by omega) (by omega)]
  omega

theorem Written.carries {x : Sent} (h : Written w x.t) (hlo : 1 ≤ x.t.pos x.seq)
    (hhi : x.t.pos x.seq + x.len ≤ x.t.txLen + 1) : x.Carries w := by
  have hlt := h.len_lt
  have hcap : x.t.txCap < 2 ^ 30 := h.cap.2.trans_lt (by decide)
  have hlen := h.len
  have hgone := h.gone_add
  have hoff : (x.seq - x.t.txSeq).toNat = x.t.pos x.seq - 1 := by
    rw [x.t.sub_pos (by simpa using hlo), pos_txSeq]
  obtain ⟨anchor, hhead, hold⟩ := h.ring
  refine ⟨?_, ?_, w.gone x.t + (x.t.pos x.seq - 1), ?_, ?_, by omega⟩
  · rw [x.t.sd_pos (by omega) (by simp), pos_txSeq]
    omega
  · have hend := pos_ringEnd hlt
    have hlast : x.t.pos (x.seq + BitVec.ofNat 32 x.len) = x.t.pos x.seq + x.len :=
      pos_add (by omega)
    rw [x.t.sd_pos (by omega) (by omega)]
    omega
  · rw [← add_ofNat_add, ← h.seq, ← hoff]
    exact eq_add_off _ _
  have hheadlt : x.t.txHead < x.t.txCap := by
    rw [hhead]
    exact Nat.mod_lt _ h.cap_pos
  have hpos : (x.t.txHead + (x.seq - x.t.txSeq).toNat) % 2 ^ 32 % x.t.txCap =
      (anchor + (w.gone x.t + (x.t.pos x.seq - 1))) % x.t.txCap := by
    rw [hoff, Nat.mod_eq_of_lt (show x.t.txHead + (x.t.pos x.seq - 1) < 2 ^ 32 by omega),
      hhead, Nat.mod_add_mod, Nat.add_assoc]
  unfold Sent.data
  rw [hpos]
  exact (hold.mono (by omega) le_rfl).read_eq h.cap_pos (by omega) (by omega)

theorem Opening.congr (h : Opening t) (hwindow : t'.window = t.window)
    (hst : t'.state = t.state) : Opening t' := by
  simp only [Tcb.window, Prod.mk.injEq] at hwindow
  obtain ⟨hseq, huna, hnxt, hmax, hlen, hsb, -, -⟩ := hwindow
  have hpos : t'.pos = t.pos := by
    funext x
    simp only [Tcb.pos, hseq]
  constructor <;> simp only [hpos, hlen, huna, hnxt, hmax, hsb, hst]
  · exact h.half
  · exact h.begun
  · exact h.fresh

theorem Opening.of_open (hone : 1 ≤ t.pos t.sndUna) (hsent : t.state ≠ .synSent)
    (hrcvd : t.state ≠ .synRcvd) : Opening t :=
  ⟨fun h => (h.elim hsent hrcvd).elim, fun h => absurd h (by omega), fun h => absurd h hsent⟩

theorem Opening.one_le (h : Opening t) (hstate : linked t.state = true)
    (hrcvd : t.state ≠ .synRcvd) : 1 ≤ t.pos t.sndUna := by
  by_contra hzero
  rcases h.begun (by omega) with hst | hst | hst
  · simp [hst, linked] at hstate
  · simp [hst, linked] at hstate
  · exact hrcvd hst

/-! ## Sending keeps it -/

theorem Sends.say {sent : List Sent} {x : Sent} (h : Sends w ⟨t, sent⟩) (hx : x.Sound w)
    (hwritten : Written w t') (hordered : Ordered t') : Sends w ⟨t', sent ++ [x]⟩ := by
  have hmark : w.mark ≤ sent.length := h.mark
  refine ⟨hwritten, hordered, ?_, fun y hy => ?_⟩
  · rw [length_append]
    exact Nat.le_add_right_of_le hmark
  rw [drop_append_of_le_length hmark, mem_append, mem_singleton] at hy
  rcases hy with hy | rfl
  · exact h.log y hy
  · exact hx

theorem Sends.call {sent : List Sent} (h : Sends w ⟨t, sent⟩)
    (seq : U32) (fl : Flags) : Sends w ⟨t, sent ++ [⟨t, seq, fl, 0⟩]⟩ :=
  h.say ⟨h.ordered.inOrder h.written.len_lt, fun hlen => absurd hlen (Nat.lt_irrefl 0)⟩
    h.written h.ordered

section

variable (h : Ordered t)

include h

theorem Ordered.sack_le (hr : r ∈ t.sb) :
    t.pos t.sndUna ≤ t.pos r.1 ∧ t.pos r.1 < t.pos r.2 ∧ t.pos r.2 ≤ t.txLen + 2 :=
  ⟨(h.sack r hr).1, (h.sack r hr).2.1, (h.sack r hr).2.2.trans h.top⟩

theorem Ordered.retx (hlen : t.txLen < 2 ^ 30) {seq last : U32} (hring : 0 < sd t.ringEnd seq)
    (hrange : t.RetxRange seq last) :
    t.pos t.sndUna ≤ t.pos seq ∧ t.pos seq + t.retxLen seq last ≤ t.txLen + 1 := by
  have hend := pos_ringEnd hlen
  have hnxt := h.nxt
  have hmax := h.most
  have htop := h.top
  have hbounds : t.pos t.sndUna ≤ t.pos seq ∧ t.pos seq ≤ t.pos last ∧
      t.pos last ≤ t.txLen + 2 := by
    rcases hrange with ⟨rfl, rfl⟩ | ⟨⟨r, hr, rfl⟩, hlt, hlo⟩
    · omega
    have hsack := h.sack_le hr
    rcases hlo with hlo | ⟨q, hq, rfl⟩
    · have hbetween := t.between hsack.1 (by omega) hlo hlt.le
      exact ⟨hbetween.1, hbetween.2, by omega⟩
    have hq := h.sack_le hq
    rw [t.sd_pos (by omega) (by omega)] at hlt
    omega
  rw [t.sd_pos (by omega) (by omega)] at hring
  refine ⟨hbounds.1, ?_⟩
  unfold Tcb.retxLen
  split
  · rw [t.sub_pos (by omega)]
    omega
  next hle =>
  rw [t.sd_pos (by omega) (by omega)] at hle
  rw [t.sub_pos hbounds.2.1]
  omega

theorem Ordered.sentLen (hone : 1 ≤ t.pos t.sndUna) :
    t.sentLen + 1 = if t.finSent then t.txLen + 1 else t.pos t.sndNxt := by
  have hnxt := h.nxt
  have hsent : (t.sndNxt - t.txSeq).toNat = t.pos t.sndNxt - 1 := by
    rw [t.sub_pos (by rw [pos_txSeq]; omega), pos_txSeq]
  unfold Tcb.sentLen
  cases hfin : t.finSent with
  | true =>
    have hplace := h.fin hfin
    simp only [Bool.true_and, bne_iff_ne, if_true]
    rw [if_pos (by omega)]
    omega
  | false =>
    simp only [Bool.false_and, Bool.false_eq_true, if_false]
    omega

theorem Ordered.advance (hlen : t.txLen < 2 ^ 30) {n : Nat} (hfin : t.finSent = false)
    (hn : t.pos t.sndNxt + n ≤ t.txLen + 1) (hlevel : t.Level) :
    Ordered (t.advance n) ∧ (t.advance n).Level := by
  have hnxt := h.nxt
  have hmost := h.most
  have htop := h.top
  have hnew : t.pos (t.sndNxt + BitVec.ofNat 32 n) = t.pos t.sndNxt + n :=
    pos_add (by omega)
  unfold Tcb.Level at hlevel
  have hle : t.pos t.sndMax ≤ t.pos (t.advance n).sndMax ∧
      t.pos t.sndNxt + n ≤ t.pos (t.advance n).sndMax ∧
      (t.pos (t.advance n).sndMax = t.pos t.sndNxt + n ∨
        t.pos (t.advance n).sndMax = t.pos t.sndMax ∧ t.txLen + 1 ≤ t.pos t.sndMax) := by
    unfold Tcb.advance
    dsimp only
    rw [t.sd_pos (by omega) (by omega)]
    split
    · rw [hnew]
      omega
    · omega
  refine ⟨?_, ?_⟩
  swap
  · change t.pos (t.sndNxt + BitVec.ofNat 32 n) = t.pos (t.advance n).sndMax ∨
      t.txLen + 1 ≤ t.pos (t.advance n).sndMax
    omega
  constructor
  · exact h.una
  · exact h.done
  · change t.pos t.sndUna ≤ t.pos (t.sndNxt + BitVec.ofNat 32 n)
    omega
  · change t.pos (t.sndNxt + BitVec.ofNat 32 n) ≤ t.pos (t.advance n).sndMax
    omega
  · change t.pos (t.advance n).sndMax ≤ t.txLen + 2
    omega
  · intro hshut
    have := h.shut hshut
    change t.pos (t.advance n).sndMax ≤ t.txLen + 1
    omega
  · exact fun hsent => absurd hsent (by simp [show (t.advance n).finSent = t.finSent from rfl, hfin])
  intro r hr
  have hsack := h.sack r hr
  exact ⟨hsack.1, hsack.2.1, hsack.2.2.trans hle.1⟩

theorem Ordered.skip (hlen : t.txLen < 2 ^ 30) (hr : r ∈ t.sb) (hhi : sd t.sndNxt r.2 < 0)
    (hlevel : t.Level) :
    Ordered { t with sndNxt := r.2 } ∧ Tcb.Level { t with sndNxt := r.2 } := by
  have hsack := h.sack r hr
  have hmax := h.most
  have htop := h.top
  unfold Tcb.Sacked at hsack
  rw [t.sd_pos (by omega) (by omega)] at hhi
  have hsent : t.txLen + 1 ≤ t.pos t.sndMax := by
    unfold Tcb.Level at hlevel
    omega
  refine ⟨⟨h.una, h.done, ?_, hsack.2.2, htop, h.shut, fun hfin => ?_, h.sack⟩, .inr hsent⟩
  · change t.pos t.sndUna ≤ t.pos r.2
    omega
  have := h.fin hfin
  omega

end

theorem Sends.out (h : Sends w v) (hout : Out v v')
    (hone : 1 ≤ v.t.pos v.t.sndUna) (hlevel : v.t.Level) : Sends w v' ∧ v'.t.Level := by
  have hlen := h.written.len_lt
  have horder := h.ordered.inOrder hlen
  have hnxt := h.ordered.nxt
  cases hout with
  | retx t sent seq last hstate hring hrange =>
    have hretx := h.ordered.retx hlen hring hrange
    refine ⟨h.say ⟨horder, fun _ => ?_⟩ h.written h.ordered, hlevel⟩
    exact h.written.carries (x := ⟨t, seq, _, _⟩) (hone.trans hretx.1) hretx.2
  | send t sent n psh hstate hpos hmss havail =>
    have hsent := h.ordered.sentLen hone
    dsimp only at hlen hnxt hone hsent
    have hfin : t.finSent = false := by
      cases hfin : t.finSent with
      | false => rfl
      | true =>
        rw [hfin, if_pos rfl] at hsent
        omega
    rw [hfin, if_neg Bool.false_ne_true] at hsent
    have hfits : t.pos t.sndNxt + n ≤ t.txLen + 1 := by omega
    have hadvance := h.ordered.advance hlen hfin hfits hlevel
    refine ⟨h.say ⟨horder, fun _ => ?_⟩ (h.written.congr rfl) hadvance.1, hadvance.2⟩
    exact h.written.carries (x := ⟨t, t.sndNxt, _, n⟩) (hone.trans hnxt) hfits
  | skip t sent r hr hlo hhi hstate =>
    have hskip := h.ordered.skip hlen hr hhi hlevel
    exact ⟨⟨h.written.congr rfl, hskip.1, h.mark, h.log⟩, hskip.2⟩

theorem Sends.outs (h : Sends w v) (houts : Outs v v')
    (hone : 1 ≤ v.t.pos v.t.sndUna) (hlevel : v.t.Level) : Sends w v' ∧ v'.t.Level := by
  induction houts with
  | refl => exact ⟨h, hlevel⟩
  | tail hinit hlast ih =>
    refine ih.1.out hlast ?_ ih.2
    rw [Outs.frame hinit]
    exact hone

theorem Ordered.sendFin (h : Ordered t) (hlen : t.txLen < 2 ^ 30)
    (hone : 1 ≤ t.pos t.sndUna) (hdue : t.FinDue) : Ordered t.sendFin ∧ t.sendFin.Level := by
  obtain ⟨-, hshut, hfin, hsent⟩ := hdue
  have hnxt := h.nxt
  have htop := h.top
  have hplace := h.sentLen hone
  rw [hfin, if_neg Bool.false_ne_true, hsent] at hplace
  have hnew : t.pos (t.sndNxt + 1) = t.pos t.sndNxt + 1 :=
    pos_add (show t.pos t.sndNxt + 1 < 2 ^ 32 by omega)
  have hle : t.pos t.sndMax ≤ t.pos t.sendFin.sndMax ∧ t.pos t.sendFin.sndMax = t.txLen + 2 := by
    unfold Tcb.sendFin
    dsimp only
    rw [t.sd_pos (by omega) (by omega)]
    split <;> omega
  refine ⟨?_, .inr (le_trans (Nat.le_succ _) hle.2.ge)⟩
  constructor
  · exact h.una
  · exact h.done
  · change t.pos t.sndUna ≤ t.pos (t.sndNxt + 1)
    omega
  · change t.pos (t.sndNxt + 1) ≤ t.pos t.sendFin.sndMax
    omega
  · exact hle.2.le
  · exact fun hopen => absurd (hshut.symm.trans hopen) (by decide)
  · intro _
    change t.pos (t.sndNxt + 1) = t.txLen + 2
    omega
  intro r hr
  have hsack := h.sack r hr
  exact ⟨hsack.1, hsack.2.1, hsack.2.2.trans hle.1⟩

/-! ## Acknowledgements keep it -/

def Tcb.BlockOk (t : Tcb) (r : U32 × U32) : Prop :=
  0 ≤ sd r.1 t.sndUna → 0 < sd r.2 r.1 → sd r.2 t.sndMax ≤ 0 → sd r.1 t.sndMax ≤ 0

theorem sbInsert_sacked (hmax : t.pos t.sndMax < 2 ^ 31) {l : List (U32 × U32)}
    (hl : ∀ r ∈ l, t.Sacked r) (hab : t.Sacked (a, b)) (done : Bool) :
    ∀ r ∈ sbInsert l a b done, t.Sacked r := by
  induction l generalizing a b done with
  | nil =>
    intro r hr
    cases done with
    | true => simp [sbInsert] at hr
    | false =>
      rw [sbInsert, if_neg Bool.false_ne_true, mem_singleton] at hr
      exact hr ▸ hab
  | cons p rest ih =>
    obtain ⟨x, y⟩ := p
    have hxy : t.Sacked (x, y) := hl (x, y) (by simp)
    have hrest : ∀ r ∈ rest, t.Sacked r := fun r hr => hl r (by simp [hr])
    unfold sbInsert
    split
    · rw [forall_mem_cons]
      exact ⟨hxy, ih hrest hab done⟩
    split
    · split
      · rw [forall_mem_cons]
        exact ⟨hxy, ih hrest hab true⟩
      rw [forall_mem_cons, forall_mem_cons]
      exact ⟨hab, hxy, ih hrest hab true⟩
    refine ih hrest ?_ done
    unfold Tcb.Sacked at hab hxy ⊢
    dsimp only at hab hxy ⊢
    rw [t.sd_pos (by omega) (by omega), t.sd_pos (by omega) (by omega)]
    split <;> split <;> omega

theorem Ordered.sbAdd (h : Ordered t) (hlen : t.txLen < 2 ^ 30) (hok : t.BlockOk r) : Ordered
    (t.sbAdd r) := by
  have hmax : t.pos t.sndMax < 2 ^ 31 := by
    have := h.top
    omega
  refine ⟨h.una, h.done, h.nxt, h.most, h.top, h.shut, h.fin, ?_⟩
  intro q hq
  unfold Tcb.sbAdd at hq
  split at hq
  · exact h.sack q hq
  next hin =>
  rw [not_or, not_or, not_lt, not_le, not_lt] at hin
  obtain ⟨hlo, hpos, hhi⟩ := hin
  have hleft := t.between (h.nxt.trans h.most) hmax hlo (hok hlo hpos hhi)
  have hright := t.between hleft.2 hmax hpos.le hhi
  have hne : t.pos r.1 ≠ t.pos r.2 := fun heq => by
    rw [pos_inj heq, sd, diff_self] at hpos
    exact lt_irrefl _ hpos
  have hnew : t.Sacked (r.1, r.2) := ⟨hleft.1, lt_of_le_of_ne hright.1 hne, hright.2⟩
  exact sbInsert_sacked hmax h.sack hnew false q (mem_of_mem_take hq)

theorem Ordered.blocks (h : Ordered t) (hlen : t.txLen < 2 ^ 30) {blocks : List (U32 × U32)}
    (hok : ∀ r ∈ blocks, t.BlockOk r) : Ordered (blocks.foldl Tcb.sbAdd t) := by
  induction blocks generalizing t with
  | nil => exact h
  | cons r rest ih =>
    rw [forall_mem_cons] at hok
    exact ih (h.sbAdd hlen hok.1) hlen hok.2

def Tcb.freed (t : Tcb) (ack : U32) : Nat :=
  min (if 0 < sd ack t.txSeq then (ack - t.txSeq).toNat else 0) t.txLen

theorem Tcb.freed_eq {ack : U32} (hone : 1 ≤ t.pos ack) (hlt : t.pos ack < 2 ^ 31) :
    t.freed ack = min (t.pos ack - 1) t.txLen := by
  unfold Tcb.freed
  rw [t.sd_pos hlt (by simp), pos_txSeq, t.sub_pos (by simpa using hone), pos_txSeq]
  split <;> omega

section Acked

variable {t : Tcb} {ack : U32}

private theorem acked_pos (x : U32) (hx : t.freed ack ≤ t.pos x) :
    (t.acked ack).pos x = t.pos x - t.freed ack :=
  pos_drop rfl hx

private theorem acked_sndNxt (hnxt : t.pos t.sndNxt < 2 ^ 31) (hlt : t.pos ack < 2 ^ 31)
    (hfreed : t.freed ack ≤ t.pos ack) : (t.acked ack).pos (t.acked ack).sndNxt =
      max (t.pos t.sndNxt) (t.pos ack) - t.freed ack := by
  change (t.acked ack).pos (if sd t.sndNxt ack < 0 then ack else t.sndNxt) = _
  rw [t.sd_pos hnxt hlt]
  split
  · rw [acked_pos ack hfreed]
    omega
  rw [acked_pos t.sndNxt (by omega)]
  omega

private theorem acked_sacked {q : U32 × U32} (hsack : t.Sacked q) (hlast : 0 < sd q.2 ack)
    (hmax : t.pos t.sndMax < 2 ^ 31) (hlt : t.pos ack < 2 ^ 31) (hfreed : t.freed ack ≤ t.pos ack) :
    (t.acked ack).Sacked (if sd q.1 ack < 0 then ack else q.1, q.2) := by
  obtain ⟨hlo, hpos, hhi⟩ := hsack
  rw [t.sd_pos (by omega) hlt] at hlast
  have hack : (t.acked ack).pos (t.acked ack).sndUna = _ := acked_pos ack hfreed
  have hmax' : (t.acked ack).pos (t.acked ack).sndMax = _ := acked_pos t.sndMax (by omega)
  unfold Tcb.Sacked
  rw [hack, hmax', acked_pos q.2 (by omega), t.sd_pos (by omega) hlt]
  split
  · rw [acked_pos ack hfreed]
    omega
  rw [acked_pos q.1 (by omega)]
  omega

theorem Ordered.acked (h : Ordered t) (hlen : t.txLen < 2 ^ 30) (hlo : 0 < sd ack t.sndUna)
    (hhi : sd ack t.sndMax ≤ 0) : Ordered (t.acked ack) ∧ 1 ≤ (t.acked ack).pos ack ∧
      (t.Level → (t.acked ack).Level) := by
  have hnxt := h.nxt
  have hmost := h.most
  have htop := h.top
  have hbetween := t.between (hnxt.trans hmost) (by omega) hlo.le hhi
  rw [t.sd_pos (by omega) (by omega)] at hlo
  have hfreed : t.freed ack = min (t.pos ack - 1) t.txLen :=
    freed_eq (by omega) (by omega)
  have hack : (t.acked ack).pos (t.acked ack).sndUna = _ := acked_pos ack (by omega)
  have hmax : (t.acked ack).pos (t.acked ack).sndMax = _ := acked_pos t.sndMax (by omega)
  have hnxt' : (t.acked ack).pos (t.acked ack).sndNxt = _ :=
    acked_sndNxt (by omega) (by omega) (by omega)
  have hlen' : (t.acked ack).txLen = t.txLen - t.freed ack := rfl
  refine ⟨⟨by omega, by omega, by omega, by omega, by omega, ?_, ?_, ?_⟩, ?_, fun hlevel => ?_⟩
  · intro hshut
    have hshut' := h.shut hshut
    omega
  · intro hfin
    have hfin' := h.fin hfin
    omega
  · intro r hr
    simp only [Tcb.acked, mem_map, mem_filter, decide_eq_true_eq] at hr
    obtain ⟨q, ⟨hq, hlast⟩, rfl⟩ := hr
    exact acked_sacked (h.sack q hq) hlast (by omega) (by omega) (by omega)
  · change 1 ≤ (t.acked ack).pos (t.acked ack).sndUna
    omega
  unfold Tcb.Level at hlevel ⊢
  omega

end Acked

variable {w : Writer} {t : Tcb}

theorem Written.acked (h : Written w t) (ack : U32) : Written w (t.acked ack) := by
  have hfreed : t.freed ack ≤ t.txLen := Nat.min_le_right _ _
  have hgone : w.gone (t.acked ack) = w.gone t + t.freed ack := by
    have htotal := h.total
    change w.wrote.length - (t.txLen - t.freed ack) = w.wrote.length - t.txLen + t.freed ack
    omega
  obtain ⟨anchor, hhead, hold⟩ := h.ring
  refine ⟨h.cap, (Nat.sub_le _ _).trans h.len, (Nat.sub_le _ _).trans h.total, ?_, anchor, ?_, ?_⟩
  · rw [hgone, ← add_ofNat_add, ← h.seq]
    rfl
  · rw [hgone]
    change (t.txHead + t.freed ack) % t.txCap = _ % t.txCap
    rw [hhead, Nat.mod_add_mod, Nat.add_assoc]
  · exact hold.mono (by omega) le_rfl

theorem Written.resize {s : Sock} (h : Written w s.tcb) (ok : Bool) {tc : Nat}
    (htc : bufMin ≤ tc ∧ tc ≤ bufMax) : Written w (setbufTx ok s tc).tcb := by
  unfold setbufTx
  split
  · next hfit =>
      obtain ⟨anchor, hhead, hold⟩ := h.ring
      have hpos : 0 < tc := lt_of_lt_of_le (by decide) htc.1
      rw [← h.gone_add] at hold
      obtain ⟨anchor', hzero, hold'⟩ := hold.unroll hfit.2.1 hpos
      rw [← hhead, h.gone_add] at hold'
      exact ⟨htc, hfit.2.1, h.total, h.seq, anchor', hzero.symm, hold'⟩
  · exact h

def Writer.put (w : Writer) (data : List U8) : Writer := { w with wrote := w.wrote ++ data }

theorem Written.append (h : Written w t) (buf : List U8) :
    Written (w.put (buf.take (min buf.length (sub32 t.txCap t.txLen)))) (t.append buf) := by
  have hcap : t.txCap < 2 ^ 30 := h.cap.2.trans_lt (by decide)
  have hlen := h.len
  have hroom : sub32 t.txCap t.txLen = t.txCap - t.txLen := by
    unfold sub32
    omega
  have hgone := h.gone_add
  obtain ⟨anchor, hhead, hold⟩ := h.ring
  unfold Tcb.append
  rw [hroom]
  dsimp only
  generalize hn : min buf.length (t.txCap - t.txLen) = n
  have hdata : (buf.take n).length = n := by
    rw [length_take]
    omega
  generalize buf.take n = data at hdata
  have hlen' : (t.txLen + n) % 2 ^ 32 = t.txLen + n := Nat.mod_eq_of_lt (by omega)
  have htotal : (w.put data).wrote.length = w.wrote.length + n := by
    rw [Writer.put, length_append, hdata]
  have hgone' : ∀ t' : Tcb, t'.txLen = t.txLen + n → (w.put data).gone t' = w.gone t := by
    intro t' ht'
    rw [Writer.gone, htotal, ht']
    omega
  have hplace : (t.txHead + t.txLen) % t.txCap = (anchor + w.wrote.length) % t.txCap := by
    rw [hhead, Nat.mod_add_mod, Nat.add_assoc, hgone]
  have hdrop : data <+: (w.put data).wrote.drop w.wrote.length := by
    rw [Writer.put, drop_left]
  have hbound : w.wrote.length + data.length ≤ w.gone t + t.txCap := by omega
  refine ⟨h.cap, ?_, ?_, ?_, anchor, ?_, ?_⟩
  · change (t.txLen + n) % 2 ^ 32 ≤ t.txCap
    omega
  · change (t.txLen + n) % 2 ^ 32 ≤ (w.put data).wrote.length
    omega
  · rw [hgone' _ hlen']
    exact h.seq
  · rw [hgone' _ hlen']
    exact hhead
  rw [hgone' _ hlen', htotal]
  rw [hplace]
  have hold' : Holds t.tx t.txCap anchor (w.put data).wrote (w.gone t) w.wrote.length :=
    hold.extend (prefix_append _ _)
  have hkept := hold'.write h.cap_pos hdrop (by omega) hbound le_rfl (by omega)
  have hnew : Holds (Ring.write t.tx t.txCap ((anchor + w.wrote.length) % t.txCap) data)
      t.txCap anchor (w.put data).wrote w.wrote.length (w.wrote.length + data.length) :=
    Ring.holds_write h.cap_pos hdrop (by omega) hbound
  rw [hdata] at hnew
  exact hkept.append hnew le_rfl

theorem Sent.Sound.put {x : Sent} (h : x.Sound w) (data : List U8) : x.Sound (w.put data) := by
  refine ⟨h.order, fun hlen => ?_⟩
  obtain ⟨hlo, hhi, i, hseq, hdata, hle⟩ := h.carries hlen
  refine ⟨hlo, hhi, i, hseq, ?_, ?_⟩
  · rw [hdata, Writer.put, drop_append_of_le_length (by omega),
      take_append_of_le_length (by rw [length_drop]; omega)]
  rw [Writer.put, length_append]
  omega

theorem Ordered.append (h : Ordered t) (buf : List U8) (hshut : t.shutWr = false)
    (hlen : t.txLen ≤ (t.append buf).txLen) : Ordered (t.append buf) := by
  have hnxt := h.nxt
  have hmost := h.most
  have htop := h.shut hshut
  have hdone := h.done
  constructor
  · exact h.una
  · intro huna
    have huna' : t.pos t.sndUna = 2 := huna
    omega
  · exact hnxt
  · exact hmost
  · change t.pos t.sndMax ≤ (t.append buf).txLen + 2
    omega
  · intro _
    change t.pos t.sndMax ≤ (t.append buf).txLen + 1
    omega
  · intro hfin
    have := h.fin hfin
    omega
  · exact h.sack

end SamaraOS.Net
