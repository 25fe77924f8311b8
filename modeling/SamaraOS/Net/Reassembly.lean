import SamaraOS.Net.Phases

/-!
# Putting the peer's stream together

Data that arrives ahead of its turn is written straight into the receive ring
and noted in a short list of ranges.  Positions in the peer's stream are counted
without bound, and a sequence number is a position modulo `2 ^ 32`.  The
invariant says which positions the ring holds: those that wait for `sock_recv`,
and those in the ranges.
-/

namespace SamaraOS.Net

open List

open SamaraOS.Ring (Holds)

structure Peer where
  stream : List U8
  first : U32

namespace Peer

def seqAt (p : Peer) (i : Nat) : U32 := p.first + BitVec.ofNat 32 i

variable {p : Peer}

theorem sd_seqAt {i j : Nat} (hi : i < j + 2 ^ 31) (hj : j ≤ i + 2 ^ 31) :
    sd (p.seqAt i) (p.seqAt j) = (i : Int) - j :=
  Serial.diff_add_ofNat (by omega) (by omega)

theorem seqAt_add (i n : Nat) : p.seqAt i + BitVec.ofNat 32 n = p.seqAt (i + n) :=
  Serial.add_ofNat_add p.first i n

theorem seqAt_sub {i j : Nat} (hle : j ≤ i) (hlt : i < j + 2 ^ 32) :
    (p.seqAt i - p.seqAt j).toNat = i - j :=
  Serial.add_ofNat_sub_toNat hle hlt

theorem seqAt_inj {i j : Nat} (hi : i < j + 2 ^ 32) (hj : j < i + 2 ^ 32)
    (h : p.seqAt i = p.seqAt j) : i = j :=
  Serial.add_ofNat_inj hi hj h

end Peer

def Stored (p : Peer) (rx : Nat → U8) (cap anchor lo hi : Nat) (r : U32 × U32) : Prop :=
  ∃ i j, r = (p.seqAt i, p.seqAt j) ∧ lo ≤ i ∧ i < j ∧ j ≤ hi ∧
    Holds rx cap anchor p.stream i j

variable {p : Peer} {rx : Nat → U8} {anchor cap hi lo off : Nat}
  {nxt : U32} {others l : List (U32 × U32)}

theorem Stored.weaken {lo' hi' : Nat} {r : U32 × U32} (h : Stored p rx cap anchor lo hi r)
    (hlo : lo' ≤ lo) (hhi : hi ≤ hi') : Stored p rx cap anchor lo' hi' r := by
  obtain ⟨i, j, hr, hi, hij, hj, hold⟩ := h
  exact ⟨i, j, hr, hlo.trans hi, hij, hj.trans hhi, hold⟩

theorem oooReady_none (h : oooReady nxt l = none) :
    ∀ r ∈ l, 0 < sd r.1 nxt := by
  induction l with
  | nil => simp
  | cons x rest ih =>
    unfold oooReady at h
    split at h
    · next hx =>
        intro r hr
        rcases mem_cons.1 hr with rfl | hr
        · exact hx
        · exact ih (by simpa using h) r hr
    · cases h

theorem oooReady_some {r : U32 × U32}
    (h : oooReady nxt l = some (r, others)) :
    sd r.1 nxt ≤ 0 ∧ r ∈ l ∧ others ⊆ l ∧ others.length < l.length := by
  induction l generalizing others with
  | nil => cases h
  | cons x rest ih =>
    unfold oooReady at h
    split at h
    · obtain ⟨⟨r', rest'⟩, hrest, heq⟩ := Option.map_eq_some_iff.1 h
      cases heq
      obtain ⟨hle, hmem, hsub, hlen⟩ := ih hrest
      refine ⟨hle, by simp [hmem], ?_, by simpa using hlen⟩
      exact cons_subset_cons x hsub
    next hx =>
    cases h
    exact ⟨by omega, by simp, by simp, by simp⟩

theorem Stored.merge {x y a b : U32}
    (hxy : Stored p rx cap anchor lo hi (x, y)) (hab : Stored p rx cap anchor lo hi (a, b))
    (hspan : hi ≤ lo + 2 ^ 30) (hmeet : ¬ (sd y a < 0 ∨ 0 < sd x b)) : Stored p rx cap anchor lo hi
      (if sd x a < 0 then x else a, if 0 < sd y b then y else b) := by
  obtain ⟨i, j, hr, hi, hij, hj, hold⟩ := hxy
  obtain ⟨k, l, hr', hk, hkl, hl, hold'⟩ := hab
  cases hr
  cases hr'
  rw [Peer.sd_seqAt (by omega) (by omega), Peer.sd_seqAt (by omega) (by omega)] at hmeet
  rw [Peer.sd_seqAt (by omega) (by omega), Peer.sd_seqAt (by omega) (by omega)]
  refine ⟨min i k, max j l, ?_, by omega, by omega, by omega, ?_⟩
  · have hlow : (if (i : Int) - k < 0 then p.seqAt i else p.seqAt k) = p.seqAt (min i k) := by
      split
      · rw [Nat.min_eq_left (by omega)]
      · rw [Nat.min_eq_right (by omega)]
    have hhigh : (if 0 < (j : Int) - l then p.seqAt j else p.seqAt l) = p.seqAt (max j l) := by
      split
      · rw [Nat.max_eq_left (by omega)]
      · rw [Nat.max_eq_right (by omega)]
    rw [hlow, hhigh]
  intro q hq hq'
  by_cases hin : i ≤ q ∧ q < j
  · exact hold q hin.1 hin.2
  · exact hold' q (by omega) (by omega)

theorem oooMerge_stored (hspan : hi ≤ lo + 2 ^ 30) (l : List (U32 × U32)) {a b : U32}
    (hl : ∀ r ∈ l, Stored p rx cap anchor lo hi r) (hab : Stored p rx cap anchor lo hi (a, b)) :
    (∀ r ∈ (oooMerge l a b).1, Stored p rx cap anchor lo hi r) ∧
      Stored p rx cap anchor lo hi (oooMerge l a b).2 := by
  induction l generalizing a b with
  | nil => exact ⟨by simp [oooMerge], hab⟩
  | cons x rest ih =>
    have hx := hl x (by simp)
    have hrest : ∀ r ∈ rest, Stored p rx cap anchor lo hi r := fun r hr => hl r (by simp [hr])
    unfold oooMerge
    split
    · obtain ⟨hkept, hlast⟩ := ih hrest hab
      refine ⟨fun r hr => ?_, hlast⟩
      rcases mem_cons.1 hr with rfl | hr
      · exact hx
      · exact hkept r hr
    · next hmeet => exact ih hrest (hx.merge hab hspan hmeet)

/-- The ring of `r` when `done` bytes were returned: from the head on the next `rxCount` bytes,
further on those of the ranges that begin at `lo` or later. -/
structure Window (p : Peer) (done lo : Nat) (r : Rcv) (anchor : Nat) : Prop where
  cap : bufMin ≤ r.rxCap ∧ r.rxCap ≤ bufMax
  count : r.rxCount ≤ r.rxCap
  head : r.rxHead = (anchor + done) % r.rxCap
  ready : Holds r.rx r.rxCap anchor p.stream done (done + r.rxCount)
  ranges : ∀ x ∈ r.ooo, Stored p r.rx r.rxCap anchor lo (done + r.rxCap) x
  total : done + r.rxCount ≤ p.stream.length
  fin : r.finRcvd = true → done + r.rxCount = p.stream.length

def Received (p : Peer) (done : Nat) (r : Rcv) : Prop :=
  ∃ anchor, Window p done (done + r.rxCount + 1) r anchor

/-- The sequence number that comes next; a FIN that was taken counts as one. -/
def Synced (p : Peer) (done : Nat) (r : Rcv) : Prop :=
  r.rcvNxt = p.seqAt (done + r.rxCount + if r.finRcvd then 1 else 0)

theorem bufMax_lt : bufMax < 2 ^ 30 := by decide

theorem Window.cap_pos {done : Nat} {r : Rcv} (h : Window p done lo r anchor) : 0 < r.rxCap := by
  have := h.cap.1
  unfold bufMin at this
  omega

theorem Window.cap_lt {done : Nat} {r : Rcv} (h : Window p done lo r anchor) : r.rxCap < 2 ^ 30 :=
  h.cap.2.trans_lt bufMax_lt

/-! ## Data in turn -/

section Data

variable {p : Peer} {done anchor : Nat} {e : Env} {r : Rcv} {s : Sock} {i : Nat} {h : Hdr}

theorem absorb_step {r : U32 × U32}
    (h : Window p done done s.tcb.toRcv anchor) (hnxt : s.rcvNxt = p.seqAt (done + s.rxCount))
    (hready : oooReady s.rcvNxt s.ooo = some (r, others)) :
    ∃ n, (if 0 < sd r.2 s.rcvNxt then (r.2 - s.rcvNxt).toNat else 0) = n ∧
      done + s.rxCount + n ≤ done + s.rxCap ∧
      Holds s.rx s.rxCap anchor p.stream done (done + (s.rxCount + n)) ∧
      done + (s.rxCount + n) ≤ p.stream.length := by
  obtain ⟨hle, hmem, -, -⟩ := oooReady_some hready
  obtain ⟨i, j, rfl, hi, hij, hj, hold⟩ := h.ranges r hmem
  have hcount : s.rxCount ≤ s.rxCap := h.count
  have hcap : s.rxCap < 2 ^ 30 := h.cap_lt
  have htotal : done + s.rxCount ≤ p.stream.length := h.total
  have hj' : j ≤ done + s.rxCap := hj
  rw [hnxt] at hle ⊢
  rw [Peer.sd_seqAt (by omega) (by omega)] at hle ⊢
  refine ⟨_, rfl, ?_⟩
  split
  · next hpos =>
      rw [Peer.seqAt_sub (by omega) (by omega)]
      have hend : s.rxCount + (j - (done + s.rxCount)) + done = j := by omega
      refine ⟨by omega, ?_, ?_⟩
      · rw [Nat.add_comm done, hend]
        exact Holds.append h.ready hold (show i ≤ done + s.rxCount by omega)
      rw [Nat.add_comm done, hend]
      exact hold.length_le hij
  · exact ⟨by omega, h.ready, htotal⟩

theorem absorb_received (fuel : Nat) (s : Sock) (hfuel : s.ooo.length ≤ fuel)
    (h : Window p done done s.tcb.toRcv anchor)
    (hnxt : s.rcvNxt = p.seqAt (done + s.rxCount)) (hfin : s.finRcvd = false) :
    Received p done (absorb fuel s).tcb.toRcv ∧
      (absorb fuel s).rcvNxt = p.seqAt (done + (absorb fuel s).rxCount) ∧
      (absorb fuel s).finRcvd = false := by
  induction fuel generalizing s with
  | zero =>
    have hnil : s.ooo = [] := length_eq_zero_iff.1 (by omega)
    refine ⟨⟨anchor, h.cap, h.count, h.head, h.ready, ?_, h.total, h.fin⟩, hnxt, hfin⟩
    intro x hx
    rw [show (absorb 0 s).tcb.toRcv.ooo = [] from hnil] at hx
    cases hx
  | succ fuel ih =>
    unfold absorb
    cases hready : oooReady s.rcvNxt s.ooo with
    | none =>
      refine ⟨⟨anchor, h.cap, h.count, h.head, h.ready, ?_, h.total, h.fin⟩, hnxt, hfin⟩
      intro x hx
      have hlater := oooReady_none hready x hx
      obtain ⟨i, j, rfl, hi, hij, hj, hold⟩ := h.ranges x hx
      have hcap : s.rxCap < 2 ^ 30 := h.cap_lt
      have hcount : s.rxCount ≤ s.rxCap := h.count
      have hj' : j ≤ done + s.rxCap := hj
      rw [hnxt, Peer.sd_seqAt (by omega) (by omega)] at hlater
      exact ⟨i, j, rfl, by change done + s.rxCount + 1 ≤ i; omega, hij, hj, hold⟩
    | some found =>
      obtain ⟨r, others⟩ := found
      obtain ⟨n, hn, hroom, hhold, htotal⟩ := absorb_step h hnxt hready
      obtain ⟨-, -, hsub, hlen⟩ := oooReady_some hready
      have hcap : s.rxCap < 2 ^ 30 := h.cap_lt
      have hmod : (s.rxCount + n) % 2 ^ 32 = s.rxCount + n := Nat.mod_eq_of_lt (by omega)
      dsimp only
      rw [hn, hmod]
      refine ih _ ?_ ?_ ?_ hfin
      · change others.length ≤ fuel
        omega
      · refine ⟨h.cap, ?_, h.head, hhold, fun x hx => h.ranges x (hsub hx), htotal, ?_⟩
        · change s.rxCount + n ≤ s.rxCap
          omega
        · exact fun hf => absurd (hfin.symm.trans hf) (by decide)
      rw [hnxt, Peer.seqAt_add, Nat.add_assoc]

theorem Window.write {lo q : Nat} {data : List U8} (h : Window p done lo r anchor)
    (hlo : done ≤ lo) (hdata : data <+: p.stream.drop q) (hq : done ≤ q)
    (hroom : q + data.length ≤ done + r.rxCap) :
    Window p done lo { r with rx := Ring.write r.rx r.rxCap ((anchor + q) % r.rxCap) data }
      anchor := by
  refine ⟨h.cap, h.count, h.head, ?_, fun x hx => ?_, h.total, h.fin⟩
  · have := h.count
    exact h.ready.write h.cap_pos hdata hq hroom le_rfl (by omega)
  obtain ⟨i, j, hx, hi, hij, hj, hold⟩ := h.ranges x hx
  exact ⟨i, j, hx, hi, hij, hj, hold.write h.cap_pos hdata hq hroom (hlo.trans hi) hj⟩

theorem oooAdd_received {j : Nat} (h : Window p done (done + s.rxCount + 1)
      s.tcb.toRcv anchor) (hi : done + s.rxCount < i) (hij : i < j) (hj : j ≤ done + s.rxCap)
    (hold : Holds s.rx s.rxCap anchor p.stream i j) :
    Window p done (done + s.rxCount + 1) (oooAdd s (p.seqAt i) (p.seqAt j)).tcb.toRcv anchor := by
  have hcap : s.rxCap < 2 ^ 30 := h.cap_lt
  have hspan : done + s.rxCap ≤ done + s.rxCount + 1 + 2 ^ 30 := by omega
  obtain ⟨hkept, hnew⟩ := oooMerge_stored hspan s.ooo h.ranges ⟨i, j, rfl, by omega, hij, hj, hold⟩
  refine ⟨h.cap, h.count, h.head, h.ready, fun x hx => ?_, h.total, h.fin⟩
  have hx' : x ∈ (oooMerge s.ooo (p.seqAt i) (p.seqAt j)).2 ::
      (oooMerge s.ooo (p.seqAt i) (p.seqAt j)).1 := mem_of_mem_take hx
  rcases mem_cons.1 hx' with rfl | hx'
  · exact hnew
  · exact hkept x hx'

theorem takeData_received {data : List U8}
    (h : Received p done s.tcb.toRcv) (hnxt : s.rcvNxt = p.seqAt (done + s.rxCount))
    (hfin : s.finRcvd = false) (hne : data ≠ [])
    (hdata : data <+: p.stream.drop (done + s.rxCount + off))
    (hroom : s.rxCount + off + data.length ≤ s.rxCap) :
    Received p done (takeData e s (p.seqAt (done + s.rxCount + off)) off data).tcb.toRcv ∧
      (takeData e s (p.seqAt (done + s.rxCount + off)) off data).rcvNxt = p.seqAt
        (done + (takeData e s (p.seqAt (done + s.rxCount + off)) off data).rxCount) ∧
      (takeData e s (p.seqAt (done + s.rxCount + off)) off data).finRcvd = false := by
  obtain ⟨anchor, hwin⟩ := h
  have hlen : 0 < data.length := length_pos_iff.2 hne
  have hcap : s.rxCap < 2 ^ 30 := hwin.cap_lt
  have hcap0 : 0 < s.rxCap := hwin.cap_pos
  have hhead : s.rxHead = (anchor + done) % s.rxCap := hwin.head
  have hpos : (s.rxHead + s.rxCount + off) % s.rxCap =
      (anchor + (done + s.rxCount + off)) % s.rxCap := by
    rw [hhead, Nat.add_assoc, Nat.mod_add_mod]
    congr 1
    omega
  have hfits : done + s.rxCount + off + data.length ≤ done + s.rxCap := by omega
  have hwrite : Window p done (done + s.rxCount + 1) { s.tcb.toRcv with
      rx := Ring.write s.rx s.rxCap ((anchor + (done + s.rxCount + off)) % s.rxCap) data }
      anchor := hwin.write (show done ≤ _ by omega) hdata (by omega) hfits
  have hnew : Holds (Ring.write s.rx s.rxCap ((anchor + (done + s.rxCount + off)) % s.rxCap) data)
      s.rxCap anchor p.stream (done + s.rxCount + off) (done + s.rxCount + off + data.length) :=
    Ring.holds_write hcap0 hdata (show done ≤ _ by omega) hfits
  unfold takeData
  dsimp only
  rw [hpos]
  generalize Ring.write s.rx s.rxCap _ data = rx at hwrite hnew
  split
  · next hoff =>
      subst hoff
      have hmod : (s.rxCount + data.length) % 2 ^ 32 = s.rxCount + data.length :=
        Nat.mod_eq_of_lt (by omega)
      rw [hmod]
      refine absorb_received _ _ le_rfl (show Window _ _ _ _ anchor from ?_) ?_ hfin
      · have hready := Holds.append hwrite.ready hnew (le_refl (done + s.rxCount))
        refine ⟨hwin.cap, by change s.rxCount + data.length ≤ s.rxCap; omega, hwin.head, ?_,
          fun x hx => (hwrite.ranges x hx).weaken (by omega) le_rfl, ?_,
          fun hf => absurd (hfin.symm.trans hf) (by decide)⟩
        · change Holds rx s.rxCap anchor p.stream done (done + (s.rxCount + data.length))
          rw [← Nat.add_assoc]
          exact hready
        change done + (s.rxCount + data.length) ≤ p.stream.length
        have := hnew.length_le (by omega)
        omega
      rw [hnxt, Peer.seqAt_add, Nat.add_assoc]
  next hoff =>
  refine ⟨⟨anchor, ?_⟩, hnxt, hfin⟩
  rw [setAckNow_tcb, Peer.seqAt_add]
  exact oooAdd_received (s := { s with rx := rx }) hwrite
    (show done + s.rxCount < done + s.rxCount + off by omega) (by omega) hfits hnew

theorem absorb_rcv (fuel : Nat) (s : Sock) :
    (absorb fuel s).rxCap = s.rxCap ∧ (absorb fuel s).finRcvd = s.finRcvd := by
  induction fuel generalizing s with
  | zero => exact ⟨rfl, rfl⟩
  | succ fuel ih =>
    unfold absorb
    split
    · exact ⟨rfl, rfl⟩
    · exact ih _

theorem takeData_rcv (e : Env) (s : Sock) (seq : U32) (off : Nat) (data : List U8) :
    (takeData e s seq off data).rxCap = s.rxCap ∧ (takeData e s seq off data).finRcvd = s.finRcvd :=
    by
  unfold takeData
  dsimp only
  split
  · exact absorb_rcv _ _
  · exact ⟨rfl, rfl⟩

theorem dataPart_finRcvd (e : Env) (s : Sock) (h : Hdr) :
    (dataPart e s h).s.finRcvd = s.finRcvd := by
  unfold dataPart
  split
  · rfl
  dsimp only
  split
  · rfl
  split
  · rfl
  · exact (takeData_rcv e s _ _ _).2

/-! ## A segment -/

structure Slice (p : Peer) (h : Hdr) (i : Nat) : Prop where
  seq : h.seq = p.seqAt i
  data : h.data <+: p.stream.drop i
  fin : h.fl.fin = true → i + h.data.length = p.stream.length

theorem Slice.length_le (hs : Slice p h i) (hne : h.data ≠ []) :
    i + h.data.length ≤ p.stream.length := by
  have hle := hs.data.length_le
  have hpos := length_pos_iff.2 hne
  rw [length_drop] at hle
  omega

structure DataDone (p : Peer) (done : Nat) (r : DataRes) : Prop where
  received : Received p done r.s.tcb.toRcv
  synced : Synced p done r.s.tcb.toRcv
  fin : r.fin = true → r.seq + BitVec.ofNat 32 r.dlen = r.s.rcvNxt → r.s.finRcvd = false →
    takesData r.s.state = true → done + r.s.rxCount = p.stream.length

section

variable (hrec : Received p done s.tcb.toRcv)

include hrec

theorem dataPart_old (hsync : Synced p done s.tcb.toRcv)
    (hseq : h.seq = p.seqAt i) (hold : i < done + s.rxCount) (hnear : done + s.rxCount < i + 2 ^ 31)
    : DataDone p done ⟨setAckNow s, h.seq, 0, h.fl.fin⟩ := by
  refine ⟨hrec, hsync, fun _ hnxt hfin _ => ?_⟩
  have hpos : s.rcvNxt = p.seqAt (done + s.rxCount) := by
    rw [show s.rcvNxt = _ from hsync, show s.tcb.finRcvd = false from hfin]
    rfl
  change h.seq + BitVec.ofNat 32 0 = s.rcvNxt at hnxt
  rw [hpos, hseq, Peer.seqAt_add] at hnxt
  have := Peer.seqAt_inj (by omega) (by omega) hnxt
  omega

omit hrec in
theorem sub32_eq {a b : Nat} (hle : b ≤ a) (ha : a < 2 ^ 32) : sub32 a b = a - b := by
  unfold sub32
  omega

theorem dataPart_new {cut : Nat}
    (hnxt : s.rcvNxt = p.seqAt (done + s.rxCount)) (hfin : s.finRcvd = false)
    (hs : Slice p h i) (hcut : i + cut = done + s.rxCount + off) (hlen : cut < h.data.length)
    (hroom : s.rxCount + off < s.rxCap) :
    DataDone p done ⟨takeData e s (h.seq + BitVec.ofNat 32 cut) off
        ((h.data.drop cut).take (s.rxCap - s.rxCount - off)), h.seq + BitVec.ofNat 32 cut,
      ((h.data.drop cut).take (s.rxCap - s.rxCount - off)).length,
      h.fl.fin && off + (h.data.drop cut).length ≤ s.rxCap - s.rxCount⟩ := by
  have hseq : h.seq + BitVec.ofNat 32 cut = p.seqAt (done + s.rxCount + off) := by
    rw [hs.seq, Peer.seqAt_add, hcut]
  have hprefix : (h.data.drop cut).take (s.rxCap - s.rxCount - off) <+:
      p.stream.drop (done + s.rxCount + off) := by
    rw [← hcut, ← drop_drop]
    exact ( take_prefix _ _).trans (hs.data.drop cut)
  have hdlen : ((h.data.drop cut).take (s.rxCap - s.rxCount - off)).length =
      min (s.rxCap - s.rxCount - off) (h.data.length - cut) := by
    rw [length_take, length_drop]
  rw [hseq]
  generalize (h.data.drop cut).take (s.rxCap - s.rxCount - off) = data at hprefix hdlen
  have hne : data ≠ [] := by
    intro hnil
    rw [hnil] at hdlen
    simp at hdlen
    omega
  obtain ⟨hrec', hnxt', hfin'⟩ := takeData_received (e := e) hrec hnxt hfin hne hprefix (by omega)
  have hsync' : Synced p done
      (takeData e s (p.seqAt (done + s.rxCount + off)) off data).tcb.toRcv := by
    unfold Synced
    rw [show (takeData e s _ off data).tcb.finRcvd = false from hfin']
    exact hnxt'
  refine ⟨hrec', hsync', fun hfl hend _ _ => ?_⟩
  obtain ⟨anchor, hwin⟩ := hrec'
  have hcapeq : (takeData e s (p.seqAt (done + s.rxCount + off)) off data).rxCap = s.rxCap :=
    (takeData_rcv e s _ off data).1
  have hcap : (takeData e s (p.seqAt (done + s.rxCount + off)) off data).rxCap < 2 ^ 30 :=
    hwin.cap_lt
  have hcount : (takeData e s (p.seqAt (done + s.rxCount + off)) off data).rxCount ≤
      (takeData e s (p.seqAt (done + s.rxCount + off)) off data).rxCap := hwin.count
  simp only [Bool.and_eq_true, decide_eq_true_eq, length_drop] at hfl
  have hfull := hs.fin hfl.1
  change p.seqAt (done + s.rxCount + off) + BitVec.ofNat 32 data.length = _ at hend
  rw [hnxt', Peer.seqAt_add] at hend
  have hsame := Peer.seqAt_inj (by omega) (by omega) hend
  change done + (takeData e s _ off data).rxCount = _
  omega

section

variable (hsync : Synced p done s.tcb.toRcv)
  (hslice : h.data ≠ [] ∨ h.fl.fin = true → ∃ i, Slice p h i ∧ i < done + s.rxCount + 2 ^ 31 ∧ done + s.rxCount < i + 2 ^ 31)

include hsync hslice

theorem dataPart_done : DataDone p done (dataPart e s h) := by
  unfold dataPart
  split
  · next hskip =>
      refine ⟨hrec, hsync, fun hfl hnxt hfin htakes => ?_⟩
      obtain ⟨i, hs, hlo, hhi⟩ := hslice (.inr hfl)
      have hempty : h.data = [] := by
        simpa [show takesData s.state = true from htakes] using hskip
      have hpos : s.rcvNxt = p.seqAt (done + s.rxCount) := by
        rw [show s.rcvNxt = _ from hsync, show s.tcb.finRcvd = false from hfin]
        rfl
      have hi : i = done + s.rxCount := by
        rw [hempty, hpos, hs.seq, Peer.seqAt_add] at hnxt
        exact Peer.seqAt_inj (by simp; omega) (by simp; omega) hnxt
      have hend := hs.fin hfl
      rw [hempty] at hend
      simpa [hi] using hend
  next hdata =>
  have hne : h.data ≠ [] := by
    intro hnil
    simp [hnil] at hdata
  obtain ⟨i, hs, hlo, hhi⟩ := hslice (.inl hne)
  have hlen := hs.length_le hne
  have hpos := length_pos_iff.2 hne
  obtain ⟨anchor, hwin⟩ := id hrec
  have hcap : s.rxCap < 2 ^ 30 := hwin.cap_lt
  have hcount : s.rxCount ≤ s.rxCap := hwin.count
  cases hfin : s.finRcvd with
  | true =>
    -- the whole stream is in, so every byte of a segment is old
    have hall : done + s.rxCount = p.stream.length := hwin.fin hfin
    have hnxt : s.rcvNxt = p.seqAt (done + s.rxCount + 1) := by
      rw [show s.rcvNxt = _ from hsync, show s.tcb.finRcvd = true from hfin]
      rfl
    have hoff : sd h.seq s.rcvNxt = (i : Int) - (done + s.rxCount + 1 : Nat) := by
      rw [hnxt, hs.seq]
      exact Peer.sd_seqAt (by omega) (by omega)
    rw [hoff, if_pos (by omega)]
    exact dataPart_old hrec hsync hs.seq (by omega) hhi
  | false =>
    have hnxt : s.rcvNxt = p.seqAt (done + s.rxCount) := by
      rw [show s.rcvNxt = _ from hsync, show s.tcb.finRcvd = false from hfin]
      rfl
    have hoff : sd h.seq s.rcvNxt = (i : Int) - (done + s.rxCount : Nat) := by
      rw [hnxt, hs.seq]
      exact Peer.sd_seqAt (by omega) (by omega)
    dsimp only
    rw [hoff, sub32_eq hcount (by omega)]
    split
    · exact dataPart_old hrec hsync hs.seq (by omega) hhi
    split
    · exact ⟨hrec, hsync, fun hno => absurd hno Bool.false_ne_true⟩
    · exact dataPart_new hrec hnxt hfin hs (by omega) (by omega) (by omega)

theorem receive_received : Received p done (finPart e (dataPart e s h)).tcb.toRcv ∧
      Synced p done (finPart e (dataPart e s h)).tcb.toRcv := by
  have hdone := dataPart_done (e := e) hrec hsync hslice
  rcases finPart_tcb e (dataPart e s h) with heq | ⟨hfl, hend, hfin, htakes, heq⟩
  · rw [heq]
    exact ⟨hdone.received, hdone.synced⟩
  have hall := hdone.fin hfl hend hfin htakes
  obtain ⟨anchor, hwin⟩ := hdone.received
  have hnxt : (dataPart e s h).s.rcvNxt = p.seqAt (done + (dataPart e s h).s.rxCount) := by
    rw [show (dataPart e s h).s.rcvNxt = _ from hdone.synced,
      show (dataPart e s h).s.tcb.finRcvd = false from hfin]
    rfl
  rw [heq]
  refine ⟨⟨anchor, hwin.cap, hwin.count, hwin.head, hwin.ready, hwin.ranges, hwin.total,
    fun _ => hall⟩, ?_⟩
  change (dataPart e s h).s.rcvNxt + BitVec.ofNat 32 1 = _
  rw [hnxt, Peer.seqAt_add]
  rfl

end

end

theorem receive_state_fin : (finPart e (dataPart e s h)).tcb.finRcvd = true ∨
      (finPart e (dataPart e s h)).tcb.state = s.state ∧
        (finPart e (dataPart e s h)).tcb.finRcvd = s.finRcvd := by
  rcases finPart_tcb e (dataPart e s h) with heq | ⟨-, -, -, -, heq⟩
  · right
    rw [heq]
    exact ⟨dataPart_state e s h, dataPart_finRcvd e s h⟩
  left
  rw [heq]

theorem Received.read {n : Nat} (h : Received p done r) (hn : n ≤ r.rxCount) :
    Ring.read r.rx r.rxCap r.rxHead n = (p.stream.drop done).take n := by
  obtain ⟨anchor, hwin⟩ := h
  rw [hwin.head]
  exact hwin.ready.read_eq hwin.cap_pos (hn.trans hwin.count) (by omega)

theorem Received.take {t : Tcb} {n : Nat} (h : Received p done t.toRcv) (hn : n ≤ t.rxCount) :
    Received p (done + n) (t.take n).toRcv := by
  obtain ⟨anchor, hwin⟩ := h
  have hcount : t.rxCount ≤ t.rxCap := hwin.count
  have hpos : done + n + (t.rxCount - n) = done + t.rxCount := by omega
  refine ⟨anchor, hwin.cap, ?_, ?_, ?_, fun x hx => ?_, ?_, fun hf => ?_⟩
  · change t.rxCount - n ≤ t.rxCap
    omega
  · change (t.rxHead + n) % t.rxCap = _
    rw [hwin.head, Nat.mod_add_mod, Nat.add_assoc]
    rfl
  · change Holds t.rx t.rxCap anchor p.stream (done + n) (done + n + (t.rxCount - n))
    rw [hpos]
    exact hwin.ready.mono (by omega) le_rfl
  · refine (hwin.ranges x hx).weaken ?_ ?_
    · change done + n + (t.rxCount - n) + 1 ≤ done + t.rxCount + 1
      omega
    change done + t.rxCap ≤ done + n + t.rxCap
    omega
  · change done + n + (t.rxCount - n) ≤ _
    rw [hpos]
    exact hwin.total
  change done + n + (t.rxCount - n) = _
  rw [hpos]
  exact hwin.fin hf

theorem Received.setbufRx {ok : Bool} {rc : Nat} (h : Received p done s.tcb.toRcv)
    (hrc : bufMin ≤ rc ∧ rc ≤ bufMax) : Received p done (setbufRx ok s rc).tcb.toRcv := by
  unfold Net.setbufRx
  split
  · next hfits =>
      obtain ⟨anchor, hwin⟩ := h
      have hpos : 0 < rc := by
        have := hrc.1
        unfold bufMin at this
        omega
      obtain ⟨anchor', hzero, hhold⟩ := hwin.ready.unroll hfits.2.1 hpos
      refine ⟨anchor', hrc, hfits.2.1, hzero.symm, ?_, by simp [Sock.tcb], hwin.total, hwin.fin⟩
      rw [← hwin.head] at hhold
      exact hhold
  · exact h

end Data

/-! ## The FIN of a segment -/

variable {e : Env} {s : Sock} {h : Hdr}

def Hdr.finSeq (h : Hdr) : U32 := h.seq + BitVec.ofNat 32 h.data.length

/-- A segment that reaches no further than the free part of the receive ring. -/
def InWindow (s : Sock) (h : Hdr) : Prop :=
  sd h.seq s.rcvNxt + h.data.length ≤ sub32 s.rxCap s.rxCount

def Counted (s s' : Sock) : Prop := s'.finRcvd = true ∧ s'.rcvNxt = s.rcvNxt + 1

/-- All of the payload was there before, and the FIN is what comes next. -/
def OldData (s : Sock) (h : Hdr) : Prop := h.data ≠ [] ∧ h.finSeq = s.rcvNxt

theorem counted_iff (r : DataRes) : Counted r.s (finPart e r) ↔ r.fin = true ∧
    r.seq + BitVec.ofNat 32 r.dlen = r.s.rcvNxt ∧ r.s.finRcvd = false ∧
      takesData r.s.state = true := by
  constructor
  · intro hc
    rcases finPart_tcb e r with heq | ⟨hfl, hseq, hopen, htakes, -⟩
    · have hnxt : (finPart e r).rcvNxt = r.s.rcvNxt := congrArg (fun t : Tcb => t.rcvNxt) heq
      rw [Counted, hnxt] at hc
      simp at hc
    · exact ⟨hfl, hseq, hopen, htakes⟩
  rintro ⟨hfl, hif⟩
  simp only [finPart, hfl, if_true, if_pos hif]
  exact ⟨rfl, rfl⟩

theorem dataPart_oldData (hest : s.state = .established) (hlen : h.data.length < 2 ^ 16)
    (hold : OldData s h) : dataPart e s h = ⟨setAckNow s, h.seq, 0, h.fl.fin⟩ := by
  obtain ⟨hne, hend⟩ := hold
  have hoff : sd h.seq s.rcvNxt = -h.data.length := by
    have : sd (h.seq + BitVec.ofNat 32 0) h.finSeq = (0 : Nat) - h.data.length :=
      Serial.diff_add_ofNat (by omega) (by omega)
    simpa [← hend] using this
  simp [dataPart, hne, hest, takesData, hoff]

theorem dataPart_finSeq (hwin : InWindow s h) (hend : h.finSeq = (dataPart e s h).s.rcvNxt)
    (hold : ¬OldData s h) : (dataPart e s h).fin = h.fl.fin ∧
      (dataPart e s h).seq + BitVec.ofNat 32 (dataPart e s h).dlen = h.finSeq := by
  unfold dataPart at hend ⊢
  unfold InWindow at hwin
  split at hend
  · next hskip =>
    rw [if_pos hskip]
    exact ⟨rfl, rfl⟩
  next hskip =>
  have hne : h.data ≠ [] := by
    rintro hnil
    simp [hnil] at hskip
  rw [if_neg hskip]
  dsimp only at hend ⊢
  split at hend
  · exact absurd ⟨hne, hend⟩ hold
  next hcut =>
  have hfr : ¬sub32 s.rxCap s.rxCount ≤ (sd h.seq s.rcvNxt).toNat := by omega
  rw [if_neg hcut, if_neg hfr]
  -- nothing is cut off at the end of the window
  have hfits : (sd h.seq s.rcvNxt).toNat + (h.data.drop (-sd h.seq s.rcvNxt).toNat).length ≤
      sub32 s.rxCap s.rxCount := by
    rw [length_drop]
    omega
  refine ⟨by simp only [hfits, decide_true, Bool.and_true], ?_⟩
  dsimp only
  rw [length_take, Nat.min_eq_right (by omega), length_drop, Serial.add_ofNat_add, Hdr.finSeq]
  congr 2
  omega

theorem fin_counted_iff (hest : s.state = .established) (hfin : h.fl.fin = true)
    (hlen : h.data.length < 2 ^ 16) (hwin : InWindow s h)
    (hend : h.finSeq = (dataPart e s h).s.rcvNxt) :
    Counted (dataPart e s h).s (finPart e (dataPart e s h)) ↔
      s.finRcvd = false ∧ ¬OldData s h := by
  rw [counted_iff]
  by_cases hold : OldData s h
  · have hpos := length_pos_iff.2 hold.1
    -- the payload is cut to nothing but `seq` stays, so the FIN is looked for before its place
    have hmiss : h.seq + BitVec.ofNat 32 0 ≠ s.rcvNxt := by
      rw [← hold.2]
      intro heq
      have := Serial.add_ofNat_inj (by omega) (by omega) heq
      omega
    rw [dataPart_oldData hest hlen hold]
    exact iff_of_false (fun hc => hmiss hc.2.1) fun hc => hc.2 hold
  obtain ⟨hkept, hseq⟩ := dataPart_finSeq hwin hend hold
  simp [hkept, hfin, hseq, hend, dataPart_state, hest, dataPart_finRcvd, takesData, hold]

/-- The peer repeats its last byte with the FIN that got lost. -/
def repeated : Hdr :=
  { sport := 1, dport := 2, seq := 100, ack := 0, fl := { fin := true }, win := 0, opts := [],
    data := [7] }

def halfOpen : Sock := { state := .established, rcvNxt := 101, rxCap := 4096 }

theorem fin_missed : halfOpen.state = .established ∧ repeated.fl.fin = true ∧
    InWindow halfOpen repeated ∧ ∀ e, repeated.finSeq = (dataPart e halfOpen repeated).s.rcvNxt ∧
      ¬Counted (dataPart e halfOpen repeated).s (finPart e (dataPart e halfOpen repeated)) := by
  refine ⟨rfl, rfl, ?_, fun e => ⟨rfl, fun hc => ?_⟩⟩
  · unfold InWindow
    decide
  have hseq : 100#32 + 0#32 = 101#32 := ((counted_iff _).1 hc).2.1
  exact absurd hseq (by decide)

theorem fin_counted_new :
    let r := dataPart (calmEnv 0) halfOpen { repeated with seq := 101 }
    Counted r.s (finPart (calmEnv 0) r) := by
  refine (fin_counted_iff rfl rfl (by decide) ?_ rfl).2 ⟨rfl, fun hold => ?_⟩
  · unfold InWindow
    decide
  · exact absurd hold.2 (by decide)

end SamaraOS.Net
