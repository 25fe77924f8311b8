import SamaraOS.Proc.Futex

/-!
# Wakeups are conserved

A waiter that a wake has counted must return 0.  The code keeps this as long as no wake and no
requeue meets a waiter that has found `woken` unset and is about to leave for a signal or a
timeout, or that goes back to sleep under the lock of the bucket it was moved away from.
-/

namespace SamaraOS.Futex

open Function List

def Op.isOf (i : Nat) : Op → Bool
  | .resume j | .test j | .decideLeave j | .relock j | .block j
  | .forgetRead j | .forgetLock j | .forgetUnlock j => i = j
  | _ => false

structure Conserved (s : State) : Prop where
  /-- The result of a wake is the number of waiters it has set `woken` for. -/
  counted : ∀ key n k s', wake key n s = some (k, s') →
    k = ((range maxProcs).filter fun i => !(s.w i).woken && (s'.w i).woken).length
  /-- What was woken has returned 0. -/
  returned : ∀ e ∈ s.log, e.1 = true → e.2 = .ok
  /-- What is woken and has not returned gets there by itself. -/
  returns : ∀ i, (s.w i).active → (s.w i).woken → (∀ b, s.lock b = none) →
    ∃ ops s', (∀ op ∈ ops, op.isOf i) ∧ run s ops = some s' ∧ s'.log = (true, .ok) :: s.log
  /-- What is not woken is found under its present address, in the order of the table. -/
  found : ∀ i < maxProcs, (s.w i).active → (s.w i).woken = false →
    s.lock (bucket (s.w i).key) = none → ∀ n,
    ((range i).filter fun j => found (s.w i).key (s.w j)).length < n →
    ∃ k s', wake (s.w i).key n s = some (k, s') ∧ (s'.w i).woken
  /-- Who holds a lock can open it. -/
  unlocks : ∀ b j, s.lock b = some j → ∃ op s', op.isOf j ∧ step s op = some s' ∧ s'.lock b = none

def Waiter.cut (w : Waiter) : Bool := w.sig || (w.timed && w.expired)

def Waiter.looks (w : Waiter) : Bool :=
  match w.pc with
  | .sleeping _ | .awake _ | .relock _ => true
  | .tested _ => !w.cut
  | _ => false

def Waiter.unseen (w : Waiter) : Bool :=
  match w.pc with
  | .tested _ => w.woken
  | _ => false

def Regular (s : State) : Op → Prop
  | .wake key _ => ∀ i, Futex.found key (s.w i) → (s.w i).looks
  | .requeue key _ _ _ _ => ∀ i, Futex.found key (s.w i) → (s.w i).looks
  | .signal i | .expire i => (s.w i).unseen = false
  | _ => True

def RegularRun : State → List Op → Prop
  | _, [] => True
  | s, op :: ops => Regular s op ∧ ∀ s', step s op = some s' → RegularRun s' ops

def Pc.waiting : Pc → Bool
  | .idle | .forgetting _ => false
  | _ => true

def Pc.result : Pc → Option Ret
  | .leaving r | .forget r _ | .forgetting r => some r
  | _ => none

def Waiter.holds (w : Waiter) : Option Nat :=
  match w.pc with
  | .relocked b => some b
  | .forgetting _ => some w.bk
  | _ => none

structure Sound (w : Waiter) : Prop where
  active : w.active = w.pc.waiting
  bucket : w.active → w.bk = bucket w.key
  asleep : w.blocked → w.woken = false ∧ ∃ b, w.pc = .sleeping b
  tested : ∀ b, w.pc = .tested b → w.woken → w.cut = false
  relocked : ∀ b, w.pc = .relocked b → w.woken = false
  result : ∀ r, w.pc.result = some r → (w.woken = true ↔ r = .ok)
  forget : ∀ r c, w.pc = .forget r c → c = w.bk

structure Inv (s : State) : Prop where
  sound : ∀ i, Sound (s.w i)
  lock : ∀ b i, s.lock b = some i ↔ (s.w i).holds = some b
  log : ∀ e ∈ s.log, e.1 = true → e.2 = .ok

theorem Inv.boot : Inv boot := by
  refine ⟨fun i => ?_, fun b i => by simp [Futex.boot, Waiter.holds], by simp [Futex.boot]⟩
  constructor <;> simp [Futex.boot, Pc.waiting, Pc.result]

variable {s : State} {i : Nat} {w : Waiter} {is : List Nat} {eq : Bool}

theorem Inv.set (hi : Inv s) (hw : Sound w) (hh : w.holds = (s.w i).holds) : Inv (s.set i w) := by
  refine ⟨fun j => ?_, fun b j => ?_, hi.log⟩
  · by_cases hj : j = i
    · subst hj
      simpa [State.set] using hw
    · simpa [State.set, hj] using hi.sound j
  by_cases hj : j = i
  · subst hj
    simpa [State.set, hh] using hi.lock b j
  · simpa [State.set, hj] using hi.lock b j

/-- Waiter `i`, the only one that may hold lock `b`, takes it or gives it back. -/
theorem Inv.holdSet (hi : Inv s) {b : Nat} {o : Option Nat} (hw : Sound w)
    (hb : ∀ c, (s.w i).holds = some c → c = b) (hown : ∀ j, s.lock b = some j ∨ o = some j → j = i)
    (hh : ∀ c, w.holds = some c ↔ c = b ∧ o = some i) : Inv ((s.setLock b o).set i w) := by
  refine ⟨fun j => ?_, fun c j => ?_, hi.log⟩
  · by_cases hj : j = i
    · subst hj
      simpa [State.set] using hw
    · simpa [State.set, State.setLock, hj] using hi.sound j
  have hl := hi.lock c j
  by_cases hj : j = i <;> by_cases hc : c = b
  · subst hj hc
    simp [State.set, State.setLock, hh]
  · subst hj
    simp only [State.set, State.setLock, update_self, update_of_ne hc, hh, hc, hl, false_and,
      iff_false]
    exact fun h => hc (hb c h)
  · subst hc
    simp only [State.set, State.setLock, update_self, update_of_ne hj, ← hl]
    exact iff_of_false (fun h => hj (hown j (.inr h))) fun h => hj (hown j (.inl h))
  · simpa [State.set, State.setLock, hj, hc] using hl

theorem Inv.lockSet (hi : Inv s) {b : Nat} (hw : Sound w) (hfree : s.lock b = none)
    (hb : (s.w i).holds = none) (hh : w.holds = some b) : Inv ((s.setLock b (some i)).set i w) :=
  hi.holdSet hw (by simp [hb]) (by simp [hfree]) (by simp [hh, eq_comm])

theorem Inv.unlockSet (hi : Inv s) {b : Nat} (hw : Sound w)
    (hb : (s.w i).holds = some b) (hh : w.holds = none) : Inv ((s.setLock b none).set i w) :=
  hi.holdSet hw (by simp [hb]) (by simp [(hi.lock b i).2 hb]) (by simp [hh])

/-! ## The loops -/

section Loops

variable {key key₂ : Key} {n m : Nat} {P : Waiter → Prop}

theorem wakeLoop_keeps (hwake : ∀ w, P w → found key w → P (wakeOne w)) (is : List Nat) (k : Nat)
    (w : Nat → Waiter) (i : Nat) (h : P (w i)) : P ((wakeLoop key is n k w).2 i) := by
  induction is generalizing k w with
  | nil => exact h
  | cons j is ih =>
    unfold wakeLoop
    split
    case isTrue hf =>
      apply ih
      by_cases hj : i = j
      · subst hj
        simpa using hwake _ h hf.2
      · simpa [hj] using h
    case isFalse => exact ih _ _ h

theorem requeueLoop_keeps (hwake : ∀ w, P w → found key w → P (wakeOne w))
    (hmove : ∀ w, P w → found key w → P (moveOne key₂ w)) (is : List Nat) (k moved : Nat)
    (w : Nat → Waiter) (i : Nat) (h : P (w i)) :
    P ((requeueLoop key key₂ n m is k moved w).2 i) := by
  induction is generalizing k moved w with
  | nil => exact h
  | cons j is ih =>
    have hput : ∀ f : Waiter → Waiter, (∀ w, P w → found key w → P (f w)) → found key (w j) →
        P (update w j (f (w j)) i) := by
      intro f hf hfound
      by_cases hj : i = j
      · subst hj
        simpa using hf _ h hfound
      · simpa [hj] using h
    unfold requeueLoop
    split
    case isTrue hf =>
      split
      · exact ih _ _ _ (hput wakeOne hwake hf)
      split
      · exact ih _ _ _ (hput (moveOne key₂) hmove hf)
      · exact ih _ _ _ h
    case isFalse => exact ih _ _ _ h

theorem wakeLoop_woken {pre post : List Nat} {i : Nat} (hnd : (pre ++ [i]).Nodup) (k : Nat)
    (w : Nat → Waiter) (hf : found key (w i))
    (hk : k + (pre.filter fun j => found key (w j)).length < n) :
    ((wakeLoop key (pre ++ i :: post) n k w).2 i).woken := by
  induction pre generalizing k w with
  | nil =>
    rw [nil_append, wakeLoop, if_pos ⟨by simpa using hk, hf⟩]
    exact wakeLoop_keeps (P := fun w => w.woken = true) (fun _ _ _ => rfl) _ _ _ _
      (by simp [wakeOne, ready])
  | cons j pre ih =>
    rw [cons_append, nodup_cons] at hnd
    have hij : i ≠ j := fun h => hnd.1 (by simp [h])
    rw [cons_append, wakeLoop]
    split
    case isTrue hj =>
      -- the entry woken is not one of those that come after it
      have hrest : (pre.filter fun l => found key (update w j (wakeOne (w j)) l)) =
          pre.filter fun l => found key (w l) := by
        refine filter_congr fun l hl => ?_
        have hlj : l ≠ j := fun h => hnd.1 (by simp [← h, hl])
        simp [hlj]
      rw [filter_cons_of_pos (by simpa using hj.2), length_cons] at hk
      refine ih hnd.2 _ _ (by simpa [hij] using hf) ?_
      rw [hrest]
      omega
    case isFalse hj =>
    refine ih hnd.2 _ _ hf (lt_of_le_of_lt ?_ hk)
    simp only [filter_cons]
    split <;> simp

theorem wakeLoop_of_notMem {i : Nat} (hi : i ∉ is) (k : Nat)
    (w : Nat → Waiter) : (wakeLoop key is n k w).2 i = w i := by
  induction is generalizing k w with
  | nil => rfl
  | cons j is ih =>
    rw [mem_cons, not_or] at hi
    unfold wakeLoop
    split
    · rw [ih hi.2, update_of_ne hi.1]
    · exact ih hi.2 k w

theorem wakeLoop_count (hnd : is.Nodup) (k : Nat) (w : Nat → Waiter) :
    (wakeLoop key is n k w).1 = k +
      (is.filter fun i => !(w i).woken && ((wakeLoop key is n k w).2 i).woken).length := by
  induction is generalizing k w with
  | nil => rfl
  | cons j is ih =>
    rw [nodup_cons] at hnd
    unfold wakeLoop
    split
    case isTrue hf =>
      have hnew : (w j).woken = false := by
        have hfound := hf.2
        simp only [found, Bool.and_eq_true, Bool.not_eq_true'] at hfound
        exact hfound.1.1.2
      rw [ih hnd.2, filter_cons_of_pos, length_cons, Nat.add_right_comm, Nat.add_assoc]
      · congr 3
        refine filter_congr fun i hi => ?_
        rw [update_of_ne (ne_of_mem_of_not_mem hi hnd.1)]
      rw [wakeLoop_of_notMem hnd.1]
      simp [hnew, wakeOne, ready]
    case isFalse =>
    rw [ih hnd.2, filter_cons_of_neg]
    rw [wakeLoop_of_notMem hnd.1]
    simp

end Loops

theorem wake_count {s s' : State} {key : Key} {n k : Nat} (h : wake key n s = some (k, s')) :
    k = ((range maxProcs).filter fun i => !(s.w i).woken && (s'.w i).woken).length := by
  unfold wake at h
  split at h
  case isFalse => cases h
  case isTrue =>
  cases h
  simpa using wakeLoop_count nodup_range 0 s.w

/-! ## One step -/

variable {w : Waiter}

theorem Sound.ready (h : Sound w) : Sound (ready w) :=
  ⟨h.active, h.bucket, by simp [Futex.ready], h.tested, h.relocked, h.result, h.forget⟩

theorem Sound.wakeOne (h : Sound w) (hl : w.looks) : Sound (wakeOne w) := by
  obtain ⟨active, woken, key, bk, blocked, sig, timed, expired, pc⟩ := w
  refine ⟨h.active, h.bucket, by simp [Futex.wakeOne, Futex.ready], ?_, ?_, ?_, h.forget⟩
  · rintro b rfl -
    simp only [Waiter.looks, Bool.not_eq_true'] at hl
    exact hl
  · rintro b rfl
    simp [Waiter.looks] at hl
  rintro r hr
  cases pc <;> simp_all [Waiter.looks, Pc.result, Futex.wakeOne, Futex.ready]

theorem Sound.moveOne (h : Sound w) (hl : w.looks) (key : Key) : Sound (moveOne key w) := by
  refine ⟨h.active, fun _ => rfl, h.asleep, h.tested, h.relocked, h.result, fun r c hc => ?_⟩
  have hc' : w.pc = .forget r c := hc
  simp [Waiter.looks, hc'] at hl

theorem Sound.up (h : Sound w) (hpc : ∀ b, w.pc ≠ .sleeping b) : w.blocked = false := by
  cases hb : w.blocked with
  | false => rfl
  | true =>
    obtain ⟨b, hs⟩ := (h.asleep hb).2
    exact absurd hs (hpc b)

theorem Sound.goto (h : Sound w) (hrun : w.blocked = false)
    (hw : w.pc.waiting) {pc : Pc} (hp : pc.waiting)
    (htested : ∀ b, pc = .tested b → w.woken = false)
    (hrelocked : ∀ b, pc = .relocked b → w.woken = false)
    (hresult : ∀ r, pc.result = some r → (w.woken = true ↔ r = .ok))
    (hforget : ∀ r c, pc = .forget r c → c = w.bk) : Sound { w with pc := pc } where
  active := h.active.trans (hw.trans hp.symm)
  bucket := h.bucket
  asleep hb := by simp [hrun] at hb
  tested b hb hwoken := by simp [htested b hb] at hwoken
  relocked := hrelocked
  result := hresult
  forget := hforget

theorem holds_of_looks (h : w.looks) : w.holds = none := by
  obtain ⟨active, woken, key, bk, blocked, sig, timed, expired, pc⟩ := w
  cases pc <;> simp_all [Waiter.looks, Waiter.holds]

theorem Inv.mapW {s : State} (hi : Inv s) (w : Nat → Waiter)
    (h : ∀ i, Sound (w i) ∧ (w i).holds = (s.w i).holds) : Inv { s with w := w } :=
  ⟨fun i => (h i).1, fun b i => by rw [hi.lock b i, (h i).2], hi.log⟩

section Steps

variable {s s' : State} {i : Nat} {key : Key} {b : Nat}

section

variable (hi : Inv s)

include hi

theorem Inv.wake {n k : Nat}
    (hr : ∀ i, found key (s.w i) → (s.w i).looks) (h : wake key n s = some (k, s')) : Inv s' := by
  unfold Futex.wake at h
  split at h
  case isFalse => cases h
  case isTrue =>
  cases h
  refine hi.mapW _ fun i => ?_
  refine (wakeLoop_keeps (P := fun w => (Sound w ∧ w.holds = (s.w i).holds) ∧
    (found key w → w.looks)) ?_ _ _ _ i ⟨⟨hi.sound i, rfl⟩, hr i⟩).1
  rintro w ⟨⟨hw, hh⟩, hf⟩ hw'
  exact ⟨⟨hw.wakeOne (hf hw'), hh⟩, fun _ => hf hw'⟩

theorem Inv.requeue {key₂ : Key} {n m : Nat} {k : Option Nat}
    (hr : ∀ i, found key (s.w i) → (s.w i).looks)
    (h : requeue key key₂ n m eq s = some (k, s')) : Inv s' := by
  unfold Futex.requeue at h
  split at h
  case isFalse => cases h
  case isTrue =>
  split at h
  case isFalse =>
    cases h
    exact hi
  case isTrue =>
  cases h
  refine hi.mapW _ fun i => ?_
  refine (requeueLoop_keeps (P := fun w => (Sound w ∧ w.holds = (s.w i).holds) ∧
    (found key w → w.looks)) ?_ ?_ _ _ _ _ i ⟨⟨hi.sound i, rfl⟩, hr i⟩).1
  · rintro w ⟨⟨hw, hh⟩, hf⟩ hw'
    exact ⟨⟨hw.wakeOne (hf hw'), hh⟩, fun _ => hf hw'⟩
  rintro w ⟨⟨hw, hh⟩, hf⟩ hw'
  have hl : (moveOne key₂ w).looks := hf hw'
  exact ⟨⟨hw.moveOne (hf hw') key₂,
    ((holds_of_looks hl).trans (holds_of_looks (hf hw')).symm).trans hh⟩, fun _ => hl⟩

theorem Inv.enter {timed : Bool}
    (h : enter i key eq timed s = some s') : Inv s' := by
  unfold Futex.enter at h
  split at h
  case isFalse => cases h
  case isTrue hpc =>
  split at h
  case isFalse =>
    cases h
    exact hi
  case isTrue =>
  cases h
  apply hi.set
  · cases (s.w i).sig <;> constructor <;> simp [Pc.waiting, Pc.result]
  · cases (s.w i).sig <;> simp [Waiter.holds, hpc.1]

theorem Inv.resume (h : resume i s = some s') : Inv s' := by
  unfold Futex.resume at h
  split at h
  case h_2 => cases h
  case h_1 b hpc =>
  split at h
  case isTrue => cases h
  case isFalse hb =>
  cases h
  have hrun : (s.w i).blocked = false := by simpa using hb
  refine hi.set ((hi.sound i).goto hrun (by simp [hpc, Pc.waiting]) rfl ?_ ?_ ?_ ?_)
    (by simp [Waiter.holds, hpc])
  all_goals simp [Pc.result]

theorem Inv.test (h : test i s = some s') : Inv s' := by
  unfold Futex.test at h
  split at h
  case h_2 => cases h
  case h_1 b hpc =>
  cases h
  have hrun := (hi.sound i).up (by simp [hpc])
  cases hwoken : (s.w i).woken <;>
  · refine hi.set ((hi.sound i).goto hrun (by simp [hpc, Pc.waiting]) ?_ ?_ ?_ ?_ ?_)
      (by simp [Waiter.holds, hpc])
    all_goals simp [Pc.waiting, Pc.result, hwoken]

theorem Inv.decideLeave (h : decideLeave i s = some s') : Inv s' := by
  unfold Futex.decideLeave at h
  split at h
  case h_2 => cases h
  case h_1 b hpc =>
  cases h
  have hrun := (hi.sound i).up (by simp [hpc])
  have hcut := (hi.sound i).tested b hpc
  have hgo : ∀ pc : Pc, pc = .leaving .eintr ∧ (s.w i).cut ∨
      pc = .leaving .etimedout ∧ (s.w i).cut ∨ pc = .relock b → Inv (s.goto i pc) := by
    rintro pc (⟨rfl, hc⟩ | ⟨rfl, hc⟩ | rfl)
    all_goals
      refine hi.set ((hi.sound i).goto hrun (by simp [hpc, Pc.waiting]) rfl ?_ ?_ ?_ ?_)
        (by simp [Waiter.holds, hpc])
      all_goals simp_all [Pc.result]
  apply hgo
  unfold Waiter.cut
  split <;> rename_i hsig
  · simp [hsig]
  split <;> rename_i hexp
  · simp_all
  · simp

theorem Inv.relock (h : relock i s = some s') : Inv s' := by
  unfold Futex.relock at h
  split at h
  case h_2 => cases h
  case h_1 b hpc =>
  have hrun := (hi.sound i).up (by simp [hpc])
  have hnone : (s.w i).holds = none := by simp [Waiter.holds, hpc]
  split at h
  case isFalse => cases h
  case isTrue hfree =>
  split at h <;> rename_i hwoken <;> cases h
  · refine hi.set ((hi.sound i).goto hrun (by simp [hpc, Pc.waiting]) rfl ?_ ?_ ?_ ?_)
      (by simp [Waiter.holds, hpc])
    all_goals simp [Pc.result, hwoken]
  refine hi.lockSet ((hi.sound i).goto hrun (by simp [hpc, Pc.waiting]) rfl ?_ ?_ ?_ ?_)
    hfree hnone rfl
  all_goals simp [Pc.result, hwoken]

theorem Inv.block (h : block i s = some s') : Inv s' := by
  unfold Futex.block at h
  split at h
  case h_2 => cases h
  case h_1 b hpc =>
  have hrun := (hi.sound i).up (by simp [hpc])
  have hsome : (s.w i).holds = some b := by simp [Waiter.holds, hpc]
  have hwoken := (hi.sound i).relocked b hpc
  split at h <;> cases h
  · refine hi.unlockSet ((hi.sound i).goto hrun (by simp [hpc, Pc.waiting]) rfl ?_ ?_ ?_ ?_)
      hsome rfl
    all_goals simp [Pc.result, hwoken]
  refine hi.unlockSet ⟨?_, (hi.sound i).bucket, fun _ => ⟨hwoken, b, rfl⟩, ?_, ?_, ?_, ?_⟩
    hsome rfl
  · simpa [hpc, Pc.waiting] using (hi.sound i).active
  all_goals simp [Pc.result]

theorem Inv.forgetRead (h : forgetRead i s = some s') : Inv s' := by
  unfold Futex.forgetRead at h
  split at h
  case h_2 => cases h
  case h_1 r hpc =>
  cases h
  have hrun := (hi.sound i).up (by simp [hpc])
  have hresult := (hi.sound i).result r (by simp [hpc, Pc.result])
  refine hi.set ((hi.sound i).goto hrun (by simp [hpc, Pc.waiting]) rfl ?_ ?_ ?_ ?_)
    (by simp [Waiter.holds, hpc])
  all_goals simp_all [Pc.result]

theorem Inv.forgetLock (h : forgetLock i s = some s') : Inv s' := by
  unfold Futex.forgetLock at h
  split at h
  case h_2 => cases h
  case h_1 r c hpc =>
  have hrun := (hi.sound i).up (by simp [hpc])
  have hresult := (hi.sound i).result r (by simp [hpc, Pc.result])
  have hc := (hi.sound i).forget r c hpc
  split at h
  case isFalse => cases h
  case isTrue hfree =>
  cases h
  refine hi.lockSet ⟨rfl, by simp, by simp [hrun], by simp, by simp, ?_, by simp⟩ hfree
    (by simp [Waiter.holds, hpc]) (by simp [Waiter.holds, hc])
  simpa [Pc.result] using hresult

theorem Inv.forgetUnlock (h : forgetUnlock i s = some s') : Inv s' := by
  unfold Futex.forgetUnlock at h
  split at h
  case h_2 => cases h
  case h_1 r hpc =>
  have hrun := (hi.sound i).up (by simp [hpc])
  have hresult := (hi.sound i).result r (by simp [hpc, Pc.result])
  have hactive : (s.w i).active = false := by simpa [hpc, Pc.waiting] using (hi.sound i).active
  cases h
  have hleft : Inv ((s.setLock (s.w i).bk none).goto i .idle) := by
    refine hi.unlockSet ⟨hactive, ?_, ?_, by simp, by simp, by simp [Pc.result], by simp⟩
      (by simp [Waiter.holds, hpc]) rfl
    · simp [State.setLock, hactive]
    · simp [State.setLock, hrun]
  refine ⟨hleft.sound, hleft.lock, fun e he => ?_⟩
  rcases mem_cons.1 he with rfl | he
  · exact hresult.1
  · exact hi.log e he

end

theorem Sound.interrupt {w : Waiter} (h : Sound w) (hu : w.unseen = false) (sig expired : Bool) :
    Sound (Futex.ready { w with sig := sig, expired := expired }) := by
  refine ⟨h.active, h.bucket, by simp [Futex.ready], fun b hb hwoken => ?_, h.relocked, h.result,
    h.forget⟩
  have hpc : w.pc = .tested b := hb
  have hset : w.woken = true := hwoken
  simp [Waiter.unseen, hpc, hset] at hu

theorem Sound.handled {w : Waiter} (h : Sound w) : Sound { w with sig := false } := by
  refine ⟨h.active, h.bucket, h.asleep, fun b hb hwoken => ?_, h.relocked, h.result, h.forget⟩
  have hcut := h.tested b hb hwoken
  rw [Waiter.cut, Bool.or_eq_false_iff] at hcut
  simpa only [Waiter.cut, Bool.false_or] using hcut.2

theorem Inv.step (hi : Inv s) {op : Op} (hr : Regular s op) (h : step s op = some s') : Inv s' := by
  cases op with
  | enter i key eq timed => exact hi.enter h
  | resume i => exact hi.resume h
  | test i => exact hi.test h
  | decideLeave i => exact hi.decideLeave h
  | relock i => exact hi.relock h
  | block i => exact hi.block h
  | forgetRead i => exact hi.forgetRead h
  | forgetLock i => exact hi.forgetLock h
  | forgetUnlock i => exact hi.forgetUnlock h
  | wake key n =>
    obtain ⟨⟨k, t⟩, ht, rfl⟩ := Option.map_eq_some_iff.1 h
    exact hi.wake hr ht
  | requeue key key₂ n m eq =>
    obtain ⟨⟨k, t⟩, ht, rfl⟩ := Option.map_eq_some_iff.1 h
    exact hi.requeue hr ht
  | signal i =>
    cases h
    exact hi.set ((hi.sound i).interrupt hr true _) rfl
  | handled i =>
    cases h
    exact hi.set (hi.sound i).handled rfl
  | expire i =>
    cases h
    exact hi.set ((hi.sound i).interrupt hr _ true) rfl
  | poke i =>
    cases h
    exact hi.set (hi.sound i).ready rfl

theorem Inv.run {ops : List Op} (hi : Inv s) (hr : RegularRun s ops) (h : run s ops = some s') :
    Inv s' := by
  induction ops generalizing s with
  | nil =>
    cases h
    exact hi
  | cons op ops ih =>
    obtain ⟨t, ht, hrest⟩ := Option.bind_eq_some_iff.1 h
    exact ih (hi.step hr.1 ht) (hr.2 t ht) hrest

/-! ## The invariant gives the property -/

@[simp] theorem goto_w (s : State) (i : Nat) (pc : Pc) :
    (s.goto i pc).w i = { s.w i with pc := pc } := by
  simp [State.goto, State.set]

@[simp] theorem goto_lock (s : State) (i : Nat) (pc : Pc) : (s.goto i pc).lock = s.lock := rfl

def Returns (i : Nat) (s : State) : Prop :=
  ∃ ops s', (∀ op ∈ ops, op.isOf i) ∧ Futex.run s ops = some s' ∧ s'.log = (true, .ok) :: s.log

theorem Returns.step {t : State} {op : Op} (hop : op.isOf i) (h : Futex.step s op = some t)
    (hlog : t.log = s.log) (ht : Returns i t) : Returns i s := by
  obtain ⟨ops, s', hops, hrun, hs'⟩ := ht
  refine ⟨op :: ops, s', ?_, ?_, hlog ▸ hs'⟩
  · simpa [hop] using hops
  · simp [Futex.run, h, hrun]

theorem Returns.forgetting (hpc : (s.w i).pc = .forgetting .ok) (hwoken : (s.w i).woken) :
    Returns i s := by
  have hstep : Futex.run s [.forgetUnlock i] = some
      { (s.setLock (s.w i).bk none).goto i .idle with log := ((s.w i).woken, .ok) :: s.log } := by
    simp [Futex.run, Futex.step, Futex.forgetUnlock, hpc]
  exact ⟨_, _, by simp [Op.isOf], hstep, by simp [hwoken]⟩

theorem Returns.forget {c : Nat} (hpc : (s.w i).pc = .forget .ok c) (hwoken : (s.w i).woken)
    (hfree : s.lock c = none) : Returns i s := by
  have hstep : Futex.step s (.forgetLock i) = some ((s.setLock c (some i)).set i
      { s.w i with active := false, pc := .forgetting .ok }) := by
    simp [Futex.step, Futex.forgetLock, hpc, hfree]
  exact .step (by simp [Op.isOf]) hstep rfl
    (.forgetting (by simp [State.set]) (by simp [State.set, hwoken]))

section

variable (hwoken : (s.w i).woken) (hfree : ∀ b, s.lock b = none)

include hwoken hfree

theorem Returns.leaving (hpc : (s.w i).pc = .leaving .ok) : Returns i s := by
  have hstep : Futex.step s (.forgetRead i) = some (s.goto i (.forget .ok (s.w i).bk)) := by
    simp [Futex.step, Futex.forgetRead, hpc]
  exact .step (by simp [Op.isOf]) hstep rfl
    (.forget (c := (s.w i).bk) (by simp) (by simp [hwoken]) (hfree _))

theorem Returns.relock (hpc : (s.w i).pc = .relock b) : Returns i s := by
  have hstep : Futex.step s (.relock i) = some (s.goto i (.leaving .ok)) := by
    simp [Futex.step, Futex.relock, hpc, hfree, hwoken]
  exact .step (by simp [Op.isOf]) hstep rfl (.leaving (by simp [hwoken]) hfree (by simp))

theorem Returns.tested (hpc : (s.w i).pc = .tested b) (hcut : (s.w i).cut = false) :
    Returns i s := by
  rw [Waiter.cut, Bool.or_eq_false_iff] at hcut
  have hstep : Futex.step s (.decideLeave i) = some (s.goto i (.relock b)) := by
    simp only [Futex.step, Futex.decideLeave, hpc, hcut.1, hcut.2]
    rfl
  exact .step (by simp [Op.isOf]) hstep rfl (.relock (b := b) (by simp [hwoken]) hfree (by simp))

theorem Returns.awake (hpc : (s.w i).pc = .awake b) : Returns i s := by
  have hstep : Futex.step s (.test i) = some (s.goto i (.leaving .ok)) := by
    simp [Futex.step, Futex.test, hpc, hwoken]
  exact .step (by simp [Op.isOf]) hstep rfl (.leaving (by simp [hwoken]) hfree (by simp))

theorem Returns.sleeping (hpc : (s.w i).pc = .sleeping b) (hup : (s.w i).blocked = false) :
    Returns i s := by
  have hstep : Futex.step s (.resume i) = some (s.goto i (.awake b)) := by
    simp [Futex.step, Futex.resume, hpc, hup]
  exact .step (by simp [Op.isOf]) hstep rfl (.awake (b := b) (by simp [hwoken]) hfree (by simp))

end

theorem Inv.returns (hi : Inv s) (hactive : (s.w i).active) (hwoken : (s.w i).woken)
    (hfree : ∀ b, s.lock b = none) : Returns i s := by
  have hw := hi.sound i
  have hok : ∀ r, (s.w i).pc.result = some r → r = .ok := fun r hr => (hw.result r hr).1 hwoken
  cases hpc : (s.w i).pc with
  | idle | forgetting r => simp [hw.active, hpc, Pc.waiting] at hactive
  | sleeping b =>
    have hup : (s.w i).blocked = false := by
      cases hb : (s.w i).blocked with
      | false => rfl
      | true => simp [(hw.asleep hb).1] at hwoken
    exact .sleeping hwoken hfree hpc hup
  | awake b => exact .awake hwoken hfree hpc
  | tested b => exact .tested hwoken hfree hpc (hw.tested b hpc hwoken)
  | relock b => exact .relock hwoken hfree hpc
  | relocked b => simp [hw.relocked b hpc] at hwoken
  | leaving r =>
    cases hok r (by simp [hpc, Pc.result])
    exact .leaving hwoken hfree hpc
  | forget r c =>
    cases hok r (by simp [hpc, Pc.result])
    exact .forget hpc hwoken (hfree c)

theorem Inv.found (hi : Inv s) (hlt : i < maxProcs) (hactive : (s.w i).active)
    (hwoken : (s.w i).woken = false) (hfree : s.lock (bucket (s.w i).key) = none) (n : Nat)
    (hn : ((range i).filter fun j => Futex.found (s.w i).key (s.w j)).length < n) :
    ∃ k s', Futex.wake (s.w i).key n s = some (k, s') ∧ (s'.w i).woken := by
  have hfound : Futex.found (s.w i).key (s.w i) := by
    simp [Futex.found, hactive, hwoken, (hi.sound i).bucket hactive]
  -- the table is what comes before the entry, the entry, and the rest
  have htable : range maxProcs =
      range i ++ i :: (range (maxProcs - (i + 1))).map (i + 1 + ·) := by
    rw [show maxProcs = i + 1 + (maxProcs - (i + 1)) by omega, range_add, range_succ]
    simp
  refine ⟨_, _, by rw [Futex.wake, if_pos hfree], ?_⟩
  simp only [htable]
  refine wakeLoop_woken ?_ 0 s.w hfound (by simpa using hn)
  rw [← range_succ]
  exact nodup_range

theorem Inv.unlocks (hi : Inv s) (h : s.lock b = some i) :
    ∃ op s', op.isOf i ∧ Futex.step s op = some s' ∧ s'.lock b = none := by
  have hh := (hi.lock b i).1 h
  cases hpc : (s.w i).pc <;> simp [Waiter.holds, hpc] at hh
  case relocked c =>
    subst hh
    refine ⟨.block i, if (s.w i).sig then (s.setLock c none).goto i (.leaving .eintr) else
      (s.setLock c none).set i { s.w i with blocked := true, pc := .sleeping c },
      by simp [Op.isOf], ?_, ?_⟩
    · simp only [Futex.step, Futex.block, hpc]
      split <;> rfl
    · split <;> simp [State.set, State.setLock]
  case forgetting r =>
  subst hh
  have hstep : Futex.step s (.forgetUnlock i) = some { (s.setLock (s.w i).bk none).goto i .idle with
      log := ((s.w i).woken, r) :: s.log } := by
    simp only [Futex.step, Futex.forgetUnlock, hpc]
  exact ⟨_, _, by simp [Op.isOf], hstep, by simp [State.setLock]⟩

theorem Inv.conserved (hi : Inv s) : Conserved s where
  counted _ _ _ _ h := wake_count h
  returned := hi.log
  returns _ hactive hwoken hfree := hi.returns hactive hwoken hfree
  found _ hlt hactive hwoken hfree n hn := hi.found hlt hactive hwoken hfree n hn
  unlocks _ _ h := hi.unlocks h

end Steps

theorem wakeups_conserved {s : State} (ops : List Op) (hr : RegularRun boot ops)
    (h : run boot ops = some s) : Conserved s :=
  (Inv.boot.run hr h).conserved

/-- A waiter that has a signal and is woken before it looks at `woken` returns 0. -/
theorem wakeups_conserved_signal :
    let ops : List Op := [.enter 0 ⟨4096, 0⟩ true false, .signal 0, .wake ⟨4096, 0⟩ 1, .resume 0,
      .test 0, .forgetRead 0, .forgetLock 0, .forgetUnlock 0]
    RegularRun boot ops ∧ (run boot ops).map State.log = some [(true, .ok)] ∧
      ∀ s, run boot ops = some s → Conserved s := by
  intro ops
  have hr : RegularRun boot ops := by
    refine ⟨trivial, ?_⟩
    rintro s ⟨⟩
    refine ⟨rfl, ?_⟩
    rintro s ⟨⟩
    refine ⟨fun i hi => ?_, by simp [RegularRun, Regular]⟩
    by_cases h : i = 0
    · subst h
      rfl
    · simp [found, State.set, h, boot] at hi
  exact ⟨hr, by decide +kernel, fun s h => wakeups_conserved ops hr h⟩

/-- A waiter has a signal, finds `woken` unset, is counted by a wake and returns `-EINTR`.
A waiter that was moved is counted by a wake while it goes back to sleep, and sleeps on. -/
theorem wakeups_lost : ((run boot [.enter 0 ⟨4096, 0⟩ true false, .signal 0, .resume 0, .test
    0]).bind (wake ⟨4096, 0⟩ 1)).map Prod.fst = some 1 ∧ (run boot [.enter 0 ⟨4096, 0⟩ true false,
    .signal 0, .resume 0, .test 0, .wake ⟨4096, 0⟩ 1, .decideLeave 0, .forgetRead 0, .forgetLock 0,
    .forgetUnlock 0]).map State.log = some [(true, .eintr)] ∧ (run boot [.enter 0 ⟨4096, 0⟩ true
    false, .requeue ⟨4096, 0⟩ ⟨4096, 4⟩ 0 1 true, .poke 0, .resume 0, .test 0, .decideLeave 0,
    .relock 0, .wake ⟨4096, 4⟩ 1, .block 0]).map (fun s => ((s.w 0).woken, (s.w 0).blocked)) = some
    (true, true) := by
  decide +kernel

end SamaraOS.Futex
