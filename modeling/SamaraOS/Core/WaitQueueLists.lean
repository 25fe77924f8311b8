import SamaraOS.Core.WaitQueue

/-!
# The lists of the wait queues

`ql q` are the entries on the queue `q` and `wl w` those on the chain of the waiter `w`.
Freeing takes entries off the front of a chain, so the chains start at `chain`, which is
where the waiters point between two steps.
-/

namespace SamaraOS.WaitQueue

open Function List

def bare (l : List Nat) : List (Nat × Unit) := l.map fun e => (e, ())

@[simp] theorem keys_bare (l : List Nat) : Dlist.keys (bare l) = l := by
  simp [bare, Dlist.keys, comp_def]

@[simp] theorem first_bare (l : List Nat) : Dlist.first (bare l) none = l.head? := by
  cases l <;> rfl

theorem bare_append (l r : List Nat) : bare (l ++ r) = bare l ++ bare r := by simp [bare]

theorem bare_cons (e : Nat) (l : List Nat) : bare (e :: l) = (e, ()) :: bare l := rfl

structure Lists (s : Sys) (chain : Nat → Option Nat) (ql wl : Nat → List Nat) : Prop where
  seg : ∀ q, Dlist.Seg s.link none (bare (ql q)) none
  head : ∀ q, s.head q = (ql q).head?
  qnodup : ∀ q, (ql q).Nodup
  qmem : ∀ q e, e ∈ ql q ↔ (s.ent e).q = some q
  qused : ∀ e q, (s.ent e).q = some q → (s.ent e).used = true
  linked : ∀ w, Dlist.Linked (fun e => (s.ent e).wnext) (chain w) (wl w)
  wnodup : ∀ w, (wl w).Nodup
  wmem : ∀ w e, e ∈ wl w ↔ (s.ent e).used = true ∧ (s.ent e).w = some w
  cb : ∀ e, (s.ent e).used = true → ((s.ent e).w = none ↔ (s.ent e).cb.isSome = true)
  bound : ∀ e, (s.ent e).used = true → e < nent

section

variable {s s' : Sys} {chain chain' : Nat → Option Nat} {ql wl : Nat → List Nat} {e q w : Nat}
  {l : List Nat}

section

variable (h : Lists s chain ql wl)

include h

theorem Lists.of_eq (hl : s'.link = s.link) (hh : s'.head = s.head)
    (he : s'.ent = s.ent) (hc : chain' = chain) : Lists s' chain' ql wl := by
  subst hc
  exact ⟨hl ▸ h.seg, hh ▸ h.head, h.qnodup, he ▸ h.qmem, he ▸ h.qused, he ▸ h.linked, h.wnodup,
    he ▸ h.wmem, he ▸ h.cb, he ▸ h.bound⟩

theorem Lists.length_le (hn : l.Nodup)
    (hl : ∀ e ∈ l, (s.ent e).used = true) : l.length ≤ nent := by
  have hsub : l ⊆ List.range nent := fun e he => mem_range.2 (h.bound e (hl e he))
  simpa using (subperm_of_subset hn hsub).length_le

theorem Lists.wlength (w : Nat) : (wl w).length ≤ nent :=
  h.length_le (h.wnodup w) fun e he => ((h.wmem w e).1 he).1

theorem Lists.qlength (q : Nat) : (ql q).length ≤ nent :=
  h.length_le (h.qnodup q) fun e he => h.qused e q ((h.qmem q e).1 he)

theorem Lists.same_queue {q' : Nat} (hq : e ∈ ql q) (hq' : e ∈ ql q') : q = q' := by
  have hname := (h.qmem q e).1 hq
  rw [(h.qmem q' e).1 hq'] at hname
  exact (Option.some.inj hname).symm

/-! ## Taking entries out -/

omit h in
theorem unlink_frame (s : Sys) (e : Nat) :
    (unlink s e).ws = s.ws ∧ (unlink s e).task = s.task ∧ (unlink s e).now = s.now := by
  unfold unlink
  split <;> exact ⟨rfl, rfl, rfl⟩

omit h in
theorem unlink_ent (s : Sys) (e : Nat) :
    (unlink s e).ent = update s.ent e { s.ent e with q := none } := by
  unfold unlink
  split
  next hq => simp [← hq]
  · rfl

theorem Lists.unlink_links (hq : (s.ent e).q = some q) :
    Dlist.Seg (unlink s e).link none (bare ((ql q).erase e)) none ∧
      (unlink s e).head q = ((ql q).erase e).head? ∧ (∀ q' ≠ q, (unlink s e).head q' = s.head q') ∧
      ∀ y, y ∉ ql q → (unlink s e).link y = s.link y := by
  obtain ⟨pre, post, hsplit⟩ := append_of_mem ((h.qmem q e).2 hq)
  have hn := h.qnodup q
  have hseg := h.seg q
  have hhead := h.head q
  rw [hsplit] at hn hseg hhead ⊢
  have hpre : e ∉ pre := fun hmem => (nodup_append.1 hn).2.2 e hmem e (by simp) rfl
  rw [erase_append_right _ hpre, erase_cons_head]
  rw [bare_append, bare_cons] at hseg
  have hkeys : (Dlist.keys (bare pre ++ (e, ()) :: bare post)).Nodup := by simpa using hn
  unfold unlink
  rw [hq]
  refine ⟨?_, ?_, fun q' hne => ?_, fun y hy => ?_⟩
  · rw [bare_append]
    exact hseg.unlink hkeys
  · simp only [hseg.node, first_bare, Dlist.last_eq_none]
    cases pre with
    | nil => simp [bare]
    | cons u pre => simpa [bare] using hhead
  · simp only
    split
    · exact update_of_ne hne _ _
    · rfl
  simp only [mem_append, mem_cons, not_or] at hy
  exact Dlist.unlink_other hseg (by simpa using hy.1) (by simpa using hy.2.2)

theorem Lists.unlink (e : Nat) :
    Lists (WaitQueue.unlink s e) chain (fun q => (ql q).erase e) wl := by
  have hent := unlink_ent s e
  have hsame : ∀ y, ((WaitQueue.unlink s e).ent y).wnext = (s.ent y).wnext ∧
      ((WaitQueue.unlink s e).ent y).used = (s.ent y).used ∧
      ((WaitQueue.unlink s e).ent y).w = (s.ent y).w ∧
      ((WaitQueue.unlink s e).ent y).cb = (s.ent y).cb := by
    intro y
    rw [hent, update_apply]
    split
    next hy => exact hy ▸ ⟨rfl, rfl, rfl, rfl⟩
    · exact ⟨rfl, rfl, rfl, rfl⟩
  have hq : ∀ y, ((WaitQueue.unlink s e).ent y).q = if y = e then none else (s.ent y).q := by
    intro y
    rw [hent, update_apply]
    split <;> rfl
  have hlinks : ∀ q, Dlist.Seg (WaitQueue.unlink s e).link none (bare ((ql q).erase e)) none ∧
      (WaitQueue.unlink s e).head q = ((ql q).erase e).head? := by
    intro q
    cases hqe : (s.ent e).q with
    | none =>
      have hno : e ∉ ql q := fun hmem => by simp [(h.qmem q e).1 hmem] at hqe
      rw [erase_of_not_mem hno]
      simpa [WaitQueue.unlink, hqe] using ⟨h.seg q, h.head q⟩
    | some q₀ =>
      obtain ⟨hseg, hhead, hheads, hlink⟩ := h.unlink_links hqe
      by_cases hne : q = q₀
      · exact hne ▸ ⟨hseg, hhead⟩
      have hno : e ∉ ql q := fun hmem => hne (h.same_queue hmem ((h.qmem q₀ e).2 hqe))
      rw [erase_of_not_mem hno, hheads q hne]
      refine ⟨(h.seg q).congr fun y hy => hlink y fun hmem => hne ?_, h.head q⟩
      rw [keys_bare] at hy
      exact h.same_queue hy hmem
  refine ⟨fun q => (hlinks q).1, fun q => (hlinks q).2, fun q => (h.qnodup q).erase e,
    fun q y => ?_, fun y q hy => ?_, fun w => ?_, h.wnodup, fun w y => ?_, fun y => ?_, fun y => ?_⟩
  · rw [(h.qnodup q).mem_erase_iff, h.qmem q y, hq y]
    split
    next hy => simp [hy]
    next hy => simp [hy]
  · rw [(hsame y).2.1]
    rw [hq y] at hy
    split at hy
    · cases hy
    · exact h.qused y q hy
  · exact (h.linked w).congr fun y _ => (hsame y).1
  · rw [(hsame y).2.1, (hsame y).2.2.1]
    exact h.wmem w y
  · rw [(hsame y).2.1, (hsame y).2.2.1, (hsame y).2.2.2]
    exact h.cb y
  rw [(hsame y).2.1]
  exact h.bound y

omit h in
theorem freeEnt_frame (s : Sys) (e : Nat) :
    (freeEnt s e).ws = s.ws ∧ (freeEnt s e).task = s.task ∧ (freeEnt s e).now = s.now :=
  unlink_frame s e

omit h in
theorem freeEnt_ent (s : Sys) (e : Nat) :
    (freeEnt s e).ent = update s.ent e { s.ent e with q := none, used := false } := by
  simp [freeEnt, setEnt, unlink_ent]

theorem Lists.freeEnt (e : Nat) (chain' : Nat → Option Nat)
    (hchain : ∀ w, Dlist.Linked (fun e => (s.ent e).wnext) (chain' w) ((wl w).erase e)) :
    Lists (WaitQueue.freeEnt s e) chain' (fun q => (ql q).erase e) fun w => (wl w).erase e := by
  have hu := h.unlink e
  have hent := freeEnt_ent s e
  have hother : ∀ y, y ≠ e → (WaitQueue.freeEnt s e).ent y = s.ent y := by
    intro y hy
    rw [hent, update_of_ne hy]
  have hsame : (WaitQueue.freeEnt s e).ent e = { s.ent e with q := none, used := false } := by
    rw [hent, update_self]
  refine ⟨hu.seg, hu.head, hu.qnodup, fun q y => ?_, fun y q hy => ?_, fun w => ?_,
    fun w => (h.wnodup w).erase e, fun w y => ?_, fun y => ?_, fun y => ?_⟩
  · rw [(h.qnodup q).mem_erase_iff, h.qmem]
    by_cases hy : y = e
    · simp [hy, hsame]
    · simp [hy, hother y hy]
  · by_cases hye : y = e
    · simp [hye, hsame] at hy
    rw [hother y hye] at hy ⊢
    exact h.qused y q hy
  · refine (hchain w).congr fun y hy => ?_
    rw [hother y]
    exact fun hye => ((h.wnodup w).mem_erase_iff.1 hy).1 hye
  · rw [(h.wnodup w).mem_erase_iff, h.wmem]
    by_cases hy : y = e
    · simp [hy, hsame]
    · simp [hy, hother y hy]
  · by_cases hy : y = e
    · simp [hy, hsame]
    rw [hother y hy]
    exact h.cb y
  by_cases hy : y = e
  · simp [hy, hsame]
  rw [hother y hy]
  exact h.bound y

theorem Lists.not_mem {w' : Nat} (hw : e ∈ wl w) (hne : w' ≠ w) : e ∉ wl w' := by
  intro hw'
  have h1 := ((h.wmem w e).1 hw).2
  rw [((h.wmem w' e).1 hw').2] at h1
  exact hne (Option.some.inj h1)

omit h in
theorem freeChain_frame (fuel : Nat) (o : Option Nat) :
    (freeChain fuel o s).ws = s.ws ∧ (freeChain fuel o s).task = s.task ∧
      (freeChain fuel o s).now = s.now := by
  induction fuel generalizing o s with
  | zero => exact ⟨rfl, rfl, rfl⟩
  | succ fuel ih =>
    cases o with
    | none => exact ⟨rfl, rfl, rfl⟩
    | some e =>
      obtain ⟨h1, h2, h3⟩ := ih (s := freeEnt s e) ((freeEnt s e).ent e).wnext
      obtain ⟨f1, f2, f3⟩ := freeEnt_frame s e
      exact ⟨h1.trans f1, h2.trans f2, h3.trans f3⟩

theorem Lists.freeChain (hl : wl w = l) {fuel : Nat} (hfuel : l.length ≤ fuel) :
    ∃ ql' wl', Lists (freeChain fuel (chain w) s) (update chain w none) ql' wl' ∧
      wl' w = [] ∧ ∀ w' ≠ w, wl' w' = wl w' := by
  induction l generalizing s chain ql wl fuel with
  | nil =>
    have hnone : chain w = none := by simpa [hl, Dlist.Linked] using h.linked w
    refine ⟨ql, wl, ?_, hl, fun _ _ => rfl⟩
    rw [hnone]
    have hsame : update chain w none = chain := by
      rw [← hnone, update_eq_self]
    cases fuel <;> exact h.of_eq rfl rfl rfl hsame
  | cons e l ih =>
    obtain ⟨fuel, rfl⟩ : ∃ f, fuel = f + 1 := ⟨fuel - 1, by simp at hfuel; omega⟩
    have hlink := h.linked w
    rw [hl] at hlink
    obtain ⟨hhead, htail⟩ := hlink
    have hmem : e ∈ wl w := by simp [hl]
    have hother : ∀ w' ≠ w, (wl w').erase e = wl w' := fun w' hne =>
      erase_of_not_mem (h.not_mem hmem hne)
    have hfree := h.freeEnt e (update chain w (s.ent e).wnext) (by
      intro w'
      by_cases hne : w' = w
      · subst hne
        simpa [hl] using htail
      rw [update_of_ne hne, hother w' hne]
      exact h.linked w')
    have hl' : (fun w => (wl w).erase e) w = l := by simp [hl]
    obtain ⟨ql', wl', hlists, hnil, hrest⟩ := ih hfree hl' (by simpa using hfuel)
    refine ⟨ql', wl', ?_, hnil, fun w' hne => (hrest w' hne).trans (hother w' hne)⟩
    rw [hhead, WaitQueue.freeChain]
    rw [update_self, update_idem] at hlists
    have hnext : ((WaitQueue.freeEnt s e).ent e).wnext = (s.ent e).wnext := by
      rw [freeEnt_ent, update_self]
    simp only [hnext]
    exact hlists

end

def chainOf (s : Sys) (w : Nat) : Option Nat := (s.waiter w).ents

theorem waiter_setWaiter (s : Sys) (w v : Nat) (x : Waiter) :
    (setWaiter s w x).waiter v = if v = w ∧ w < s.ws.length then x else s.waiter v := by
  simp only [Sys.waiter, setWaiter, getD_eq_getElem?_getD, getElem?_set]
  by_cases hv : w = v
  · subst hv
    by_cases hlt : w < s.ws.length
    · simp [hlt]
    · simp [hlt]
  · simp [hv, Ne.symm hv]

theorem waiter_default (h : s.ws.length ≤ w) : s.waiter w = {} := by
  simp [Sys.waiter, getD_eq_getElem?_getD, getElem?_eq_none h]

theorem waiter_lt (h : (s.waiter w).used = true) : w < s.ws.length := by
  by_contra hge
  rw [waiter_default (Nat.le_of_not_lt hge)] at h
  cases h

def Shape (s : Sys) : Prop :=
  ∃ ql wl, Lists s (chainOf s) ql wl ∧ ∀ w, (s.waiter w).used = false → wl w = []

theorem Shape.of_waiters (h : Shape s) (hl : s'.link = s.link) (hh : s'.head = s.head)
    (he : s'.ent = s.ent)
    (hw : ∀ w, (s'.waiter w).ents = (s.waiter w).ents ∧ (s'.waiter w).used = (s.waiter w).used) :
    Shape s' := by
  obtain ⟨ql, wl, hlists, hfree⟩ := h
  exact ⟨ql, wl, hlists.of_eq hl hh he (funext fun w => (hw w).1),
    fun w hu => hfree w ((hw w).2 ▸ hu)⟩

theorem Shape.setWaiter (h : Shape s) {x : Waiter} (hents : x.ents = (s.waiter w).ents)
    (hused : x.used = (s.waiter w).used) : Shape (setWaiter s w x) := by
  refine h.of_waiters rfl rfl rfl fun v => ?_
  rw [waiter_setWaiter]
  split
  next hv => exact hv.1 ▸ ⟨hents, hused⟩
  · exact ⟨rfl, rfl⟩

theorem Shape.wqWaiterFree (h : Shape s) (w : Nat) : Shape (wqWaiterFree s w) := by
  obtain ⟨ql, wl, hlists, hfree⟩ := h
  obtain ⟨ql', wl', hnew, hnil, hrest⟩ := hlists.freeChain rfl (hlists.wlength w)
  have hws := (freeChain_frame (s := s) nent (s.waiter w).ents).1
  have hwaiter : ∀ v, (freeChain nent (s.waiter w).ents s).waiter v = s.waiter v := fun v => by
    rw [Sys.waiter, hws]
    rfl
  unfold WaitQueue.wqWaiterFree
  refine ⟨ql', wl', hnew.of_eq rfl rfl rfl (funext fun v => ?_), fun v hv => ?_⟩
  · rw [chainOf, waiter_setWaiter, hws]
    by_cases hvw : v = w
    · subst hvw
      rw [update_self]
      split
      · rfl
      next hlt => rw [hwaiter, waiter_default (by omega)]
    rw [if_neg fun hc => hvw hc.1, hwaiter, update_of_ne hvw]
    rfl
  by_cases hvw : v = w
  · exact hvw ▸ hnil
  rw [waiter_setWaiter, if_neg fun hc => hvw hc.1, hwaiter] at hv
  rw [hrest v hvw, hfree v hv]

theorem Lists.push (h : Lists s chain ql wl) (hfree : (s.ent e).used = false) (he : e < nent)
    (q : Nat) {x : Ent} (hused : x.used = true) (hq : x.q = some q)
    (hcb : x.w = none ↔ x.cb.isSome = true) (hnext : ∀ w, x.w = some w → x.wnext = chain w) :
    Lists { s with
        ent := update s.ent e x
        link := Dlist.pushFront s.link (s.head q) e ()
        head := update s.head q (some e) }
      (fun w => if x.w = some w then some e else chain w)
      (update ql q (e :: ql q)) (fun w => if x.w = some w then e :: wl w else wl w) := by
  have hnq : ∀ q, e ∉ ql q := fun q hmem => by
    simp [h.qused e q ((h.qmem q e).1 hmem)] at hfree
  have hnw : ∀ w, e ∉ wl w := fun w hmem => by
    simp [((h.wmem w e).1 hmem).1] at hfree
  have hfirst : s.head q = Dlist.first (bare (ql q)) none := by rw [first_bare, h.head]
  have hlink : ∀ w, Dlist.Linked (fun y => (update s.ent e x y).wnext) (chain w) (wl w) :=
    fun w => (h.linked w).congr fun y hy => by
      have hye : y ≠ e := fun hye => hnw w (hye ▸ hy)
      rw [update_of_ne hye]
  refine ⟨fun q' => ?_, fun q' => ?_, fun q' => ?_, fun q' y => ?_, fun y q' hy => ?_, fun w => ?_,
    fun w => ?_, fun w y => ?_, fun y hy => ?_, fun y hy => ?_⟩
  · simp only [hfirst]
    by_cases hq' : q' = q
    · subst hq'
      rw [update_self, bare_cons]
      exact (h.seg q').pushFront (by simpa using h.qnodup q') (by simpa using hnq q')
    rw [update_of_ne hq']
    refine (h.seg q').congr fun y hy => Dlist.pushFront_other ?_ ?_
    · rw [keys_bare] at hy ⊢
      exact fun hmem => hq' (h.same_queue hy hmem)
    rw [keys_bare] at hy
    exact fun hye => hnq q' (hye ▸ hy)
  · simp only
    by_cases hq' : q' = q
    · subst hq'
      simp
    · rw [update_of_ne hq', update_of_ne hq', h.head]
  · by_cases hq' : q' = q
    · subst hq'
      rw [update_self]
      exact nodup_cons.2 ⟨hnq q', h.qnodup q'⟩
    rw [update_of_ne hq']
    exact h.qnodup q'
  · simp only [update_apply]
    by_cases hy : y = e
    · subst hy
      rw [if_pos rfl, hq]
      by_cases hq' : q' = q
      · simp [hq']
      · simp [hq', hnq q', Ne.symm hq']
    rw [if_neg hy, ← h.qmem q' y]
    split
    next hq' => simp [hy, hq']
    · rfl
  · simp only [update_apply] at hy ⊢
    split
    · exact hused
    next hne =>
    rw [if_neg hne] at hy
    exact h.qused y q' hy
  · by_cases hw : x.w = some w
    · rw [if_pos hw, if_pos hw]
      refine ⟨rfl, ?_⟩
      simp only [update_self]
      rw [hnext w hw]
      exact hlink w
    rw [if_neg hw, if_neg hw]
    exact hlink w
  · split
    · exact nodup_cons.2 ⟨hnw w, h.wnodup w⟩
    · exact h.wnodup w
  · simp only [update_apply]
    by_cases hy : y = e
    · subst hy
      split
      next hw => simp [hw, hused]
      next hw => simp [hw, hnw w]
    rw [if_neg hy, ← h.wmem w y]
    split
    · simp [hy]
    · rfl
  · simp only [update_apply] at hy ⊢
    split
    · exact hcb
    next hne =>
    rw [if_neg hne] at hy
    exact h.cb y hy
  simp only [update_apply] at hy
  split at hy
  next hye => exact hye ▸ he
  · exact h.bound y hy

end

end SamaraOS.WaitQueue
