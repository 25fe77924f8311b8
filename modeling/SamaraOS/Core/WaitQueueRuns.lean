import SamaraOS.Core.WaitQueueLists

/-!
# Runs of the wait queues

A task that is blocked in `wq_sleep` has seen every wake of its queues, and the tick gets it
out when its time is up.  The lists are right as long as a killed task makes no more calls,
which is what `gc` takes for granted.
-/

namespace SamaraOS.WaitQueue

open Function List

structure Proto (s : Sys) : Prop where
  length : s.ws.length = nw
  hold : ∀ t, gone s t = false → ∀ w ∈ (s.task t).hold,
    (s.waiter w).used = true ∧ (s.waiter w).t = t
  nodup : ∀ t, (s.task t).hold.Nodup
  sleeping : ∀ t, gone s t = false → ∀ w, (s.task t).sleeping = some w → w ∈ (s.task t).hold
  blocked : ∀ t, (s.task t).state = .blocked → ∃ w, (s.task t).sleeping = some w ∧
    (s.waiter w).due = false ∧ s.now < (s.task t).deadline ∧
    (s.task t).wakeMs = (s.task t).deadline % 2 ^ 32 ∧ (s.task t).wakeMs ≠ 0
  due : ∀ w, (s.waiter w).due = true → (s.waiter w).fired = true ∨ (s.waiter w).checked = false

section

variable {s s' s₀ : Sys} {t w q e : Nat} {x : Waiter} {k : Task}

theorem gone_eq_false : gone s t = false ↔ (s.task t).state = .ready ∨ (s.task t).state = .blocked := by
  unfold gone
  cases (s.task t).state <;> simp

theorem Proto.of_eq (h : Proto s) (hw : s'.ws = s.ws) (ht : s'.task = s.task)
    (hn : s'.now = s.now) : Proto s' := by
  obtain ⟨link, ent, head, ws, task, cond, now⟩ := s
  cases hw
  cases ht
  cases hn
  exact ⟨h.length, h.hold, h.nodup, h.sleeping, h.blocked, h.due⟩

theorem Proto.not_due (h : Proto s) (hb : (s.task t).state = .blocked)
    (hsl : (s.task t).sleeping = some w) : (s.waiter w).due = false := by
  obtain ⟨v, hv, hd, -⟩ := h.blocked t hb
  rw [hsl] at hv
  cases hv
  exact hd

theorem Proto.setWaiter (h : Proto s)
    (hhold : ∀ t, gone s t = false → w ∈ (s.task t).hold → x.used = true ∧ x.t = t)
    (hblocked : ∀ t, (s.task t).state = .blocked → (s.task t).sleeping = some w → x.due = false)
    (hdue : x.due = true → x.fired = true ∨ x.checked = false) : Proto (setWaiter s w x) := by
  refine ⟨by simp [WaitQueue.setWaiter, h.length], fun t ht v hv => ?_, h.nodup, h.sleeping,
    fun t ht => ?_, fun v => ?_⟩
  · rw [waiter_setWaiter]
    split
    next hvw =>
      obtain ⟨rfl, -⟩ := hvw
      exact hhold t ht hv
    · exact h.hold t ht v hv
  · obtain ⟨v, hv, hd, hrest⟩ := h.blocked t ht
    refine ⟨v, hv, ?_, hrest⟩
    rw [waiter_setWaiter]
    split
    next hvw => exact hblocked t ht (hvw.1 ▸ hv)
    · exact hd
  rw [waiter_setWaiter]
  split
  · exact hdue
  · exact h.due v

theorem Proto.setTask (h : Proto s) (hhold : (k.state = .ready ∨ k.state = .blocked) → ∀
    w ∈ k.hold, (s.waiter w).used = true ∧ (s.waiter w).t = t) (hnodup : k.hold.Nodup)
    (hsleep : (k.state = .ready ∨ k.state = .blocked) → ∀ w, k.sleeping = some w → w ∈ k.hold)
    (hblocked : k.state = .blocked → ∃ w, k.sleeping = some w ∧ (s.waiter w).due = false ∧ s.now <
    k.deadline ∧ k.wakeMs = k.deadline % 2 ^ 32 ∧ k.wakeMs ≠ 0) : Proto (setTask s t k) := by
  have htask : ∀ t', (WaitQueue.setTask s t k).task t' = if t' = t then k else s.task t' :=
    fun t' => update_apply _ _ _ _
  have hgone : ∀ t', t' ≠ t → gone (WaitQueue.setTask s t k) t' = gone s t' := fun t' hne => by
    simp only [gone, htask, if_neg hne]
  refine ⟨h.length, fun t' ht' => ?_, fun t' => ?_, fun t' ht' => ?_, fun t' => ?_, h.due⟩
  · by_cases hne : t' = t
    · subst hne
      rw [gone_eq_false, htask, if_pos rfl] at ht'
      rw [htask, if_pos rfl]
      exact hhold ht'
    rw [hgone t' hne] at ht'
    rw [htask, if_neg hne]
    exact h.hold t' ht'
  · rw [htask]
    split
    · exact hnodup
    · exact h.nodup t'
  · by_cases hne : t' = t
    · subst hne
      rw [gone_eq_false, htask, if_pos rfl] at ht'
      rw [htask, if_pos rfl]
      exact hsleep ht'
    rw [hgone t' hne] at ht'
    rw [htask, if_neg hne]
    exact h.sleeping t' ht'
  rw [htask]
  split
  · exact hblocked
  · exact h.blocked t'

/-! ## Pools -/

structure Inv (s : Sys) : Prop where
  shape : Shape s
  proto : Proto s

theorem wqWaiterFree_frame (s : Sys) (w : Nat) :
    (wqWaiterFree s w).ws = s.ws.set w { s.waiter w with ents := none, used := false } ∧
      (wqWaiterFree s w).task = s.task ∧ (wqWaiterFree s w).now = s.now := by
  obtain ⟨hws, htask, hnow⟩ := freeChain_frame (s := s) nent (s.waiter w).ents
  refine ⟨?_, htask, hnow⟩
  simp only [wqWaiterFree, setWaiter, Sys.waiter] at hws ⊢
  rw [hws]

theorem Inv.wqWaiterFree (h : Inv s) (hw : ∀ t, gone s t = false → w ∉ (s.task t).hold) :
    Inv (wqWaiterFree s w) := by
  obtain ⟨hws, htask, hnow⟩ := wqWaiterFree_frame s w
  refine ⟨h.shape.wqWaiterFree w, .of_eq (h.proto.setWaiter (w := w) ?_ ?_ ?_) hws htask hnow⟩
  · exact fun t ht hmem => absurd hmem (hw t ht)
  · exact fun t ht hsl => h.proto.not_due ht hsl
  · exact h.proto.due w

theorem gc_spec (h : Inv s) : Inv (gc s) ∧ (gc s).task = s.task ∧ (gc s).now = s.now := by
  unfold gc
  generalize range nw = ws
  induction ws generalizing s with
  | nil => exact ⟨h, rfl, rfl⟩
  | cons w ws ih =>
    rw [foldl_cons]
    split
    next hc =>
      rw [Bool.and_eq_true] at hc
      have hfree : Inv (wqWaiterFree s w) := h.wqWaiterFree fun t ht hmem => by
        rw [(h.proto.hold t ht w hmem).2, ht] at hc
        cases hc.2
      obtain ⟨hinv, htask, hnow⟩ := ih hfree
      obtain ⟨-, ft, fn⟩ := wqWaiterFree_frame s w
      exact ⟨hinv, htask.trans ft, hnow.trans fn⟩
    · exact ih h

theorem search_spec (h : Inv s) (find : Sys → Option Nat) :
    Inv (search s find).1 ∧ (search s find).1.task = s.task ∧ (search s find).1.now = s.now ∧
      ∀ i, (search s find).2 = some i → find (search s find).1 = some i := by
  unfold search
  split
  next i hi => exact ⟨h, rfl, rfl, fun j hj => hj ▸ hi⟩
  obtain ⟨hinv, htask, hnow⟩ := gc_spec h
  generalize gc s = s1 at hinv htask hnow ⊢
  simp only
  split
  next i hi => exact ⟨hinv, htask, hnow, fun j hj => hj ▸ hi⟩
  obtain ⟨hinv', htask', hnow'⟩ := gc_spec hinv
  generalize gc s1 = s2 at hinv' htask' hnow' ⊢
  exact ⟨hinv', htask'.trans htask, hnow'.trans hnow, fun j hj => by cases hj⟩

theorem freeWaiter_spec (h : freeWaiter s = some w) :
    w < s.ws.length ∧ (s.waiter w).used = false := by
  obtain ⟨hlt, hused, -⟩ := findIdx?_eq_some_iff_getElem.1 h
  refine ⟨hlt, ?_⟩
  simpa [Sys.waiter, getD_eq_getElem?_getD, hlt] using hused

theorem freeEntry_spec (h : freeEntry s = some e) : e < nent ∧ (s.ent e).used = false := by
  unfold freeEntry at h
  exact ⟨mem_range.1 (mem_of_find?_eq_some h), by simpa using find?_some h⟩

theorem Shape.newWaiter (h : Shape s) (hfree : (s.waiter w).used = false) (t : Nat) :
    Shape (WaitQueue.setWaiter s w { t := t, used := true }) := by
  obtain ⟨ql, wl, hlists, hempty⟩ := h
  have hnone : (s.waiter w).ents = none := by
    simpa [hempty w hfree, Dlist.Linked, chainOf] using hlists.linked w
  refine ⟨ql, wl, hlists.of_eq rfl rfl rfl (funext fun v => ?_), fun v hv => ?_⟩
  · rw [chainOf, chainOf, waiter_setWaiter]
    split
    next hvw => rw [hvw.1, hnone]
    · rfl
  rw [waiter_setWaiter] at hv
  split at hv
  · cases hv
  · exact hempty v hv

theorem Inv.waiter (h : Inv s) (ht : gone s t = false) : Inv (next s (.waiter t)) := by
  simp only [next]
  split
  swap
  · exact h
  next hsleep =>
  obtain ⟨hinv, htask, hnow, hfound⟩ := search_spec h freeWaiter
  unfold wqWaiter
  split at *
  next s1 hs1 =>
    split at hs1
    next s2 hs2 =>
      cases hs1
      rw [hs2] at hinv
      exact hinv
    · cases hs1
  next s1 w hs1 =>
  split at hs1
  · cases hs1
  next s2 w' hs2 =>
  cases hs1
  rw [hs2] at hinv htask hnow hfound
  obtain ⟨hlt, hfree⟩ := freeWaiter_spec (hfound w rfl)
  have ht2 : gone s2 t = false := by
    rw [gone_eq_false, htask]
    exact gone_eq_false.1 ht
  have hnot : ∀ t', gone s2 t' = false → w ∉ (s2.task t').hold := fun t' ht' hmem => by
    simp [(hinv.proto.hold t' ht' w hmem).1] at hfree
  have hset : Proto (setWaiter s2 w { t := t, used := true }) :=
    hinv.proto.setWaiter (fun t' ht' hmem => absurd hmem (hnot t' ht'))
      (fun _ _ _ => rfl) (fun hd => by cases hd)
  have hnew : (setWaiter s2 w { t := t, used := true }).waiter w = { t := t, used := true } := by
    rw [waiter_setWaiter, if_pos ⟨rfl, hlt⟩]
  refine ⟨(hinv.shape.newWaiter hfree t).of_waiters rfl rfl rfl fun _ => ⟨rfl, rfl⟩,
    hset.setTask ?_ ?_ ?_ ?_⟩
  · intro _ v hv
    rcases mem_cons.1 hv with rfl | hv
    · rw [hnew]
      exact ⟨rfl, rfl⟩
    · exact hset.hold t ht2 v hv
  · exact nodup_cons.2 ⟨hnot t ht2, hinv.proto.nodup t⟩
  · exact fun _ v hv => mem_cons_of_mem _ (hinv.proto.sleeping t ht2 v hv)
  · exact hset.blocked t

theorem Inv.wqAdd (h : Inv s) (ht : gone s t = false) (hw : w ∈ (s.task t).hold) (q : Nat) :
    Inv (wqAdd s q w).1 ∧ (wqAdd s q w).1.task = s.task := by
  obtain ⟨hinv, htask, hnow, hfound⟩ := search_spec h freeEntry
  unfold WaitQueue.wqAdd entNew
  generalize search s freeEntry = r at *
  obtain ⟨s1, _ | e⟩ := r
  · exact ⟨hinv, htask⟩
  obtain ⟨he, hfree⟩ := freeEntry_spec (hfound e rfl)
  have ht1 : gone s1 t = false := by
    rw [gone_eq_false, htask]
    exact gone_eq_false.1 ht
  obtain ⟨hused, hwt⟩ := hinv.proto.hold t ht1 w (htask ▸ hw)
  have hlt := waiter_lt hused
  obtain ⟨⟨ql, wl, hlists, hempty⟩, hproto⟩ := hinv
  refine ⟨⟨⟨_, _, (hlists.push hfree he q (x := { s1.ent e with
    used := true, q := some q, w := some w, cb := none, wnext := (s1.waiter w).ents })
    rfl rfl (by simp) (fun v hv => by cases hv; rfl)).of_eq rfl rfl ?_ (funext fun v => ?_),
    fun v hv => ?_⟩, ?_⟩, htask⟩
  · simp [setWaiter, setEnt, Sys.waiter]
  · rw [chainOf, waiter_setWaiter]
    by_cases hv : v = w
    · subst hv
      simp [setEnt, hlt]
    · simp [setEnt, hv, Ne.symm hv, chainOf, Sys.waiter]
  · rw [waiter_setWaiter] at hv
    split at hv
    · simp [setEnt, Sys.waiter] at hv hused
      rw [hused] at hv
      cases hv
    next hne =>
    have hvw : w ≠ v := fun heq => hne ⟨heq.symm, hlt⟩
    simp only [Option.some.injEq, hvw, if_false]
    exact hempty v hv
  refine .of_eq (hproto.setWaiter (w := w) (x := { s1.waiter w with ents := some e })
    (fun t' ht' hmem => hproto.hold t' ht' w hmem) (fun t' hb hsl => hproto.not_due hb hsl)
    (hproto.due w)) rfl rfl rfl

theorem Inv.wqAddCb (h : Inv s) (q cb : Nat) : Inv (wqAddCb s q cb).1 := by
  obtain ⟨hinv, htask, hnow, hfound⟩ := search_spec h freeEntry
  unfold WaitQueue.wqAddCb entNew
  generalize search s freeEntry = r at *
  obtain ⟨s1, _ | e⟩ := r
  · exact hinv
  obtain ⟨he, hfree⟩ := freeEntry_spec (hfound e rfl)
  obtain ⟨⟨ql, wl, hlists, hempty⟩, hproto⟩ := hinv
  refine ⟨⟨_, _, (hlists.push hfree he q (x := { s1.ent e with
    used := true, q := some q, w := none, cb := some cb, wnext := none })
    rfl rfl (by simp) (fun v hv => by cases hv)).of_eq rfl rfl ?_ (funext fun v => ?_),
    fun v hv => ?_⟩, .of_eq hproto rfl rfl rfl⟩
  · simp [setEnt]
  · simp [setEnt, chainOf, Sys.waiter]
  · simpa using hempty v hv

theorem Inv.wqDel (h : Inv s) (e : Nat) : Inv (wqDel s e) := by
  unfold WaitQueue.wqDel
  split
  swap
  · exact h
  next hc =>
  rw [Bool.and_eq_true, Option.isNone_iff_eq_none] at hc
  obtain ⟨⟨ql, wl, hlists, hempty⟩, hproto⟩ := h
  obtain ⟨fw, ft, fn⟩ := freeEnt_frame s e
  have hno : ∀ w, e ∉ wl w := fun w hmem => by
    rw [((hlists.wmem w e).1 hmem).2] at hc
    cases hc.2
  have hwaiter : ∀ v, (freeEnt s e).waiter v = s.waiter v := fun v => by
    rw [Sys.waiter, fw]
    rfl
  have hfree := hlists.freeEnt e (chainOf s) fun w => by
    rw [erase_of_not_mem (hno w)]
    exact hlists.linked w
  refine ⟨⟨_, _, hfree.of_eq rfl rfl rfl (funext fun v => ?_), fun v hv => ?_⟩,
    hproto.of_eq fw ft fn⟩
  · rw [chainOf, hwaiter]
    rfl
  rw [hwaiter] at hv
  simp [hempty v hv]

/-! ## Waking -/

structure Woken (s s' : Sys) : Prop where
  length : s'.ws.length = s.ws.length
  waiter : ∀ w, s'.waiter w = { s.waiter w with fired := (s'.waiter w).fired }
  fired : ∀ w, (s.waiter w).fired = true → (s'.waiter w).fired = true
  task : ∀ t, s'.task t = s.task t ∨
    (s.task t).state = .blocked ∧ s'.task t = { s.task t with state := .ready, wakeMs := 0 }
  now : s'.now = s.now

theorem Woken.of_eq (hw : s'.ws = s.ws) (ht : s'.task = s.task) (hn : s'.now = s.now) :
    Woken s s' := by
  have hwaiter : ∀ w, s'.waiter w = s.waiter w := fun w => by rw [Sys.waiter, hw]; rfl
  exact ⟨by rw [hw], fun w => by rw [hwaiter], fun w h => by rw [hwaiter]; exact h,
    fun t => .inl (by rw [ht]), hn⟩

theorem Woken.trans {s'' : Sys} (h : Woken s s') (h' : Woken s' s'') : Woken s s'' := by
  refine ⟨h'.length.trans h.length, fun w => ?_, fun w hw => h'.fired w (h.fired w hw), fun t => ?_,
    h'.now.trans h.now⟩
  · conv_lhs => rw [h'.waiter w, h.waiter w]
  rcases h'.task t with h1 | ⟨hb, h1⟩
  · rw [h1]
    exact h.task t
  rcases h.task t with h2 | ⟨-, h2⟩
  · rw [h2] at h1 hb
    exact .inr ⟨hb, h1⟩
  rw [h2] at hb
  cases hb

section

variable (s : Sys) (e t : Nat)

theorem taskReady_woken : Woken s (taskReady s t) := by
  unfold taskReady
  split
  swap
  · exact .of_eq rfl rfl rfl
  next hb =>
  refine ⟨rfl, fun _ => rfl, fun _ h => h, fun t' => ?_, rfl⟩
  simp only [setTask, update_apply]
  split
  next heq =>
    subst heq
    exact .inr ⟨hb, rfl⟩
  · exact .inl rfl

theorem taskReady_state : ((taskReady s t).task t).state ≠ .blocked := by
  unfold taskReady
  split
  · simp [setTask]
  next hb => exact hb

theorem setFired_woken (w : Nat) : Woken s (setWaiter s w { s.waiter w with fired := true }) := by
  refine ⟨by simp [setWaiter], fun v => ?_, fun v hv => ?_, fun _ => .inl rfl, rfl⟩
  · rw [waiter_setWaiter]
    split
    next hc => rw [hc.1]
    · rfl
  rw [waiter_setWaiter]
  split
  · rfl
  · exact hv

theorem fire_woken : Woken s (fire s e) := by
  unfold fire
  split
  · exact taskReady_woken _ _
  · exact (setFired_woken s _).trans (taskReady_woken _ _)
  · exact .of_eq rfl rfl rfl

theorem taskReady_lists : (taskReady s t).link = s.link ∧
    (taskReady s t).head = s.head ∧ (taskReady s t).ent = s.ent := by
  unfold taskReady
  split <;> exact ⟨rfl, rfl, rfl⟩

theorem fire_lists : (fire s e).link = s.link ∧ (fire s e).head = s.head ∧
    (fire s e).ent = s.ent := by
  unfold fire
  split
  · exact taskReady_lists _ _
  · exact taskReady_lists _ _
  · exact ⟨rfl, rfl, rfl⟩

end

def Awake (s : Sys) (w : Nat) : Prop :=
  (s.waiter w).fired = true ∧ (s.task (s.waiter w).t).state ≠ .blocked

theorem Awake.woken (h : Awake s w) (hw : Woken s s') : Awake s' w := by
  refine ⟨hw.fired w h.1, ?_⟩
  rw [hw.waiter w]
  rcases hw.task (s.waiter w).t with ht | ⟨-, ht⟩
  · rw [ht]
    exact h.2
  · simp [ht]

theorem fire_awake (hcb : (s.ent e).cb = none) (hw : (s.ent e).w = some w)
    (hlt : w < s.ws.length) : Awake (fire s e) w := by
  unfold fire
  rw [hcb, hw]
  have hx : (setWaiter s w { s.waiter w with fired := true }).waiter w =
      { s.waiter w with fired := true } := by
    rw [waiter_setWaiter, if_pos ⟨rfl, hlt⟩]
  have hready := taskReady_woken (setWaiter s w { s.waiter w with fired := true }) (s.waiter w).t
  refine ⟨hready.fired w (by rw [hx]), ?_⟩
  rw [hready.waiter w, hx]
  exact taskReady_state _ _

theorem fireChain_spec (drain : Bool) {l : List Nat} {p : Option Nat}
    (hseg : Dlist.Seg s.link p (bare l) none) {fuel : Nat} (hfuel : l.length ≤ fuel) :
    let r := fireChain drain fuel l.head? s
    Woken s r ∧ r.link = s.link ∧ r.head = s.head ∧
      (∀ y, r.ent y = if drain = true ∧ y ∈ l then { s.ent y with q := none } else s.ent y) ∧
      ∀ e ∈ l, ∀ w, (s.ent e).cb = none → (s.ent e).w = some w → w < s.ws.length → Awake r w := by
  induction l generalizing s p fuel with
  | nil => cases fuel <;> simp [fireChain, Woken.of_eq]
  | cons e l ih =>
    obtain ⟨fuel, rfl⟩ : ∃ f, fuel = f + 1 := ⟨fuel - 1, by simp at hfuel; omega⟩
    obtain ⟨hlink, hhead, hent⟩ := fire_lists s e
    rw [head?_cons, fireChain]
    generalize hs1 : (if drain = true then
      setEnt (fire s e) e { (fire s e).ent e with q := none } else fire s e) = s1
    have hone : Woken s s1 ∧ s1.link = s.link ∧ s1.head = s.head ∧
        (∀ y, s1.ent y = if drain = true ∧ y = e then { s.ent y with q := none } else s.ent y) ∧
        ∀ w, Awake (fire s e) w → Awake s1 w := by
      have hfire := fire_woken s e
      split at hs1
      next hd =>
        subst hs1
        have hset : Woken (fire s e) (setEnt (fire s e) e { (fire s e).ent e with q := none }) :=
          .of_eq rfl rfl rfl
        refine ⟨hfire.trans hset, hlink, hhead, fun y => ?_, fun w h => h.woken hset⟩
        simp only [setEnt, update_apply, hent, hd, true_and]
        split
        next hy => rw [hy]
        · rfl
      next hd =>
      subst hs1
      exact ⟨hfire, hlink, hhead, fun y => by simp [hd, hent], fun w h => h⟩
    obtain ⟨hwoken, hl1, hh1, he1, hawake⟩ := hone
    obtain ⟨hnode, htail⟩ := hseg
    have hnext : (s1.link e).next = l.head? := by
      rw [hl1, hnode]
      exact first_bare l
    rw [hnext]
    obtain ⟨rw', rl, rh, rent, rreach⟩ := ih (s := s1) (by rw [hl1]; exact htail)
      (by simpa using hfuel)
    refine ⟨hwoken.trans rw', rl.trans hl1, rh.trans hh1, fun y => ?_, fun y hy w hcb hw hlt => ?_⟩
    · rw [rent y, he1 y]
      by_cases hd : drain = true
      · by_cases hye : y = e
        · by_cases hyl : y ∈ l <;> simp [hd, hye]
        · simp [hd, hye]
      · simp [hd]
    rcases mem_cons.1 hy with rfl | hy
    · exact (hawake w (fire_awake hcb hw hlt)).woken rw'
    refine rreach y hy w ?_ ?_ (hwoken.length ▸ hlt)
    · rw [he1 y]
      split <;> exact hcb
    rw [he1 y]
    split <;> exact hw

theorem Woken.gone (h : Woken s s') (t : Nat) : gone s' t = gone s t := by
  unfold WaitQueue.gone
  rcases h.task t with ht | ⟨hb, ht⟩
  · rw [ht]
  · simp [ht, hb]

theorem Woken.hold (h : Woken s s') (t : Nat) : (s'.task t).hold = (s.task t).hold ∧
    (s'.task t).sleeping = (s.task t).sleeping := by
  rcases h.task t with ht | ⟨-, ht⟩ <;> rw [ht] <;> exact ⟨rfl, rfl⟩

theorem Proto.woken (h : Proto s) (hw : Woken s s') : Proto s' := by
  refine ⟨hw.length.trans h.length, fun t ht w hmem => ?_, fun t => ?_, fun t ht w hsl => ?_,
    fun t ht => ?_, fun w hd => ?_⟩
  · rw [hw.gone] at ht
    rw [(hw.hold t).1] at hmem
    rw [hw.waiter w]
    exact h.hold t ht w hmem
  · rw [(hw.hold t).1]
    exact h.nodup t
  · rw [hw.gone] at ht
    rw [(hw.hold t).2] at hsl
    rw [(hw.hold t).1]
    exact h.sleeping t ht w hsl
  · rcases hw.task t with heq | ⟨-, heq⟩
    · rw [heq] at ht ⊢
      obtain ⟨w, hsl, hd, hrest⟩ := h.blocked t ht
      refine ⟨w, hsl, ?_, hw.now ▸ hrest⟩
      rw [hw.waiter w]
      exact hd
    rw [heq] at ht
    cases ht
  rw [hw.waiter w] at hd ⊢
  exact (h.due w hd).imp (hw.fired w) id

theorem waiter_markDue (s₀ : Sys) (q : Nat) (s : Sys) (w : Nat) :
    (markDue s₀ q s).waiter w = if w < s.ws.length then
      { s.waiter w with due := (s.waiter w).due || (s₀.cond q && waits s₀ q w) }
    else s.waiter w := by
  by_cases hlt : w < s.ws.length
  · simp [Sys.waiter, markDue, getD_eq_getElem?_getD, hlt]
  rw [if_neg hlt, waiter_default (by simpa [markDue] using Nat.le_of_not_lt hlt),
    waiter_default (Nat.le_of_not_lt hlt)]

theorem Proto.markDue (h : Proto s)
    (hreach : ∀ w, w < s.ws.length → waits s₀ q w = true → Awake s w) : Proto (markDue s₀ q s) := by
  have hsame : ∀ w, ((WaitQueue.markDue s₀ q s).waiter w).used = (s.waiter w).used ∧
      ((WaitQueue.markDue s₀ q s).waiter w).t = (s.waiter w).t := by
    intro w
    rw [waiter_markDue]
    split <;> exact ⟨rfl, rfl⟩
  refine ⟨by simp [WaitQueue.markDue, h.length], fun t ht w hw => ?_, h.nodup, h.sleeping,
    fun t ht => ?_, fun w => ?_⟩
  · rw [(hsame w).1, (hsame w).2]
    exact h.hold t ht w hw
  · obtain ⟨w, hsl, hd, hrest⟩ := h.blocked t ht
    refine ⟨w, hsl, ?_, hrest⟩
    have halive : WaitQueue.gone s t = false := gone_eq_false.2 (.inr ht)
    obtain ⟨-, hwt⟩ := h.hold t halive w (h.sleeping t halive w hsl)
    rw [waiter_markDue]
    split
    next hlt =>
      have hno : waits s₀ q w = false := by
        rw [← Bool.not_eq_true]
        intro hwaits
        have hawake := (hreach w hlt hwaits).2
        rw [hwt] at hawake
        exact hawake ht
      simp [hd, hno]
    · exact hd
  rw [waiter_markDue]
  split
  next hlt =>
    intro hd
    simp only [Bool.or_eq_true, Bool.and_eq_true] at hd
    rcases hd with hd | ⟨-, hd⟩
    · exact h.due w hd
    · exact .inl (hreach w hlt hd).1
  · exact h.due w

theorem Shape.markDue (h : Shape s) : Shape (markDue s₀ q s) := by
  refine h.of_waiters rfl rfl rfl fun w => ?_
  rw [waiter_markDue]
  split <;> exact ⟨rfl, rfl⟩

theorem waits_mem {ql wl : Nat → List Nat} (h : Lists s (chainOf s) ql wl)
    (hempty : ∀ w, (s.waiter w).used = false → wl w = []) (hw : waits s q w = true) :
    ∃ e ∈ ql q, (s.ent e).cb = none ∧ (s.ent e).w = some w ∧ w < s.ws.length := by
  obtain ⟨e, -, he⟩ := any_eq_true.1 hw
  simp only [decide_eq_true_eq] at he
  obtain ⟨hq, hew⟩ := he
  have hused := h.qused e q hq
  refine ⟨e, (h.qmem q e).2 hq, ?_, hew, waiter_lt ?_⟩
  · have hcb := h.cb e hused
    rw [hew] at hcb
    cases hc : (s.ent e).cb with
    | none => rfl
    | some c => simp [hc] at hcb
  by_contra hu
  have hmem := (h.wmem w e).2 ⟨hused, hew⟩
  rw [hempty w (by simpa using hu)] at hmem
  cases hmem

section

variable (h : Inv s)

include h

theorem Inv.wakeLocked (q : Nat) : Inv (markDue s q (wakeLocked s q)) := by
  obtain ⟨⟨ql, wl, hlists, hempty⟩, hproto⟩ := h
  unfold WaitQueue.wakeLocked
  rw [hlists.head q]
  obtain ⟨hwoken, hl, hh, he, hreach⟩ := fireChain_spec false (hlists.seg q)
    (hlists.qlength q)
  have hshape : Shape s := ⟨ql, wl, hlists, hempty⟩
  refine ⟨.markDue (hshape.of_waiters hl hh (funext fun y => by simpa using he y) fun w => ?_),
    (hproto.woken hwoken).markDue fun w _ hw => ?_⟩
  · rw [hwoken.waiter w]
    exact ⟨rfl, rfl⟩
  obtain ⟨e, hmem, hcb, hew, hlt⟩ := waits_mem hlists hempty hw
  exact hreach e hmem w hcb hew hlt

theorem Inv.wqWake (q : Nat) : Inv (markDue s q (wqWake s q)) := by
  unfold WaitQueue.wqWake
  split
  next hnone =>
    -- nobody is on the list that the test found empty
    have hlocked := h.wakeLocked q
    rwa [WaitQueue.wakeLocked, hnone, nent, fireChain] at hlocked
  · exact h.wakeLocked q

theorem Inv.wqDrain (q : Nat) : Inv (markDue s q (wqDrain s q)) := by
  obtain ⟨⟨ql, wl, hlists, hempty⟩, hproto⟩ := h
  unfold WaitQueue.wqDrain
  rw [hlists.head q]
  obtain ⟨hwoken, hl, hh, he, hreach⟩ := fireChain_spec true (hlists.seg q)
    (hlists.qlength q)
  simp only [true_and] at he
  generalize fireChain true nent (ql q).head? s = r at hwoken hl hh he hreach ⊢
  have hsame : ∀ y, (r.ent y).wnext = (s.ent y).wnext ∧ (r.ent y).used = (s.ent y).used ∧
      (r.ent y).w = (s.ent y).w ∧ (r.ent y).cb = (s.ent y).cb := by
    intro y
    rw [he y]
    split <;> exact ⟨rfl, rfl, rfl, rfl⟩
  have hq : ∀ y, (r.ent y).q = if y ∈ ql q then none else (s.ent y).q := by
    intro y
    rw [he y]
    split <;> rfl
  refine ⟨.markDue ⟨update ql q [], wl, ⟨fun q' => ?_, fun q' => ?_, fun q' => ?_,
    fun q' y => ?_, fun y q' hy => ?_, fun w => ?_, hlists.wnodup, fun w y => ?_, fun y => ?_,
    fun y => ?_⟩, fun w hw => ?_⟩, .markDue ((hproto.woken hwoken).of_eq rfl rfl rfl)
    fun w _ hw => ?_⟩
  · simp only [hl, update_apply]
    split
    · trivial
    · exact hlists.seg q'
  · simp only [hh, update_apply]
    split
    · rfl
    · exact hlists.head q'
  · rw [update_apply]
    split
    · exact nodup_nil
    · exact hlists.qnodup q'
  · rw [update_apply, hq y]
    split
    next heq =>
      subst heq
      split
      · simp
      next hno => simpa using fun hy => hno ((hlists.qmem q' y).2 hy)
    next hne =>
    rw [hlists.qmem q' y]
    split
    next hmem => simp [(hlists.qmem q y).1 hmem, Ne.symm hne]
    · rfl
  · rw [(hsame y).2.1]
    rw [hq y] at hy
    split at hy
    · cases hy
    · exact hlists.qused y q' hy
  · have hchain : (r.waiter w).ents = chainOf s w := by
      rw [hwoken.waiter w]
      rfl
    have hlinked : Dlist.Linked (fun y => (r.ent y).wnext) (chainOf s w) (wl w) :=
      (hlists.linked w).congr fun y _ => (hsame y).1
    rw [← hchain] at hlinked
    exact hlinked
  · rw [(hsame y).2.1, (hsame y).2.2.1]
    exact hlists.wmem w y
  · rw [(hsame y).2.1, (hsame y).2.2.1, (hsame y).2.2.2]
    exact hlists.cb y
  · rw [(hsame y).2.1]
    exact hlists.bound y
  · have hused : (r.waiter w).used = (s.waiter w).used := by rw [hwoken.waiter w]
    exact hempty w (hused ▸ hw)
  obtain ⟨e, hmem, hcb, hew, hlt⟩ := waits_mem hlists hempty hw
  exact hreach e hmem w hcb hew hlt

/-! ## Steps -/

/-- A killed task makes no more calls, no sleep ends at the time that stands for none, and
ticks come before the clock has gone half way round. -/
def Ok (s : Sys) : Event → Prop
  | .waiter t | .add t _ _ | .check t _ | .waiterFree t _ | .sleepEnd t => gone s t = false
  | .sleep t _ ms => gone s t = false ∧ (s.now + sleepMs ms) % 2 ^ 32 ≠ 0
  | .tick k => k < 2 ^ 31
  | _ => True

instance (s : Sys) (e : Event) : Decidable (Ok s e) := by
  cases e <;> unfold Ok <;> infer_instance

theorem Inv.setWaiter (hents : x.ents = (s.waiter w).ents)
    (hused : x.used = (s.waiter w).used) (ht : x.t = (s.waiter w).t)
    (hdue : x.due = true → (s.waiter w).due = true)
    (hfired : x.due = true → x.fired = true ∨ x.checked = false) : Inv (setWaiter s w x) := by
  refine ⟨h.shape.setWaiter hents hused, h.proto.setWaiter (fun t' ht' hw => ?_)
    (fun t' hb hsl => ?_) hfired⟩
  · rw [hused, ht]
    exact h.proto.hold t' ht' w hw
  rw [← Bool.not_eq_true]
  intro hx
  have hd := h.proto.not_due hb hsl
  rw [hdue hx] at hd
  cases hd

theorem Inv.setTask (hp : Proto (setTask s t k)) : Inv (setTask s t k) :=
  ⟨h.shape.of_waiters rfl rfl rfl fun _ => ⟨rfl, rfl⟩, hp⟩

omit h in
theorem holds_iff : holds s t w = true ↔ w ∈ (s.task t).hold ∧ (s.task t).sleeping = none := by
  simp [holds]

omit h in
theorem sleepMs_pos (ms : Nat) : 0 < sleepMs ms := by
  unfold sleepMs
  split <;> omega

section

variable (ht : gone s t = false)

include ht

theorem Inv.wqSleep (hw : w ∈ (s.task t).hold) (hsl : (s.task t).sleeping = none)
    (hch : (s.waiter w).checked = true) {ms : Nat} (hms : (s.now + sleepMs ms) % 2 ^ 32 ≠ 0) :
    Inv (wqSleep s w ms) := by
  obtain ⟨-, hwt⟩ := h.proto.hold t ht w hw
  have hready : (s.task t).state = .ready := by
    rcases gone_eq_false.1 ht with hr | hb
    · exact hr
    obtain ⟨v, hv, -⟩ := h.proto.blocked t hb
    rw [hsl] at hv
    cases hv
  unfold WaitQueue.wqSleep
  simp only [hwt]
  split
  · exact h.setWaiter rfl rfl (by rw [hwt]) id fun _ => .inr rfl
  have hmem : ∀ v, some w = some v → v ∈ (s.task t).hold := fun v hv => by
    cases hv
    exact hw
  split
  · refine h.setTask (h.proto.setTask (fun _ => h.proto.hold t ht) (h.proto.nodup t)
      (fun _ => hmem) fun hb => ?_)
    simp [hready] at hb
  next hnf =>
  refine h.setTask (h.proto.setTask (fun _ => h.proto.hold t ht) (h.proto.nodup t)
    (fun _ => hmem) fun _ => ⟨w, rfl, ?_, ?_, rfl, hms⟩)
  · rw [← Bool.not_eq_true]
    intro hd
    rcases h.proto.due w hd with hf | hc
    · exact hnf hf
    rw [hch] at hc
    cases hc
  have := sleepMs_pos ms
  simp only
  omega

theorem Inv.wqSleepEnd : Inv (wqSleepEnd s t) := by
  unfold WaitQueue.wqSleepEnd
  split
  · exact h
  next w hsl =>
  split
  · exact h
  next hnb =>
  have hset : Inv (WaitQueue.setTask s t { s.task t with sleeping := none }) :=
    h.setTask (h.proto.setTask (fun _ => h.proto.hold t ht) (h.proto.nodup t)
      (fun _ v hv => by cases hv) fun hb => absurd hb hnb)
  exact hset.setWaiter rfl rfl rfl id fun _ => .inr rfl

theorem Inv.waiterFree (hw : w ∈ (s.task t).hold) (hsl : (s.task t).sleeping = none) :
    Inv (WaitQueue.setTask (WaitQueue.wqWaiterFree s w) t
      { s.task t with hold := (s.task t).hold.erase w }) := by
  obtain ⟨hws, htask, hnow⟩ := wqWaiterFree_frame s w
  have hwt := (h.proto.hold t ht w hw).2
  have hset : Inv (WaitQueue.setTask s t { s.task t with hold := (s.task t).hold.erase w }) := by
    refine h.setTask (h.proto.setTask (fun _ v hv => ?_) ((h.proto.nodup t).erase w)
      (fun _ v hv => ?_) fun hb => h.proto.blocked t hb)
    · exact h.proto.hold t ht v (mem_of_mem_erase hv)
    · simp [hsl] at hv
  have hfree := hset.wqWaiterFree (w := w) fun t' ht' hmem => by
    simp only [WaitQueue.setTask, update_apply] at hmem
    split at hmem
    next heq => exact ((h.proto.nodup t).mem_erase_iff.1 hmem).1 rfl
    next hne =>
    have ht'' : gone s t' = false := by
      rw [gone_eq_false] at ht' ⊢
      simpa [WaitQueue.setTask, update_of_ne hne] using ht'
    exact hne ((h.proto.hold t' ht'' w hmem).2.symm.trans hwt)
  obtain ⟨hws', htask', hnow'⟩ := wqWaiterFree_frame
    (WaitQueue.setTask s t { s.task t with hold := (s.task t).hold.erase w }) w
  refine ⟨(h.shape.wqWaiterFree w).of_waiters rfl rfl rfl fun _ => ⟨rfl, rfl⟩,
    hfree.proto.of_eq (hws.trans hws'.symm) ?_ (hnow.trans hnow'.symm)⟩
  rw [htask']
  simp only [WaitQueue.setTask, htask]

end

theorem Inv.tick {k : Nat} (hk : k < 2 ^ 31) : Inv (next s (.tick k)) := by
  have hcases : ∀ t, tickTask ((s.now + k + 1) % 2 ^ 32) (s.task t) = s.task t ∨
      (s.task t).state = .blocked ∧ tickTask ((s.now + k + 1) % 2 ^ 32) (s.task t) =
        { s.task t with state := .ready, wakeMs := 0 } := by
    intro t
    unfold tickTask
    split
    next hc => exact .inr ⟨hc.1, rfl⟩
    · exact .inl rfl
  have hwoken : Woken s { s with task := fun t => tickTask ((s.now + k + 1) % 2 ^ 32) (s.task t) } :=
    ⟨rfl, fun _ => rfl, fun _ hw => hw, hcases, rfl⟩
  have hproto := h.proto.woken hwoken
  refine ⟨h.shape.of_waiters rfl rfl rfl fun _ => ⟨rfl, rfl⟩, hproto.length, hproto.hold,
    hproto.nodup, hproto.sleeping, fun t ht => ?_, hproto.due⟩
  simp only [next] at ht ⊢
  rcases hcases t with heq | ⟨-, heq⟩
  · rw [heq] at ht
    obtain ⟨w, hsl, hd, hlt, hms, hnz⟩ := h.proto.blocked t ht
    rw [heq]
    refine ⟨w, hsl, hd, ?_, hms, hnz⟩
    by_contra hpast
    have hexp : (s.task t).state = .blocked ∧ (s.task t).wakeMs ≠ 0 ∧
        ((s.now + k + 1) % 2 ^ 32 + 2 ^ 32 - (s.task t).wakeMs) % 2 ^ 32 < 2 ^ 31 := by
      refine ⟨ht, hnz, ?_⟩
      omega
    rw [tickTask, if_pos hexp] at heq
    rw [← heq] at ht
    cases ht
  rw [heq] at ht
  cases ht

theorem Inv.next {e : Event} (hok : Ok s e) : Inv (next s e) := by
  cases e with
  | waiter t => exact h.waiter hok
  | add t w q =>
    simp only [WaitQueue.next]
    split
    next hh =>
      have hadd := (h.wqAdd hok (holds_iff.1 hh).1 q).1
      generalize (WaitQueue.wqAdd s q w).1 = s1 at hadd ⊢
      exact hadd.setWaiter rfl rfl rfl id fun _ => .inr rfl
    · exact h
  | addCb q cb =>
    exact h.wqAddCb q cb
  | del e => exact h.wqDel e
  | check t w =>
    simp only [WaitQueue.next]
    split
    · exact h.setWaiter rfl rfl rfl (fun hd => by cases hd) fun hd => by cases hd
    · exact h
  | sleep t w ms =>
    simp only [WaitQueue.next]
    split
    next hc =>
      rw [Bool.and_eq_true] at hc
      obtain ⟨hw, hsl⟩ := holds_iff.1 hc.1
      exact h.wqSleep hok.1 hw hsl hc.2 hok.2
    · exact h
  | sleepEnd t => exact h.wqSleepEnd hok
  | waiterFree t w =>
    simp only [WaitQueue.next]
    split
    next hh => exact h.waiterFree hok (holds_iff.1 hh).1 (holds_iff.1 hh).2
    · exact h
  | wake q => exact h.wqWake q
  | wakeLate q => exact h.wakeLocked q
  | drain q => exact h.wqDrain q
  | setCond q b => exact ⟨h.shape.of_waiters rfl rfl rfl fun _ => ⟨rfl, rfl⟩, h.proto.of_eq rfl rfl rfl⟩
  | kill t =>
    refine h.setTask (h.proto.setTask (fun hs => ?_) (h.proto.nodup t) (fun hs => ?_) fun hs => ?_)
    · simp at hs
    · simp at hs
    · simp at hs
  | spawn t =>
    simp only [WaitQueue.next]
    split
    · refine h.setTask (h.proto.setTask (fun _ v hv => ?_) nodup_nil (fun _ v hv => ?_)
        fun hb => ?_)
      · simp at hv
      · simp at hv
      · simp at hb
    · exact h
  | ready t =>
    obtain ⟨hl, hh, he⟩ := taskReady_lists s t
    have hw := taskReady_woken s t
    refine ⟨h.shape.of_waiters hl hh he fun v => ?_, h.proto.woken hw⟩
    simp only [WaitQueue.next]
    rw [hw.waiter v]
    exact ⟨rfl, rfl⟩
  | tick k => exact h.tick hok

def OkRun (s : Sys) : List Event → Prop
  | [] => True
  | e :: events => Ok s e ∧ OkRun (next s e) events

instance decidableOkRun : (s : Sys) → (events : List Event) → Decidable (OkRun s events)
  | _, [] => .isTrue trivial
  | s, e :: events =>
    have := decidableOkRun (next s e) events
    inferInstanceAs (Decidable (Ok s e ∧ OkRun (next s e) events))

theorem Inv.play {events : List Event} (hok : OkRun s events) : Inv (play s events) := by
  induction events generalizing s with
  | nil => exact h
  | cons e events ih => exact ih (h.next hok.1) hok.2

end

theorem waiter_boot (w : Nat) : boot.waiter w = {} := by
  simp [boot, Sys.waiter, getD_eq_getElem?_getD, getElem?_replicate]
  split <;> rfl

theorem inv_boot : Inv boot := by
  refine ⟨⟨fun _ => [], fun _ => [], ⟨fun _ => trivial, fun _ => rfl, fun _ => nodup_nil,
    by simp [boot], by simp [boot], fun w => ?_, fun _ => nodup_nil, by simp [boot],
    by simp [boot], by simp [boot]⟩, fun _ _ => rfl⟩, by simp [boot], by simp [boot],
    by simp [boot], by simp [boot], by simp [boot], fun w hd => ?_⟩
  · rw [chainOf, waiter_boot]
    rfl
  rw [waiter_boot] at hd
  cases hd

def entriesOf (s : Sys) (w : Nat) : List Nat :=
  Dlist.follow (fun e => (s.ent e).wnext) nent (s.waiter w).ents

structure Good (s : Sys) : Prop where
  /-- The list of a queue is linked both ways and has the entries in use that name it. -/
  queues : ∀ q, ∃ l : List Nat, l.Nodup ∧ Dlist.Seg s.link none (bare l) none ∧
    s.head q = l.head? ∧ ∀ e, e ∈ l ↔ (s.ent e).used = true ∧ (s.ent e).q = some q
  /-- An entry in use has a callback or is on the chain of one waiter. -/
  entries : ∀ e, (s.ent e).used = true →
    if (s.ent e).cb.isSome then ∀ w, e ∉ entriesOf s w else ∃! w, e ∈ entriesOf s w
  /-- A task that is blocked has seen every wake, and its time is not up. -/
  awake : ∀ t, (s.task t).state = .blocked → ∃ w, (s.task t).sleeping = some w ∧
    (s.waiter w).due = false ∧ s.now < (s.task t).deadline

theorem Inv.good (h : Inv s) : Good s := by
  obtain ⟨⟨ql, wl, hlists, -⟩, hproto⟩ := h
  have hof : ∀ w, entriesOf s w = wl w := fun w => (hlists.linked w).follow (hlists.wlength w)
  refine ⟨fun q => ⟨ql q, hlists.qnodup q, hlists.seg q, hlists.head q, fun e => ?_⟩,
    fun e he => ?_, fun t ht => ?_⟩
  · rw [hlists.qmem q e]
    exact ⟨fun hq => ⟨hlists.qused e q hq, hq⟩, And.right⟩
  · have hcb := hlists.cb e he
    simp only [hof]
    split
    next hc =>
      intro w hmem
      rw [((hlists.wmem w e).1 hmem).2] at hcb
      cases hcb.2 hc
    next hc =>
    cases hw : (s.ent e).w with
    | none => exact absurd (hcb.1 hw) hc
    | some w =>
      refine ⟨w, (hlists.wmem w e).2 ⟨he, hw⟩, fun v hv => ?_⟩
      rw [((hlists.wmem v e).1 hv).2] at hw
      exact Option.some.inj hw
  obtain ⟨w, hsl, hd, hlt, -⟩ := hproto.blocked t ht
  exact ⟨w, hsl, hd, hlt⟩

end

/-- For every interleaving in which a killed task makes no more calls, the lists are right and
no wakeup is lost. -/
theorem wait_queues_good (events : List Event) (hok : OkRun boot events) :
    Good (play boot events) :=
  (inv_boot.play hok).good

def wokenRun : List Event :=
  [.spawn 1, .waiter 1, .add 1 0 7, .check 1 0, .sleep 1 0 0, .setCond 7 true, .wake 7]

theorem wait_queues_good_woken : OkRun boot wokenRun ∧ Good (play boot wokenRun) ∧
    ((play boot (wokenRun.take 6)).task 1).state = .blocked ∧
      ((play boot wokenRun).task 1).state = .ready ∧ ((play boot wokenRun).waiter 0).due = true :=
  have hok : OkRun boot wokenRun := by decide +kernel
  ⟨hok, wait_queues_good wokenRun hok, by decide +kernel, by decide +kernel, by decide +kernel⟩

def killedRun : List Event :=
  (range 130).map (fun t => .spawn (t + 1)) ++ (range 128).map (fun t => .waiter (t + 1)) ++
    [.kill 1, .kill 2, .waiter 129, .add 2 1 7, .waiter 130]

/-- The entry is in use and on the queue, and no waiter has it. -/
theorem killed_entry_lost : ((play boot killedRun).ent 0).used = true ∧
    ((play boot killedRun).ent 0).q = some 7 ∧ ((play boot killedRun).ent 0).cb = none ∧
      ∀ w < nw, 0 ∉ entriesOf (play boot killedRun) w := by
  decide +kernel

end SamaraOS.WaitQueue
