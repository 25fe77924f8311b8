import SamaraOS.Proc.RecordLocks

/-!
# Deadlock detection

`deadlock` walks a table with one entry a waiting owner, written when the owner polls: a blocker
may have let go since, and an owner blocked by several others is listed under one of them.  While
the entries it reads are current the walk reports real cycles only; a cycle in which every owner
is blocked by the next one alone is found by the last of its owners to poll.
-/

namespace SamaraOS.Flock

open List Option

/-! ## The table of waiters -/

section Table

variable {wt : WaitTable} {o own on : Owner} {w : Option (Owner × Owner)}

@[simp] theorem isOf_none : isOf o none = false := rfl

@[simp] theorem isOf_some : isOf o (some (own, on)) = decide (own = o) := rfl

theorem isOf_iff : isOf o w = true ↔ ∃ on, w = some (o, on) := by
  rcases w with _ | ⟨a, b⟩
  · simp
  · simp

theorem waitsOn_append (a b : WaitTable) : waitsOn (a ++ b) o = (waitsOn b o).or (waitsOn a o) := by
  simp [waitsOn, findSome?_append]

theorem waitsOn_cons (w : Option (Owner × Owner)) (wt : WaitTable) :
    waitsOn (w :: wt) o = (waitsOn wt o).or (if isOf o w then w.map Prod.snd else none) := by
  cases h : (if isOf o w then w.map Prod.snd else none) <;> simp [waitsOn, h]

theorem waitsOn_eq_none (h : ∀ w ∈ wt, isOf o w = false) : waitsOn wt o = none := by
  induction wt with
  | nil => rfl
  | cons w wt ih =>
    rw [waitsOn_cons, ih fun x hx => h x (mem_cons_of_mem _ hx)]
    simp [h w mem_cons_self]

theorem waitsOn_replace {w' : Option (Owner × Owner)} (a b : WaitTable) (h : isOf o w = false)
    (h' : isOf o w' = false) : waitsOn (a ++ w :: b) o = waitsOn (a ++ w' :: b) o := by
  simp [waitsOn_append, waitsOn_cons, h, h']

theorem set_findIdx {p : Option (Owner × Owner) → Bool} {i : Nat}
    (h : wt.findIdx? p = some i) (v : Option (Owner × Owner)) :
    ∃ a x b, wt = a ++ x :: b ∧ p x = true ∧ (∀ y ∈ a, p y = false) ∧ wt.set i v = a ++ v :: b := by
  obtain ⟨hi, hp, hlt⟩ := findIdx?_eq_some_iff_getElem.1 h
  refine ⟨wt.take i, wt[i], wt.drop (i + 1), ?_, hp, ?_, ?_⟩
  · simp
  · intro y hy
    obtain ⟨j, hj, rfl⟩ := mem_take_iff_getElem.1 hy
    simpa using hlt j (by omega)
  · exact set_eq_take_append_cons_drop .. |>.trans (if_pos hi)

theorem waitSet_cases (own on : Owner) (wt : WaitTable) :
    (∃ a x b, wt = a ++ x :: b ∧ waitSet own on wt = a ++ some (own, on) :: b ∧
      (isOf own x = true ∧ (∀ y ∈ a, isOf own y = false) ∨
        x = none ∧ ∀ y ∈ wt, isOf own y = false)) ∨
    (waitSet own on wt = wt ∧ none ∉ wt ∧ ∀ y ∈ wt, isOf own y = false) := by
  unfold waitSet
  cases h : wt.findIdx? (isOf own) with
  | some i =>
    obtain ⟨a, x, b, hwt, hx, ha, hset⟩ := set_findIdx h (some (own, on))
    exact .inl ⟨a, x, b, hwt, hset, .inl ⟨hx, ha⟩⟩
  | none =>
    have hno := findIdx?_eq_none_iff.1 h
    cases h' : wt.findIdx? isNone with
    | some i =>
      obtain ⟨a, x, b, hwt, hx, -, hset⟩ := set_findIdx h' (some (own, on))
      exact .inl ⟨a, x, b, hwt, hset, .inr ⟨isNone_iff_eq_none.1 hx, hno⟩⟩
    | none =>
      have hfull := findIdx?_eq_none_iff.1 h'
      refine .inr ⟨rfl, fun hmem => ?_, hno⟩
      simpa using hfull none hmem

theorem waitsOn_waitSet_ne (h : o ≠ own) : waitsOn (waitSet own on wt) o = waitsOn wt o := by
  rcases waitSet_cases own on wt with ⟨a, x, b, hwt, hset, hx⟩ | ⟨hset, -⟩
  · rw [hset, hwt]
    apply waitsOn_replace
    · simp [Ne.symm h]
    rcases hx with ⟨hx, -⟩ | ⟨rfl, -⟩
    · obtain ⟨on', rfl⟩ := isOf_iff.1 hx
      simp [Ne.symm h]
    · rfl
  · rw [hset]

theorem waitsOn_waitClr_ne (h : o ≠ own) : waitsOn (waitClr own wt) o = waitsOn wt o := by
  induction wt with
  | nil => rfl
  | cons w wt ih =>
    change waitsOn ((if isOf own w then none else w) :: waitClr own wt) o = _
    rw [waitsOn_cons, waitsOn_cons, ih]
    congr 1
    by_cases hw : isOf own w = true
    · obtain ⟨on', rfl⟩ := isOf_iff.1 hw
      simp [Ne.symm h]
    · rw [if_neg hw]

structure TableOk (os : List Owner) (wt : WaitTable) : Prop where
  len : wt.length = 32
  single : wt.Pairwise fun a b => ∀ o, isOf o a = true → isOf o b = false
  known : ∀ o on, some (o, on) ∈ wt → o ∈ os

variable {os : List Owner}

theorem TableOk.waitClr (h : TableOk os wt) (own : Owner) : TableOk os (waitClr own wt) := by
  refine ⟨by simp [Flock.waitClr, h.len], ?_, ?_⟩
  · refine pairwise_map.2 (h.single.imp ?_)
    intro a b hab o ha
    by_cases hb : isOf own b = true
    · simp [hb]
    rw [if_neg hb]
    split_ifs at ha
    · cases ha
    · exact hab o ha
  intro o on hmem
  obtain ⟨w, hw, heq⟩ := mem_map.1 hmem
  split_ifs at heq
  exact h.known o on (heq ▸ hw)

theorem TableOk.waitSet (h : TableOk os wt) (hown : own ∈ os) (on : Owner) :
    TableOk os (waitSet own on wt) := by
  rcases waitSet_cases own on wt with ⟨a, x, b, rfl, hset, hx⟩ | ⟨hset, -⟩
  swap
  · rw [hset]
    exact h
  obtain ⟨ha, hxb, hab⟩ := pairwise_append.1 h.single
  obtain ⟨hx', hb⟩ := pairwise_cons.1 hxb
  have hnoa : ∀ y ∈ a, isOf own y = false := by
    rcases hx with ⟨-, h⟩ | ⟨-, h⟩
    · exact h
    · exact fun y hy => h y (by simp [hy])
  have hnob : ∀ y ∈ b, isOf own y = false := by
    rcases hx with ⟨h, -⟩ | ⟨-, h⟩
    · exact fun y hy => hx' y hy own h
    · exact fun y hy => h y (by simp [hy])
  rw [hset]
  refine ⟨by simpa using h.len, ?_, ?_⟩
  · refine pairwise_append.2 ⟨ha, pairwise_cons.2 ⟨?_, hb⟩, ?_⟩
    · intro y hy o ho
      obtain rfl : own = o := by simpa using ho
      exact hnob y hy
    intro y hy z hz o ho
    rcases mem_cons.1 hz with rfl | hz
    · simp only [isOf_some, decide_eq_false_iff_not]
      rintro rfl
      simp [hnoa y hy] at ho
    · exact hab y hy z (mem_cons_of_mem _ hz) o ho
  intro o on' hmem
  rw [mem_append, mem_cons] at hmem
  rcases hmem with hmem | heq | hmem
  · exact h.known o on' (by simp [hmem])
  · cases heq
    exact hown
  · exact h.known o on' (by simp [hmem])

private theorem owners_length (h : none ∉ wt) :
    (wt.filterMap fun w => w.map Prod.fst).length = wt.length := by
  induction wt with
  | nil => rfl
  | cons w wt ih =>
    rcases w with _ | ⟨a, b⟩
    · simp at h
    · simp [ih fun hmem => h (mem_cons_of_mem _ hmem)]

theorem TableOk.free (h : TableOk os wt) (hos : os.length ≤ 16) : none ∈ wt := by
  by_contra hfull
  have hnodup : (wt.filterMap fun w => w.map Prod.fst).Nodup := by
    refine pairwise_filterMap.2 (h.single.imp ?_)
    intro a b hab o ha o' hb
    rcases a with _ | ⟨a, a'⟩
    · cases ha
    rcases b with _ | ⟨b, b'⟩
    · cases hb
    cases ha
    cases hb
    simpa [eq_comm] using hab a (by simp)
  have hsub : (wt.filterMap fun w => w.map Prod.fst) ⊆ os := by
    intro o ho
    obtain ⟨w, hw, heq⟩ := mem_filterMap.1 ho
    rcases w with _ | ⟨a, b⟩
    · cases heq
    cases heq
    exact h.known a b hw
  have hlen := (hnodup.subperm hsub).length_le
  rw [owners_length hfull, h.len] at hlen
  omega

theorem waitsOn_waitSet_self (h : TableOk os wt) (hos : os.length ≤ 16) :
    waitsOn (waitSet own on wt) own = some on := by
  rcases waitSet_cases own on wt with ⟨a, x, b, rfl, hset, hx⟩ | ⟨-, hfull, -⟩
  · have hnob : ∀ y ∈ b, isOf own y = false := by
      rcases hx with ⟨hx, -⟩ | ⟨-, hall⟩
      · have hxb := (pairwise_append.1 h.single).2.1
        exact fun y hy => (pairwise_cons.1 hxb).1 y hy own hx
      · exact fun y hy => hall y (by simp [hy])
    simp [hset, waitsOn_append, waitsOn_cons, waitsOn_eq_none hnob]
  · exact absurd (h.free hos) hfull

end Table

/-! ## What a step does to the waiters -/

theorem flockOrder_lock {f : File} {op : U32} {r : Request} {w : Bool}
    (h : flockOrder f op = .ok (.lock r w)) : r.toKey = ⟨f.node, .flock, .file f.id⟩ := by
  simp only [flockOrder] at h
  repeat' split at h
  all_goals cases h
  all_goals rfl

theorem flockOrder_error {f : File} {op : U32} {e : Errno} (h : flockOrder f op = .error e) :
    e ≠ .edeadlk := by
  simp only [flockOrder] at h
  repeat' split at h
  all_goals cases h
  decide

theorem fcntlOrder_lock {sh : Nat} {f : File} {cmd : Nat} {u : FlockArg} {r : Request}
    {w : Bool} (h : fcntlOrder sh f cmd u = .ok (.lock r w)) : r.toKey = fcntlKey sh f cmd := by
  simp only [fcntlOrder, bind, Except.bind, pure, Except.pure, throw, throwThe,
    MonadExceptOf.throw] at h
  repeat' split at h
  all_goals cases h
  rfl

theorem fcntlOrder_error {sh : Nat} {f : File} {cmd : Nat} {u : FlockArg} {e : Errno}
    (h : fcntlOrder sh f cmd u = .error e) : e ≠ .edeadlk := by
  simp only [fcntlOrder, bind, Except.bind, pure, Except.pure, throw, throwThe,
    MonadExceptOf.throw] at h
  repeat' split at h
  all_goals cases h
  all_goals decide

inductive Turn (st : State) (t : Thread) (r : Request) (wait : Bool) : State → Res → Prop
  | grant {st' : State} {res : Res} (hfree : findClash st.locks r = none)
      (hwt : st'.wt = waitClr r.own st.wt)
      (hasleep : st'.asleep = (st.wake t []).asleep) (hres : res ≠ .error .edeadlk) :
      Turn st t r wait st' res
  | again (hwait : wait = false) : Turn st t r wait st (.error .eagain)
  | dead {c : Lock} (hclash : findClash st.locks r = some c) (hkind : r.kind = .posix)
      (hdead : deadlock st.wt r.own c.own = true) :
      Turn st t r wait (st.wake t (waitClr r.own st.wt)) (.error .edeadlk)
  | intr {c : Lock} (hclash : findClash st.locks r = some c) :
      Turn st t r wait (st.wake t (waitClr r.own (waitSet r.own c.own st.wt))) (.error .eintr)
  | sleep {c : Lock} (hclash : findClash st.locks r = some c)
      (hlive : r.kind = .posix → deadlock st.wt r.own c.own = false) :
      Turn st t r wait (st.sleep t r (waitSet r.own c.own st.wt)) .sleeps

theorem poll_turn (env : Env) (st : State) (t : Thread) (r : Request) (wait : Bool) :
    Turn st t r wait (poll env st t r wait).1 (poll env st t r wait).2 := by
  unfold poll
  split
  · next hfree =>
    unfold finish
    dsimp only
    split_ifs <;> exact .grant hfree rfl rfl (by simp)
  next c hclash =>
  split_ifs with hwait hdead hintr
  · exact .again (by simpa using hwait)
  · exact .dead hclash hdead.1 hdead.2
  · exact .intr hclash
  refine .sleep hclash fun hkind => ?_
  simpa [hkind] using hdead

def Event.owner : Event → Option Owner
  | .flock _ f _ => some (.file f.id)
  | .fcntl t f cmd _ => some (fcntlKey t.sh f cmd).own
  | _ => none

theorem step_cases (env : Env) (st : State) (ev : Event) : (∃ sh, ev = .exit sh) ∨
    ((step env st ev).1.wt = st.wt ∧ (step env st ev).1.asleep = st.asleep ∧
      (step env st ev).2 ≠ .error .edeadlk) ∨
    ∃ t r w, ev.thread = some t ∧ order st ev = .lock r w ∧
      Turn st t r w (step env st ev).1 (step env st ev).2 := by
  have hperform : ∀ (t : Thread) (o : Order),
      ((perform env st t o).1.wt = st.wt ∧ (perform env st t o).1.asleep = st.asleep ∧
        (perform env st t o).2 ≠ .error .edeadlk) ∨
      ∃ r w, o = .lock r w ∧ Turn st t r w (perform env st t o).1 (perform env st t o).2 := by
    intro t o
    cases o with
    | nothing | query r u => exact .inl ⟨rfl, rfl, by simp [perform]⟩
    | lock r w => exact .inr ⟨r, w, rfl, poll_turn env st t r w⟩
    | unlock k span =>
      refine .inl ⟨rfl, rfl, ?_⟩
      simp only [perform]
      split <;> decide
  cases ev with
  | flock t f op =>
    right
    simp only [step, flkFlock, order]
    cases h : flockOrder f op with
    | error e => exact .inl ⟨rfl, rfl, by simpa using flockOrder_error h⟩
    | ok o =>
      rcases hperform t o with hk | ⟨r, w, ho, hturn⟩
      · exact .inl hk
      · exact .inr ⟨t, r, w, rfl, by simp [Except.toOption, ho], hturn⟩
  | fcntl t f cmd u =>
    right
    simp only [step, flkFcntl, order]
    cases h : fcntlOrder t.sh f cmd u with
    | error e => exact .inl ⟨rfl, rfl, by simpa using fcntlOrder_error h⟩
    | ok o =>
      rcases hperform t o with hk | ⟨r, w, ho, hturn⟩
      · exact .inl hk
      · exact .inr ⟨t, r, w, rfl, by simp [Except.toOption, ho], hturn⟩
  | poll t =>
    right
    simp only [step, order]
    cases st.asleep t with
    | none => exact .inl ⟨rfl, rfl, by simp⟩
    | some r => exact .inr ⟨t, r, true, rfl, rfl, poll_turn env st t r true⟩
  | close sh f =>
    right; left
    simp only [step, flkClose]
    split <;> exact ⟨rfl, rfl, by simp⟩
  | release f => exact .inr (.inl ⟨rfl, rfl, by simp [step]⟩)
  | exit sh => exact .inl ⟨sh, rfl⟩

/-! ## Runs of a few owners -/

def Mine (t : Thread) (r : Request) : Prop :=
  (r.kind = .posix → r.own = .table t.sh) ∧ ∀ sh, r.own = .table sh → sh = t.sh

structure Sane (os : List Owner) (st : State) : Prop where
  table : TableOk os st.wt
  asleep : ∀ t r, st.asleep t = some r → r.own ∈ os ∧ Mine t r

section Sane

variable {os : List Owner} {st st' : State} {env : Env} {ev : Event} {t : Thread}
  {r : Request} {w : Bool} {res : Res}

section

variable (h : Sane os st)

include h

theorem Sane.request (hev : ∀ o, ev.owner = some o → o ∈ os) (ht : ev.thread = some t)
    (ho : order st ev = .lock r w) : r.own ∈ os ∧ Mine t r := by
  cases ev with
  | flock t f op =>
    cases hord : flockOrder f op with
    | error e => simp [order, hord, Except.toOption] at ho
    | ok o =>
      simp only [order, hord, Except.toOption, getD_some] at ho
      have hkey := flockOrder_lock (ho ▸ hord)
      rw [Mine, hkey]
      exact ⟨hev _ rfl, fun hk => (by cases hk), fun sh hk => (by cases hk)⟩
  | fcntl t' f cmd u =>
    obtain rfl : t' = t := some.inj ht
    cases hord : fcntlOrder t'.sh f cmd u with
    | error e => simp [order, hord, Except.toOption] at ho
    | ok o =>
      simp only [order, hord, Except.toOption, getD_some] at ho
      have hkey := fcntlOrder_lock (ho ▸ hord)
      rw [Mine, hkey]
      refine ⟨hev _ rfl, ?_⟩
      unfold fcntlKey
      split
      · exact ⟨fun hk => (by cases hk), fun sh hk => (by cases hk)⟩
      · exact ⟨fun _ => rfl, fun sh hk => (by cases hk; rfl)⟩
  | poll t' =>
    obtain rfl : t' = t := some.inj ht
    cases hs : st.asleep t' with
    | none => simp [order, hs] at ho
    | some r' =>
      simp only [order, hs, map_some, getD_some, Order.lock.injEq] at ho
      exact ho.1 ▸ h.asleep t' r' hs
  | close sh f | release f | exit sh => cases ht

theorem Sane.turn (hown : r.own ∈ os) (hmine : Mine t r) (hturn : Turn st t r w st' res) :
    Sane os st' := by
  have hwake : ∀ t' r', (st.wake t []).asleep t' = some r' → r'.own ∈ os ∧ Mine t' r' := by
    intro t' r' heq
    simp only [State.wake] at heq
    split_ifs at heq
    exact h.asleep t' r' heq
  cases hturn with
  | grant hfree hwt hasleep hres =>
    exact ⟨hwt ▸ h.table.waitClr _, fun t' r' heq => hwake t' r' (hasleep ▸ heq)⟩
  | again hwait => exact h
  | dead hclash hkind hdead => exact ⟨h.table.waitClr _, hwake⟩
  | intr hclash => exact ⟨(h.table.waitSet hown _).waitClr _, hwake⟩
  | sleep hclash hlive =>
    refine ⟨h.table.waitSet hown _, ?_⟩
    intro t' r' heq
    simp only [State.sleep] at heq
    split_ifs at heq with ht
    · cases heq
      exact ht ▸ ⟨hown, hmine⟩
    · exact h.asleep t' r' heq

theorem Sane.step (hev : ∀ o, ev.owner = some o → o ∈ os) : Sane os (step env st ev).1 := by
  rcases step_cases env st ev with ⟨sh, rfl⟩ | ⟨hwt, hasleep, -⟩ | ⟨t, r, w, ht, ho, hturn⟩
  · refine ⟨h.table.waitClr _, ?_⟩
    intro t r heq
    simp only [Flock.step, flkExit] at heq
    split_ifs at heq
    exact h.asleep t r heq
  · exact ⟨hwt ▸ h.table, hasleep ▸ h.asleep⟩
  obtain ⟨hown, hmine⟩ := h.request hev ht ho
  exact h.turn hown hmine hturn

theorem Sane.play {evs : List (Env × Event)} (hevs : ∀ x ∈ evs, ∀ o, x.2.owner = some o → o ∈ os) :
    Sane os (play st evs) := by
  induction evs generalizing st with
  | nil => exact h
  | cons x evs ih =>
    apply ih ?_ fun y hy => hevs y (mem_cons_of_mem _ hy)
    unfold next
    split
    · exact h.step (hevs x mem_cons_self)
    · exact h

end

theorem sane_boot (os : List Owner) : Sane os boot := by
  refine ⟨⟨rfl, ?_, ?_⟩, fun t r heq => by cases heq⟩
  · exact pairwise_replicate.2 (.inr fun o ho => by cases ho)
  intro o on hmem
  cases eq_of_mem_replicate hmem

end Sane

def BlockedBy (ls : List Lock) (r : Request) (o : Owner) : Prop :=
  ∃ l ∈ ls, l.node = r.node ∧ clash l r = true ∧ l.own = o

def Waits (st : State) (o o' : Owner) : Prop :=
  ∃ t r, st.asleep t = some r ∧ r.own = o ∧ BlockedBy st.locks r o'

instance (ls : List Lock) (r : Request) (o : Owner) : Decidable (BlockedBy ls r o) :=
  inferInstanceAs (Decidable (∃ l ∈ ls, l.node = r.node ∧ clash l r = true ∧ l.own = o))

variable {r : Request} {st : State} {ls : List Lock} {d : Nat}

theorem findClash_blocks {c : Lock} (h : findClash ls r = some c) : BlockedBy ls r c.own := by
  have hc := find?_some h
  simp only [Bool.and_eq_true, decide_eq_true_eq] at hc
  exact ⟨c, mem_of_find?_eq_some h, hc.1, hc.2, rfl⟩

theorem BlockedBy.findClash {o : Owner} (h : BlockedBy ls r o) : ∃ c, findClash ls r = some c := by
  obtain ⟨l, hl, hnode, hclash, -⟩ := h
  cases hf : Flock.findClash ls r with
  | some c => exact ⟨c, rfl⟩
  | none => simpa [hnode, hclash] using find?_eq_none.1 hf l hl

def trail (wt : WaitTable) (me : Owner) : Nat → Option Owner → List Owner
  | 0, _ => []
  | _ + 1, none => []
  | d + 1, some on => if on = me then [] else on :: trail wt me d (waitsOn wt on)

def Current (st : State) (me on : Owner) : Prop :=
  ∀ o ∈ trail st.wt me 16 (some on), ∀ o', waitsOn st.wt o = some o' → Waits st o o'

theorem walk_chain {me on : Owner}
    (hcur : ∀ o ∈ trail st.wt me d (some on), ∀ o', waitsOn st.wt o = some o' → Waits st o o')
    (h : walk st.wt me d (some on) = true) : Relation.ReflTransGen (Waits st) on me := by
  induction d generalizing on with
  | zero => cases h
  | succ d ih =>
    by_cases hme : on = me
    · exact hme ▸ .refl
    simp only [walk, hme, decide_false, Bool.false_or] at h
    simp only [trail, if_neg hme, mem_cons, forall_eq_or_imp] at hcur
    cases hon : waitsOn st.wt on with
    | none =>
      rw [hon] at h
      cases d <;> cases h
    | some on' =>
      rw [hon] at h hcur
      exact .head (hcur.1 on' rfl) (ih hcur.2 h)

/-- The state in which the request of a running call counts as waiting too. -/
def State.pend (st : State) (t : Thread) (r : Request) : State := st.sleep t r st.wt

theorem Waits.pend {t : Thread} {o o' : Owner} (ht : st.asleep t = none ∨ st.asleep t = some r)
    (h : Waits st o o') : Waits (st.pend t r) o o' := by
  obtain ⟨t', r', hs, hown, hb⟩ := h
  refine ⟨t', r', ?_, hown, hb⟩
  simp only [State.pend, State.sleep]
  split_ifs with heq
  · rcases ht with ht | ht
    · simp [heq, ht] at hs
    · rw [← hs, heq, ht]
  · exact hs

theorem order_pending {ev : Event} {t : Thread} {w : Bool}
    (hen : enabled st ev = true) (ht : ev.thread = some t) (ho : order st ev = .lock r w) :
    st.asleep t = none ∨ st.asleep t = some r := by
  cases ev with
  | flock t' f op | fcntl t' f cmd u => exact .inl (by cases ht; simpa [enabled] using hen)
  | poll t' =>
    cases ht
    cases hs : st.asleep t with
    | none => exact .inl rfl
    | some r' =>
      simp only [order, hs, map_some, getD_some, Order.lock.injEq] at ho
      exact .inr (by rw [ho.1])
  | close sh f | release f | exit sh => cases ht

theorem step_edeadlk {env : Env} {ev : Event} (h : (step env st ev).2 = .error .edeadlk) :
    ∃ t r w c, ev.thread = some t ∧ order st ev = .lock r w ∧ r.kind = .posix ∧
      findClash st.locks r = some c ∧ deadlock st.wt r.own c.own = true := by
  rcases step_cases env st ev with ⟨sh, rfl⟩ | ⟨-, -, hne⟩ | ⟨t, r, w, ht, ho, hturn⟩
  · cases h
  · exact absurd h hne
  rw [h] at hturn
  generalize (step env st ev).1 = st' at hturn
  cases hturn with
  | grant hfree hwt hasleep hres => exact absurd rfl hres
  | dead hclash hkind hdead => exact ⟨t, r, w, _, ht, ho, hkind, hclash, hdead⟩

/-! ## Cycles that are found -/

section Ring

variable {n : Nat}

structure Stuck (th : Fin (n + 1) → Thread) (rq : Fin (n + 1) → Request) (st : State) :
    Prop where
  asleep : ∀ i, st.asleep (th i) = some (rq i)
  posix : ∀ i, (rq i).kind = .posix
  blocked : ∀ i, BlockedBy st.locks (rq i) (rq (i + 1)).own

def Sole (rq : Fin (n + 1) → Request) (st : State) : Prop :=
  ∀ i o, BlockedBy st.locks (rq i) o → o = (rq (i + 1)).own

def polled : Event → List Thread
  | .poll t => [t]
  | _ => []

/-- The states a ring can stay in, with the threads that have polled meanwhile.  The
processes of the ring have no other thread that locks. -/
inductive Standoff (os : List Owner) (th : Fin (n + 1) → Thread) (rq : Fin (n + 1) → Request)
    (st₀ : State) : List Thread → State → Prop
  | start (hstuck : Stuck th rq st₀) (hsole : Sole rq st₀) : Standoff os th rq st₀ [] st₀
  | step {ts : List Thread} {st : State} (h : Standoff os th rq st₀ ts st) (env : Env)
      (ev : Event) (hen : enabled st ev = true) (hev : ∀ o, ev.owner = some o → o ∈ os)
      (hone : ∀ i t, ev.thread = some t → t.sh = (th i).sh → t = th i)
      (hstuck : Stuck th rq (Flock.step env st ev).1) (hsole : Sole rq (Flock.step env st ev).1) :
      Standoff os th rq st₀ (polled ev ++ ts) (Flock.step env st ev).1

variable {os : List Owner} {th : Fin (n + 1) → Thread} {rq : Fin (n + 1) → Request}
  {st₀ st : State} {ts : List Thread} {env : Env} {ev : Event}

theorem Standoff.stuck (h : Standoff os th rq st₀ ts st) : Stuck th rq st := by
  cases h with
  | start hstuck hsole | step h env ev hen hev hone hstuck hsole => exact hstuck

theorem Standoff.sole (h : Standoff os th rq st₀ ts st) : Sole rq st := by
  cases h with
  | start hstuck hsole | step h env ev hen hev hone hstuck hsole => exact hsole

theorem Standoff.sane (hst : Sane os st₀) (h : Standoff os th rq st₀ ts st) : Sane os st := by
  induction h with
  | start hstuck hsole => exact hst
  | step h env ev hen hev hone hstuck hsole ih => exact ih.step hev

theorem Turn.entry_kept {st' : State} {t : Thread} {r : Request} {w : Bool} {res : Res} {o : Owner}
    (h : Turn st t r w st' res) (ho : o ≠ r.own) : waitsOn st'.wt o = waitsOn st.wt o := by
  cases h with
  | grant hfree hwt hasleep hres => rw [hwt, waitsOn_waitClr_ne ho]
  | again hwait => rfl
  | dead hclash hkind hdead => exact waitsOn_waitClr_ne ho
  | intr hclash => exact (waitsOn_waitClr_ne ho).trans (waitsOn_waitSet_ne ho)
  | sleep hclash hlive => exact waitsOn_waitSet_ne ho

theorem enabled_asleep {t : Thread} {r : Request} (hen : enabled st ev = true)
    (ht : ev.thread = some t) (hs : st.asleep t = some r) : ev = .poll t := by
  cases ev with
  | flock t' f op | fcntl t' f cmd u => cases ht; simp [enabled, hs] at hen
  | poll t' => cases ht; rfl
  | close sh f | release f | exit sh => cases ht

theorem Stuck.entry_kept (hstuck : Stuck th rq st) (hsane : Sane os st)
    (hen : enabled st ev = true) (hev : ∀ o, ev.owner = some o → o ∈ os)
    (hone : ∀ i t, ev.thread = some t → t.sh = (th i).sh → t = th i)
    (hnext : Stuck th rq (Flock.step env st ev).1) {i : Fin (n + 1)} (hne : ev ≠ .poll (th i)) :
    waitsOn (Flock.step env st ev).1.wt (rq i).own = waitsOn st.wt (rq i).own := by
  have hown : (rq i).own = .table (th i).sh :=
    (hsane.asleep _ _ (hstuck.asleep i)).2.1 (hstuck.posix i)
  rcases step_cases env st ev with ⟨sh, rfl⟩ | ⟨hwt, -, -⟩ | ⟨t, r, w, ht, ho, hturn⟩
  · apply waitsOn_waitClr_ne
    rw [hown]
    rintro ⟨⟩
    have := hnext.asleep i
    simp [Flock.step, flkExit] at this
  · rw [hwt]
  apply hturn.entry_kept
  intro heq
  have hsh := (hsane.request hev ht ho).2.2 (th i).sh (heq ▸ hown)
  obtain rfl := hone i t ht hsh.symm
  exact hne (enabled_asleep hen ht (hstuck.asleep i))

theorem Stuck.entry_set (hstuck : Stuck th rq st) (hsole : Sole rq st) (hsane : Sane os st)
    (hos : os.length ≤ 16) {i : Fin (n + 1)}
    (hnext : Stuck th rq (Flock.step env st (.poll (th i))).1) :
    waitsOn (Flock.step env st (.poll (th i))).1.wt (rq i).own = some (rq (i + 1)).own := by
  have hturn := poll_turn env st (th i) (rq i) true
  have hstep : Flock.step env st (.poll (th i)) = poll env st (th i) (rq i) true := by
    simp [Flock.step, hstuck.asleep i]
  have hstill := hnext.asleep i
  rw [hstep] at hstill ⊢
  generalize (poll env st (th i) (rq i) true).1 = st' at hturn hstill
  generalize (poll env st (th i) (rq i) true).2 = res at hturn
  cases hturn with
  | grant hfree hwt hasleep hres => simp [hasleep, State.wake] at hstill
  | again hwait => cases hwait
  | dead hclash hkind hdead | intr hclash => simp [State.wake] at hstill
  | sleep hclash hlive =>
    rw [← hsole i _ (findClash_blocks hclash)]
    exact waitsOn_waitSet_self hsane.table hos

theorem Standoff.entry (hsane : Sane os st₀) (hos : os.length ≤ 16)
    (h : Standoff os th rq st₀ ts st) {i : Fin (n + 1)} (hi : th i ∈ ts) :
    waitsOn st.wt (rq i).own = some (rq (i + 1)).own := by
  induction h with
  | start hstuck hsole => cases hi
  | step h env ev hen hev hone hstuck hsole ih =>
    by_cases hpoll : ev = .poll (th i)
    · subst hpoll
      exact h.stuck.entry_set h.sole (h.sane hsane) hos hstuck
    rw [h.stuck.entry_kept (h.sane hsane) hen hev hone hstuck hpoll]
    apply ih
    rcases mem_append.1 hi with hi | hi
    · cases ev <;> simp_all [polled]
    · exact hi

theorem walk_ring {i : Fin (n + 1)} {wt : WaitTable}
    (hent : ∀ j, j ≠ i → waitsOn wt (rq j).own = some (rq (j + 1)).own) {m : Nat}
    (hm : m < d) {j : Fin (n + 1)} (hj : j + Fin.ofNat (n + 1) m = i) :
    walk wt (rq i).own d (some (rq j).own) = true := by
  induction m generalizing d j with
  | zero =>
    obtain ⟨d, rfl⟩ := Nat.exists_eq_succ_of_ne_zero (Nat.ne_of_gt hm)
    obtain rfl : j = i := by simpa using hj
    simp [walk]
  | succ m ih =>
    obtain ⟨d, rfl⟩ := Nat.exists_eq_succ_of_ne_zero (Nat.ne_of_gt (Nat.zero_lt_of_lt hm))
    by_cases hji : j = i
    · simp [walk, hji]
    rw [walk, hent j hji, ih (by omega), Bool.or_true]
    rw [← hj, Fin.ext_iff]
    simp only [Fin.val_add, Fin.val_ofNat, Fin.val_one', Nat.add_mod_mod, Nat.mod_add_mod]
    congr 1
    omega

theorem Standoff.length_le (hsane : Sane os st₀) (hos : os.length ≤ 16)
    (hinj : Function.Injective fun i => (rq i).own) (h : Standoff os th rq st₀ ts st) :
    n + 1 ≤ 16 := by
  have hnodup : (ofFn fun i => (rq i).own).Nodup := nodup_ofFn.2 hinj
  have hsub : (ofFn fun i => (rq i).own) ⊆ os := by
    intro o ho
    obtain ⟨i, rfl⟩ := (mem_ofFn' _ _).1 ho
    exact ((h.sane hsane).asleep _ _ (h.stuck.asleep i)).1
  have hlen := (hnodup.subperm hsub).length_le
  rw [length_ofFn] at hlen
  omega

theorem Standoff.last_poll (hsane : Sane os st₀) (hos : os.length ≤ 16)
    (hinj : Function.Injective fun i => (rq i).own) (h : Standoff os th rq st₀ ts st)
    {i : Fin (n + 1)} (hall : ∀ j, j ≠ i → th j ∈ ts) (env : Env) :
    (Flock.step env st (.poll (th i))).2 = .error .edeadlk := by
  obtain ⟨c, hc⟩ := (h.stuck.blocked i).findClash
  have hown : c.own = (rq (i + 1)).own := h.sole i _ (findClash_blocks hc)
  have hn := h.length_le hsane hos hinj
  have hdead : deadlock st.wt (rq i).own c.own = true := by
    rw [hown]
    apply walk_ring (fun j hj => h.entry hsane hos (hall j hj)) (m := n) (by omega)
    rw [Fin.ext_iff]
    simp only [Fin.val_add, Fin.val_ofNat, Fin.val_one', Nat.add_mod_mod, Nat.mod_add_mod]
    rw [Nat.add_assoc, Nat.add_comm 1 n, Nat.add_mod_right, Nat.mod_eq_of_lt i.isLt]
  simp [Flock.step, h.stuck.asleep i, poll, hc, h.stuck.posix i, hdead]

end Ring

/-- With at most 16 owners: a reported deadlock is a cycle of waiting owners if the
entries that were followed are current, and a ring whose members are blocked by the
next one only is reported to the last of them to poll. -/
theorem edeadlk_sound_complete (os : List Owner) (hos : os.length ≤ 16)
    (evs : List (Env × Event)) (hevs : ∀ x ∈ evs, ∀ o, x.2.owner = some o → o ∈ os) :
    (∀ env ev, enabled (play boot evs) ev = true →
      (step env (play boot evs) ev).2 = .error .edeadlk →
      ∃ t r w c, ev.thread = some t ∧ order (play boot evs) ev = .lock r w ∧
        r.kind = .posix ∧ findClash (play boot evs).locks r = some c ∧
        (Current (play boot evs) r.own c.own →
          Relation.TransGen (Waits ((play boot evs).pend t r)) r.own r.own)) ∧
    (∀ (n : Nat) (th : Fin (n + 1) → Thread) (rq : Fin (n + 1) → Request),
      Function.Injective (fun i => (rq i).own) →
      ∀ ts st, Standoff os th rq (play boot evs) ts st →
      ∀ i, (∀ j, j ≠ i → th j ∈ ts) →
      ∀ env, (step env st (.poll (th i))).2 = .error .edeadlk) := by
  have hsane := (sane_boot os).play hevs
  constructor
  · intro env ev hen hres
    obtain ⟨t, r, w, c, ht, ho, hkind, hc, hdead⟩ := step_edeadlk hres
    refine ⟨t, r, w, c, ht, ho, hkind, hc, fun hcur => ?_⟩
    have hpend := order_pending hen ht ho
    have hback := walk_chain hcur hdead
    have hfirst : Waits ((play boot evs).pend t r) r.own c.own :=
      ⟨t, r, by simp [State.pend, State.sleep], rfl, findClash_blocks hc⟩
    exact .head' hfirst (hback.lift id fun _ _ hw => hw.pend hpend)
  intro n th rq hinj ts st h i hall env
  exact h.last_poll hsane hos hinj hall env

/-! ## Two runs -/

section Runs

private def env : Env := ⟨true, true, false, 0⟩

private def file : File := ⟨0, true, 0, 2, 0, 0⟩

private def proc (i : Nat) : Thread := ⟨i, 0⟩

private def call (i cmd : Nat) (type : U16) (byte : U64) : Env × Event :=
  (env, .fcntl (proc i) file cmd ⟨type, 0, byte, 1, 0⟩)

private def asked (i : Nat) (byte : U64) : Request :=
  fcntlRequest i file 7 .write ⟨byte, byte, BitVec.le_refl byte⟩

private def letGo : List (Env × Event) :=
  [call 0 6 1 1, call 1 6 1 2, call 1 7 1 1, call 0 6 2 1]

private def twoReaders : List (Env × Event) :=
  [call 0 6 0 5, call 2 6 0 5, call 1 6 1 2, call 1 7 1 5, call 0 7 1 2]

variable {st : State} {t : Thread} {r : Request}

theorem Turn.asleep_other {st' : State} {t' : Thread} {w : Bool} {res : Res}
    (h : Turn st t r w st' res) (ht : t' ≠ t) : st'.asleep t' = st.asleep t' := by
  cases h with
  | grant hfree hwt hasleep hres => simp [hasleep, State.wake, ht]
  | again hwait => rfl
  | dead hclash hkind hdead | intr hclash => simp [State.wake, ht]
  | sleep hclash hlive => simp [State.sleep, ht]

theorem next_asleep {x : Env × Event} (hx : x.2.thread ≠ some t)
    (h : (next st x).asleep t = some r) : st.asleep t = some r := by
  unfold next at h
  split at h
  · rcases step_cases x.1 st x.2 with ⟨sh, heq⟩ | ⟨-, hasleep, -⟩ | ⟨t', r', w, ht, -, hturn⟩
    · rw [heq] at h
      simp only [step, flkExit] at h
      split_ifs at h
      exact h
    · rwa [hasleep] at h
    · rwa [hturn.asleep_other fun (heq : t = t') => hx (heq ▸ ht)] at h
  · exact h

theorem play_asleep {evs : List (Env × Event)} (h : (play st evs).asleep t = some r) :
    t ∈ evs.filterMap (fun x => x.2.thread) ∨ st.asleep t = some r := by
  induction evs generalizing st with
  | nil => exact .inr h
  | cons x evs ih =>
    rcases ih h with hmem | hs
    · obtain ⟨y, hy, hty⟩ := mem_filterMap.1 hmem
      exact .inl (mem_filterMap.2 ⟨y, mem_cons_of_mem _ hy, hty⟩)
    by_cases hx : x.2.thread = some t
    · exact .inl (mem_filterMap.2 ⟨x, mem_cons_self, hx⟩)
    · exact .inr (next_asleep hx hs)

/-- A process that let go counts as a blocker until the waiter polls again, and a
cycle through the second of two readers is never seen. -/
theorem false_alarm_missed_cycle :
    ((step env (play boot letGo) (call 0 7 1 2).2).2 = .error .edeadlk ∧
      ¬ Relation.TransGen (Waits ((play boot letGo).pend (proc 0) (asked 0 2)))
        (.table 0) (.table 0)) ∧
    (Stuck ![proc 0, proc 1] ![asked 0 2, asked 1 5] (play boot twoReaders) ∧
      (step env (play boot twoReaders) (.poll (proc 0))).2 = .sleeps ∧
      (step env (play boot twoReaders) (.poll (proc 1))).2 = .sleeps ∧
      (step env (play boot (twoReaders ++ [(env, .poll (proc 0))])) (.poll (proc 1))).2 = .sleeps ∧
      (step env (play boot (twoReaders ++ [(env, .poll (proc 1))])) (.poll (proc 0))).2 =
        .sleeps) := by
  refine ⟨⟨by decide +kernel, ?_⟩, ⟨by decide +kernel, by decide +kernel, by decide +kernel⟩,
    by decide +kernel, by decide +kernel, by decide +kernel, by decide +kernel⟩
  intro hcycle
  have hwaits : ∀ o o', Waits ((play boot letGo).pend (proc 0) (asked 0 2)) o o' →
      BlockedBy (play boot letGo).locks (asked 0 2) o' := by
    rintro o o' ⟨t, r, hs, -, hb⟩
    by_cases ht : t = proc 0
    · simp only [State.pend, State.sleep, if_pos ht, some.injEq] at hs
      exact hs ▸ hb
    simp only [State.pend, State.sleep, if_neg ht] at hs
    rcases play_asleep hs with hmem | hboot
    swap
    · cases hboot
    obtain rfl : t = proc 1 := by simpa [letGo, call, Event.thread, ht] using hmem
    -- process 1 asks for byte 1, which nobody holds any more
    have hasked : (play boot letGo).asleep (proc 1) = some (asked 1 1) := by decide +kernel
    obtain ⟨l, hl, -, hclash, -⟩ := hb
    have hnone : ∀ l ∈ (play boot letGo).locks, clash l (asked 1 1) = false := by
      decide +kernel
    obtain rfl : asked 1 1 = r := some.inj (hasked.symm.trans hs)
    have hl' : l ∈ (play boot letGo).locks := hl
    rw [hnone l hl'] at hclash
    cases hclash
  obtain ⟨o, -, hlast⟩ := Relation.TransGen.tail'_iff.1 hcycle
  have hself : ¬ BlockedBy (play boot letGo).locks (asked 0 2) (.table 0) := by decide +kernel
  exact hself (hwaits o _ hlast)

private def ring : List (Env × Event) := twoReaders ++ [call 2 6 2 5]

theorem ring_found :
    Relation.TransGen (Waits ((play boot (ring ++ [(env, .poll (proc 0))])).pend (proc 1)
      (asked 1 5))) (.table 1) (.table 1) ∧
    (step env (step env (play boot ring) (.poll (proc 0))).1 (.poll (proc 1))).2 =
      .error .edeadlk := by
  have hring : ∀ x ∈ ring, ∀ o ∈ x.2.owner, o ∈ [Owner.table 0, .table 1, .table 2] := by
    decide
  have hpoll : ∀ x ∈ ring ++ [(env, .poll (proc 0))], ∀ o ∈ x.2.owner,
      o ∈ [Owner.table 0, .table 1, .table 2] := by
    decide
  constructor
  · obtain ⟨t, r, w, c, ht, ho, -, hc, hcycle⟩ :=
      (edeadlk_sound_complete _ (by decide) _ hpoll).1 env (.poll (proc 1))
        (by decide +kernel) (by decide +kernel)
    have hasleep : (play boot (ring ++ [(env, .poll (proc 0))])).asleep (proc 1) =
        some (asked 1 5) := by decide +kernel
    simp only [order, hasleep, map_some, getD_some, Order.lock.injEq] at ho
    obtain ⟨rfl, -⟩ := ho
    obtain rfl : proc 1 = t := some.inj ht
    apply hcycle
    have hown : (findClash (play boot (ring ++ [(env, .poll (proc 0))])).locks
        (asked 1 5)).map (fun l => l.own) = some (.table 0) := by decide +kernel
    rw [hc, map_some, some.injEq] at hown
    rw [Current, hown]
    have htrail : trail (play boot (ring ++ [(env, .poll (proc 0))])).wt (asked 1 5).own 16
        (some (.table 0)) = [.table 0] := by decide +kernel
    have hentry : waitsOn (play boot (ring ++ [(env, .poll (proc 0))])).wt (.table 0) =
        some (.table 1) := by decide +kernel
    intro o ho o' ho'
    rw [htrail, mem_singleton] at ho
    subst ho
    obtain rfl : .table 1 = o' := some.inj (hentry.symm.trans ho')
    exact ⟨proc 0, asked 0 2, by decide +kernel, rfl, by decide +kernel⟩
  have hstart : Standoff [.table 0, .table 1, .table 2] ![proc 0, proc 1]
      ![asked 0 2, asked 1 5] (play boot ring) [] (play boot ring) := by
    refine .start ⟨by decide +kernel, by decide, by decide +kernel⟩ ?_
    rintro i o ⟨l, hl, hnode, hclash, rfl⟩
    revert i l
    decide +kernel
  have hinj : Function.Injective fun i : Fin 2 => (![asked 0 2, asked 1 5] i).own := by
    decide
  refine (edeadlk_sound_complete _ (by decide) ring hring).2 1 _ _ hinj _ _
    (hstart.step env (.poll (proc 0)) (by decide +kernel) (fun o ho => by cases ho) ?_
      ⟨by decide +kernel, by decide, by decide +kernel⟩ ?_) 1 (by decide) env
  · rintro i t ⟨⟩
    revert i
    decide
  rintro i o ⟨l, hl, hnode, hclash, rfl⟩
  revert i l
  decide +kernel

end Runs

end SamaraOS.Flock
