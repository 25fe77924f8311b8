import SamaraOS.Proc.UringGraph
import SamaraOS.Lib.Weights

/-!
# Who has a request

A call of the pool has the requests that it will finish or start.  As long as no request is taken
while another call has it, a request has at most one such call, is completed when it leaves the
list and is put after that.
-/

namespace SamaraOS.Uring

open List

def Call.own : Call → Nat → Nat
  | .done q _, x | .dropLt q, x | .start q, x | .runPre q _, x | .exec q, x => has q x
  | .unlink q _ _, x | .cancelFor _ q _, x => has q x
  | .tail _ _ lt nx, x => (lt.elim 0 fun l => has l x) + nx.elim 0 fun n => has n x
  | .cancel _, _ | .look _, _ => 0

theorem has_self (q : Nat) : has q q ≠ 0 := by simp [has]

def Call.fin : Call → Nat → Nat
  | .tail q _ _ _, x => has q x
  | _, _ => 0

def owners (pool : List Call) (x : Nat) : Nat := (pool.map fun c => c.own x).sum

def fins (pool : List Call) (x : Nat) : Nat := (pool.map fun c => c.fin x).sum

def Regular (s : State) : Op → Prop
  | .pick q _ => owners s.pool q = 0
  | .go k => ∀ c, s.pool[k]? = some c →
    match c with
    -- the linked timeout of a request that is done is not running
    | .done q _ => ∀ l, (s.reqs q).lt = some l → (s.reqs l).st ≠ .run
    | .cancelFor t _ _ | .cancel t =>
      (s.reqs t).listed ∧ ((s.reqs t).st = .wait → owners s.pool t = 0)
    | .look q => (s.reqs q).listed
    | _ => True
  -- what `find_ud` stands on is on the list when it is read
  | .look k _ | .hit k => ∀ q, s.pool[k]? = some (.look q) → (s.reqs q).listed
  | _ => True

def RegularRun : State → List Op → Prop
  | _, [] => True
  | s, op :: ops => Regular s op ∧ ∀ s', step s op = some s' → RegularRun s' ops

def Fits (reqs : Nat → Req) : Call → Prop
  | .done q _ => Tied reqs q
  | .exec q | .runPre q _ => Tied reqs q ∧ (reqs q).st = .run
  | .start q => (reqs q).target = none ∧ (reqs q).st = .held
  | .tail q _ lt nx => (∀ l, lt = some l → (reqs l).target = some q) ∧
      ∀ x, nx = some x → (reqs x).target = none ∧ (reqs x).st = .held
  | .dropLt l => ∀ t, (reqs l).target = some t → (reqs t).listed = false
  | .unlink q t _ => (reqs t).listed ∧ (reqs t).lt = some q ∧ (reqs q).st = .run ∧
      (reqs q).target = none
  | .cancelFor _ q _ => (reqs q).target = none
  | .cancel _ | .look _ => True

variable {s s' : State} {k q : Nat} {c c' : Call}

section

variable (h : s.pool[k]? = some c)

include h

section

variable (new : List Call) (x : Nat)

theorem owners_replace :
    owners (new ++ s.pool.eraseIdx k) x + c.own x = owners new x + owners s.pool x := by
  have := sum_map_eraseIdx (fun c => Call.own c x) h
  simp only [owners, map_append, sum_append]
  omega

theorem fins_replace :
    fins (new ++ s.pool.eraseIdx k) x + c.fin x = fins new x + fins s.pool x := by
  have := sum_map_eraseIdx (fun c => Call.fin c x) h
  simp only [fins, map_append, sum_append]
  omega

theorem owners_other
    (hc' : c' ∈ s.pool.eraseIdx k) (x : Nat) : c'.own x + c.own x ≤ owners s.pool x := by
  have hsum := sum_map_eraseIdx (fun c => Call.own c x) h
  obtain ⟨j, hj⟩ := mem_iff_getElem?.1 hc'
  have hrest := sum_map_eraseIdx (fun c => Call.own c x) hj
  simp only [owners]
  omega

theorem own_le : c.own x ≤ owners s.pool x := by
  have := sum_map_eraseIdx (fun c => Call.own c x) h
  simp only [owners]
  omega

theorem fin_le : c.fin x ≤ fins s.pool x := by
  have := sum_map_eraseIdx (fun c => Call.fin c x) h
  simp only [fins]
  omega

end

def Unlinks (pool : List Call) (l p : Nat) : Prop := ∃ res, .unlink l p res ∈ pool

def Call.isUnlink : Call → Bool
  | .unlink _ _ _ => true
  | _ => false

theorem mem_eraseIdx_of_ne (hc' : c' ∈ s.pool) (hne : c' ≠ c) : c' ∈ s.pool.eraseIdx k := by
  obtain ⟨j, hj⟩ := mem_iff_getElem?.1 hc'
  have hjk : j ≠ k := by
    rintro rfl
    exact hne (Option.some.inj (hj.symm.trans h))
  exact mem_eraseIdx_iff_getElem?.2 ⟨j, hjk, hj⟩

theorem unlinks_replace {new : List Call} (hc : c.isUnlink = false) (hnew : ∀ c ∈ new, c.isUnlink = false) :
    Unlinks (new ++ s.pool.eraseIdx k) = Unlinks s.pool := by
  funext l p
  apply propext
  constructor
  · rintro ⟨res, hm⟩
    rcases mem_append.1 hm with hm | hm
    · cases hnew _ hm
    · exact ⟨res, mem_of_mem_eraseIdx hm⟩
  rintro ⟨res, hm⟩
  refine ⟨res, mem_append.2 (.inr (mem_eraseIdx_of_ne h hm ?_))⟩
  rintro rfl
  cases hc

theorem not_unlinks (hc : c.isUnlink = false) (hown : c.own q = 1)
    (hone : owners s.pool q ≤ 1) (p : Nat) : ¬ Unlinks s.pool q p := by
  rintro ⟨res, hm⟩
  have hne : Call.unlink q p res ≠ c := by
    rintro rfl
    cases hc
  have hu : Call.own (.unlink q p res) q = 1 := by simp [Call.own, has]
  have := owners_other h (mem_eraseIdx_of_ne h hm hne) q
  omega

end

theorem Fits.frame {r r' : Nat → Req} {n : Nat} (h : Fits r c)
    (hown : ∀ x, c.own x ≠ 0 → (r' x).target = (r x).target ∧ (r' x).st = (r x).st) (hlt : ∀ x t,
    c.own x ≠ 0 → (r t).listed → (r t).lt = some x → (r' t).listed ∧ (r' t).lt = some x)
    (hmade : ∀ x t, (r x).target = some t → t < n)
    (hoff : ∀ t, t < n → (r t).listed = false → (r' t).listed = false) : Fits r' c := by
  have htied : ∀ x, c.own x ≠ 0 → Tied r x → Tied r' x := by
    intro x hx ht t htx
    have htarget := (hown x hx).1
    obtain ⟨hlisted, hl⟩ := ht t (htarget ▸ htx)
    exact hlt x t hx hlisted hl
  cases c with
  | done q res => exact htied q (has_self q) h
  | tail q res lt nx =>
    constructor
    · intro l hl
      have := hown l (by simp [Call.own, has, hl])
      rw [this.1]
      exact h.1 l hl
    intro x hx
    have := hown x (by simp [Call.own, has, hx])
    rw [this.1, this.2]
    exact h.2 x hx
  | dropLt l =>
    intro t ht
    have := hown l (has_self l)
    rw [this.1] at ht
    exact hoff t (hmade l t ht) (h t ht)
  | start q =>
    have := hown q (has_self q)
    simp only [Fits, this.1, this.2]
    exact h
  | runPre q res =>
    have hq : Call.own (.runPre q res) q ≠ 0 := has_self q
    exact ⟨htied q hq h.1, (hown q hq).2.trans h.2⟩
  | exec q =>
    have hq : Call.own (.exec q) q ≠ 0 := has_self q
    exact ⟨htied q hq h.1, (hown q hq).2.trans h.2⟩
  | unlink q t res =>
    have hq : Call.own (.unlink q t res) q ≠ 0 := has_self q
    obtain ⟨hlisted, hl, hst, htarget⟩ := h
    have hkept := hlt q t hq hlisted hl
    have hsame := hown q hq
    exact ⟨hkept.1, hkept.2, hsame.2.trans hst, hsame.1.trans htarget⟩
  | cancelFor t q res => exact (hown q (has_self q)).1.trans h
  | cancel t => trivial
  | look q => trivial

/-! ## The invariant of a run -/

structure Inv (s : State) : Prop where
  graph : Graph s.reqs (owners s.pool) (Unlinks s.pool)
  fits : ∀ c ∈ s.pool, Fits s.reqs c
  fresh : ∀ x, s.next ≤ x → (s.reqs x).listed = false
  made : ∀ x t, (s.reqs x).target = some t → t < s.next
  older : ∀ p x, (s.reqs p).link = some x ∨ (s.reqs p).lt = some x → p < x
  live : ∀ x, (s.reqs x).put → (s.reqs x).listed = false
  taken : ∀ x, fins s.pool x ≤ 1 ∧
    (fins s.pool x ≠ 0 → x < s.next ∧ (s.reqs x).listed = false ∧ (s.reqs x).put = false)
  ended : ∀ x, x ∈ s.log.map Entry.q ↔ x < s.next ∧ (s.reqs x).listed = false
  once : (s.log.map Entry.q).Nodup
  posted : ∀ e ∈ s.log,
    e.removed ∧ e.posted = !((s.reqs e.q).sqe.skip && decide (0 ≤ e.res))
  safe : s.stale = false

theorem inv_boot : Inv boot := by
  refine ⟨⟨?_, ?_, ?_, ?_, ?_, ?_, ?_, ?_, ?_, ?_⟩, ?_, ?_, ?_, ?_, ?_, ?_, ?_, ?_, ?_, ?_⟩ <;>
    simp [boot, owners, fins, Unlinks]

theorem Inv.fitsAt (hi : Inv s) (hk : s.pool[k]? = some c) : Fits s.reqs c :=
  hi.fits c (mem_of_getElem? hk)

theorem Inv.owner (hi : Inv s) (hk : s.pool[k]? = some c) (hown : c.own q ≠ 0) :
    owners s.pool q = 1 ∧ (s.reqs q).listed ∧ (s.reqs q).put = false := by
  have hle := own_le hk q
  have hone := hi.graph.one q
  have hlisted := hi.graph.owned q (by omega)
  have hlive := hi.live q
  refine ⟨by omega, hlisted, ?_⟩
  grind

theorem Inv.live_of_listed (hi : Inv s) (hq : (s.reqs q).listed) : (s.reqs q).put = false := by
  have := hi.live q
  grind

theorem Inv.rest_own (hi : Inv s) (hk : s.pool[k]? = some c)
    (hc' : c' ∈ s.pool.eraseIdx k) (hown : c.own q ≠ 0) : c'.own q = 0 := by
  have := owners_other hk hc' q
  have := hi.graph.one q
  omega

structure Quiet (s s' : State) : Prop where
  next : s'.next = s.next
  log : s'.log = s.log
  safe : s'.stale = false
  same : ∀ x, (s'.reqs x).listed = (s.reqs x).listed ∧ (s'.reqs x).put = (s.reqs x).put ∧
    (s'.reqs x).sqe = (s.reqs x).sqe ∧ (s'.reqs x).link = (s.reqs x).link
  lt : ∀ x, (s'.reqs x).lt = (s.reqs x).lt ∨ (s'.reqs x).lt = none
  target : ∀ x, (s'.reqs x).target = (s.reqs x).target ∨ (s'.reqs x).target = none
  fins : ∀ x, Uring.fins s'.pool x = Uring.fins s.pool x

theorem Inv.quiet (hi : Inv s) (hquiet : Quiet s s')
    (hg : Graph s'.reqs (owners s'.pool) (Unlinks s'.pool))
    (hfits : ∀ c ∈ s'.pool, Fits s'.reqs c) : Inv s' := by
  obtain ⟨hnext, hlog, hsafe, hsame, hlt, htarget, hfins⟩ := hquiet
  refine ⟨hg, hfits, ?_, ?_, ?_, ?_, ?_, ?_, ?_, ?_, hsafe⟩
  · intro x hx
    rw [(hsame x).1]
    exact hi.fresh x (hnext ▸ hx)
  · intro x t hx
    have := hi.made x t
    have := htarget x
    grind
  · intro p x hx
    have := hi.older p x
    have := hlt p
    have := hsame p
    grind
  · intro x hx
    have := hi.live x
    have := hsame x
    grind
  · intro x
    have := hi.taken x
    have := hsame x
    have := hfins x
    grind
  · intro x
    rw [hlog, hnext, (hsame x).1]
    exact hi.ended x
  · rw [hlog]
    exact hi.once
  intro e he
  rw [hlog] at he
  have := hi.posted e he
  have := hsame e.q
  grind

theorem Inv.goes (new : List Call) (hi : Inv s) (hquiet : Quiet s s')
    (hpool : s'.pool = new ++ s.pool.eraseIdx k)
    (hg : Graph s'.reqs (owners s'.pool) (Unlinks s'.pool)) (hnew : ∀ c ∈ new, Fits s'.reqs c) (hown
    : ∀ c' ∈ s.pool.eraseIdx k, ∀ x, c'.own x ≠ 0 → (s'.reqs x).target = (s.reqs x).target ∧
    (s'.reqs x).st = (s.reqs x).st) (hlt : ∀ c' ∈ s.pool.eraseIdx k, ∀ x t, c'.own x ≠ 0 → (s.reqs
    t).listed → (s.reqs t).lt = some x → (s'.reqs t).lt = some x) : Inv s' := by
  refine hi.quiet hquiet hg ?_
  intro c' hc'
  rw [hpool] at hc'
  rcases mem_append.1 hc' with hc' | hc'
  · exact hnew c' hc'
  refine (hi.fits c' (mem_of_mem_eraseIdx hc')).frame (hown c' hc') ?_ hi.made ?_
  · intro x t hx hlisted hl
    exact ⟨(hquiet.same t).1.trans hlisted, hlt c' hc' x t hx hlisted hl⟩
  intro t _ ht
  exact (hquiet.same t).1.trans ht

section Steps

variable {s : State} {k : Nat}

section

variable (c : Call) (pool : List Call) (x : Nat)

theorem owners_cons : owners (c :: pool) x = c.own x + owners pool x := rfl

theorem owners_nil : owners [] x = 0 := rfl

theorem fins_cons : fins (c :: pool) x = c.fin x + fins pool x := rfl

end

variable {c : Call} {q t : Nat} {res : Int} {e : Sqe} {bad : Option Int}

theorem owners_next (hk : s.pool[k]? = some c) (c' : Call) (hsame : ∀ x, c'.own x = c.own x) :
    owners ([c'] ++ s.pool.eraseIdx k) = owners s.pool := by
  funext x
  have := owners_replace hk [c'] x
  rw [owners_cons, owners_nil, hsame] at this
  omega

theorem fins_quiet {new : List Call} (hk : s.pool[k]? = some c) (hc : ∀ x, c.fin x = 0)
    (hnew : ∀ x, fins new x = 0) (x : Nat) : fins (new ++ s.pool.eraseIdx k) x = fins s.pool x := by
  have := fins_replace hk new x
  rw [hc, hnew] at this
  omega

/-- The call at `k` gives way to `new`; the state and the target of `q`, which no other call has,
may change. -/
theorem Inv.revise {st : St} {tg : Option Nat} {new : List Call} (hi : Inv s)
    (hk : s.pool[k]? = some c) (hlive : (s.reqs q).put = false)
    (htg : tg = (s.reqs q).target ∨ tg = none) (hrest : ∀ c' ∈ s.pool.eraseIdx k, c'.own q = 0)
    (hfin : ∀ x, c.fin x = 0 ∧ fins new x = 0)
    (hg : ∀ r', (∀ x, r' x = { s.reqs x with
        st := if x = q then st else (s.reqs x).st
        target := if x = q then tg else (s.reqs x).target }) →
      Graph r' (owners (new ++ s.pool.eraseIdx k)) (Unlinks (new ++ s.pool.eraseIdx k)) ∧
        ∀ c ∈ new, Fits r' c) :
    Inv (((s.use q).set q { s.reqs q with st := st, target := tg }).replace k new) := by
  have hr : ∀ x, (((s.use q).set q { s.reqs q with st := st, target := tg }).replace k new).reqs x =
      { s.reqs x with
        st := if x = q then st else (s.reqs x).st
        target := if x = q then tg else (s.reqs x).target } := by
    intro x
    by_cases hx : x = q <;> simp [hx]
  obtain ⟨hgraph, hnew⟩ := hg _ hr
  refine hi.goes new ?_ rfl hgraph hnew ?_ ?_
  · refine ⟨rfl, rfl, by simp [hi.safe, hlive], ?_, ?_, ?_,
      fins_quiet hk (fun x => (hfin x).1) fun x => (hfin x).2⟩
    all_goals grind
  · intro c' hc' x hx
    have := hrest c' hc'
    grind
  · grind

theorem Inv.dropLt {l : Nat} (hi : Inv s) (hk : s.pool[k]? = some (.dropLt l)) :
    Inv (dropLtStep s k l) := by
  have hself : Call.own (.dropLt l) l ≠ 0 := has_self l
  have ho := hi.owner hk hself
  have hgone := hi.fitsAt hk
  refine hi.revise hk ho.2.2 (.inr rfl) (fun c' hc' => hi.rest_own hk hc' hself)
    (fun _ => ⟨rfl, rfl⟩) fun r' hr => ⟨?_, ?_⟩
  · rw [owners_next hk _ fun _ => by rfl, unlinks_replace hk rfl (by simp [Call.isUnlink])]
    exact hi.graph.dropTarget hgone fun x => by grind
  simp only [mem_singleton, forall_eq, Fits, Tied]
  grind

theorem Inv.startBad {e : Int} (hi : Inv s) (hk : s.pool[k]? = some (.start q))
    (hbad : (s.reqs q).bad = some e) : Inv (startStep s k q) := by
  have hself : Call.own (.start q) q ≠ 0 := has_self q
  have ho := hi.owner hk hself
  have hfits := hi.fitsAt hk
  have heq : startStep s k q =
      ((s.use q).set q { s.reqs q with st := .run }).replace k [.done q e] := by
    simp [startStep, hbad]
  rw [heq]
  refine hi.revise hk ho.2.2 (.inl rfl) (fun c' hc' => hi.rest_own hk hc' hself)
    (fun _ => ⟨rfl, rfl⟩) fun r' hr => ⟨?_, ?_⟩
  · rw [owners_next hk _ fun _ => by rfl, unlinks_replace hk rfl (by simp [Call.isUnlink])]
    exact hi.graph.startRun ho.1 fun x => by grind
  simp only [mem_singleton, forall_eq, Fits, Tied]
  simp only [Fits] at hfits
  grind

section

variable (s : State) (o : Option Nat)

theorem armLt_reqs (x : Nat) : (armLt s o).reqs x =
    { s.reqs x with st := if o = some x then .wait else (s.reqs x).st } := by
  cases o with
  | none => simp [armLt]
  | some l =>
    by_cases hx : x = l
    · simp [armLt, hx]
    · simp [armLt, hx, Ne.symm hx]

theorem armLt_rest : (armLt s o).pool = s.pool ∧
    (armLt s o).log = s.log ∧ (armLt s o).next = s.next := by
  cases o <;> exact ⟨rfl, rfl, rfl⟩

@[simp] theorem armLt_batches : (armLt s o).batches = s.batches := by
  cases o <;> rfl

theorem armLt_stale : (armLt s o).stale = (s.stale || o.any fun l => (s.reqs l).put) := by
  cases o <;> simp [armLt]

end

section

variable (hi : Inv s)

include hi

theorem Inv.startGood (hk : s.pool[k]? = some (.start q))
    (hbad : (s.reqs q).bad = none) : Inv (startStep s k q) := by
  have hself : Call.own (.start q) q ≠ 0 := has_self q
  have ho := hi.owner hk hself
  have hfits := hi.fitsAt hk
  have heq : startStep s k q =
      (armLt ((s.use q).set q { s.reqs q with st := .wait }) (s.reqs q).lt).replace k [] := by
    simp [startStep, hbad]
  rw [heq]
  have hr : ∀ x, ((armLt ((s.use q).set q { s.reqs q with st := .wait }) (s.reqs q).lt).replace
      k []).reqs x = { s.reqs x with
        st := if x = q ∨ (s.reqs q).lt = some x then .wait else (s.reqs x).st } := by
    intro x
    rw [State.replace_reqs, armLt_reqs]
    by_cases hx : x = q <;> simp [hx]
  have hrest := armLt_rest ((s.use q).set q { s.reqs q with st := .wait }) (s.reqs q).lt
  have hstale := armLt_stale ((s.use q).set q { s.reqs q with st := .wait }) (s.reqs q).lt
  have hltq : ∀ l, (s.reqs q).lt = some l →
      (s.reqs l).listed ∧ (s.reqs l).st = .held ∧ owners s.pool l = 0 ∧ l ≠ q := by
    intro l hl
    have := hi.graph.lt q l ho.2.1 hl
    have := hi.older q l (.inr hl)
    simp only [Fits] at hfits
    grind
  have hsafe : (armLt ((s.use q).set q { s.reqs q with st := .wait }) (s.reqs q).lt).stale =
      false := by
    rw [hstale]
    cases hl : (s.reqs q).lt with
    | none => simp [hi.safe, ho.2.2]
    | some l =>
      have hlisted := hltq l hl
      have := hi.live_of_listed hlisted.1
      simp [hi.safe, ho.2.2, hlisted.2.2.2, this]
  generalize armLt ((s.use q).set q { s.reqs q with st := .wait }) (s.reqs q).lt = a at *
  have hp : (a.replace k []).pool = [] ++ s.pool.eraseIdx k := by
    rw [State.replace_pool, hrest.1]
    rfl
  have hW : ∀ x, owners (a.replace k []).pool x + has q x = owners s.pool x := by
    intro x
    have : _ + has q x = _ := owners_replace hk [] x
    rw [hp, this, owners_nil, Nat.zero_add]
  have hU : Unlinks (a.replace k []).pool = Unlinks s.pool := by
    rw [hp]
    exact unlinks_replace hk rfl (by simp)
  refine hi.goes [] ?_ hp ?_ (by simp) ?_ ?_
  · refine ⟨hrest.2.2, hrest.2.1, hsafe, ?_, ?_, ?_, ?_⟩
    · grind
    · grind
    · grind
    rw [hp]
    exact fins_quiet hk (fun _ => rfl) (fun _ => rfl)
  · rw [hU]
    exact hi.graph.startWait ho.1 hfits.2 hfits.1 hr hW
  · intro c' hc' x hx
    have hq := hi.rest_own hk hc' hself
    have hl := hltq x
    have hle := owners_other hk hc' x
    have hxq : x ≠ q := by
      rintro rfl
      exact hx hq
    have hxl : (s.reqs q).lt ≠ some x := by
      intro hl'
      have := hl hl'
      omega
    rw [hr]
    simp [hxq, hxl]
  · grind

theorem Inv.runPreLto (hk : s.pool[k]? = some (.runPre q res)) (ht : (s.reqs q).target = some t) :
    Inv (((s.use q).set q { s.reqs q with target := none }).replace k [.unlink q t res]) := by
  have hself : Call.own (.runPre q res) q ≠ 0 := has_self q
  have ho := hi.owner hk hself
  have hfits := hi.fitsAt hk
  have htied := hfits.1 t ht
  have hU : ∀ l p, Unlinks ([.unlink q t res] ++ s.pool.eraseIdx k) l p ↔
      Unlinks s.pool l p ∨ (l = q ∧ p = t) := by
    intro l p
    constructor
    · rintro ⟨res', hm⟩
      rcases mem_append.1 hm with hm | hm
      · cases mem_singleton.1 hm
        exact .inr ⟨rfl, rfl⟩
      · exact .inl ⟨res', mem_of_mem_eraseIdx hm⟩
    rintro (⟨res', hm⟩ | ⟨rfl, rfl⟩)
    · exact ⟨res', mem_append.2 (.inr (mem_eraseIdx_of_ne hk hm (by simp)))⟩
    · exact ⟨res, by simp⟩
  refine hi.revise hk ho.2.2 (.inr rfl) (fun c' hc' => hi.rest_own hk hc' hself)
    (fun _ => ⟨rfl, rfl⟩) fun r' hr => ⟨?_, ?_⟩
  · rw [owners_next hk _ fun _ => by rfl]
    exact hi.graph.leave ho.1 hfits.2 ht (fun x => by grind) hU
  have hst := hfits.2
  simp only [mem_singleton, forall_eq, Fits]
  grind

/-- The call at `k` gives way to `new`, which has what it had. -/
theorem Inv.passes {new : List Call} (hk : s.pool[k]? = some c)
    (hlive : (s.reqs q).put = false) (hown : ∀ x, owners new x = c.own x)
    (hfin : ∀ x, c.fin x = 0 ∧ fins new x = 0)
    (hU : c.isUnlink = false ∧ ∀ c ∈ new, c.isUnlink = false) (hnew : ∀ c ∈ new, Fits s.reqs c) :
    Inv ((s.use q).replace k new) := by
  have hW : owners (new ++ s.pool.eraseIdx k) = owners s.pool := by
    funext x
    have := owners_replace hk new x
    rw [hown] at this
    omega
  refine hi.goes new ?_ rfl ?_ hnew ?_ ?_
  · refine ⟨rfl, rfl, by simp [hi.safe, hlive], ?_, ?_, ?_,
      fins_quiet hk (fun x => (hfin x).1) fun x => (hfin x).2⟩
    all_goals simp
  · rw [State.replace_pool, State.use_pool, hW, unlinks_replace hk hU.1 hU.2]
    exact hi.graph
  · simp
  · simp

theorem Inv.ends (hk : s.pool[k]? = some c)
    (hself : ∀ x, c.own x = has q x) (hfin : ∀ x, c.fin x = 0) (hc : c.isUnlink = false)
    (htied : Tied s.reqs q) : Inv ((s.use q).replace k [.done q res]) := by
  have hown : c.own q ≠ 0 := by simp [hself, has]
  exact hi.passes hk (hi.owner hk hown).2.2 (fun x => (hself x).symm) (fun x => ⟨hfin x, rfl⟩)
    ⟨hc, by simp [Call.isUnlink]⟩ (by simpa [Fits] using htied)

theorem Inv.runPre (hk : s.pool[k]? = some (.runPre q res)) : Inv (runPreStep s k q res) := by
  have hfits := hi.fitsAt hk
  cases ht : if (s.reqs q).sqe.isLto then (s.reqs q).target else none with
  | none =>
    have heq : runPreStep s k q res = (s.use q).replace k [.done q res] := by
      simp [runPreStep, ht]
    rw [heq]
    exact hi.ends hk (fun _ => rfl) (fun _ => rfl) rfl hfits.1
  | some t =>
    have heq : runPreStep s k q res =
        ((s.use q).set q { s.reqs q with target := none }).replace k [.unlink q t res] := by
      simp [runPreStep, ht]
    rw [heq]
    refine hi.runPreLto hk ?_
    split at ht
    · exact ht
    · cases ht

theorem Inv.unlink (hk : s.pool[k]? = some (.unlink q t res)) : Inv (unlinkStep s k q t res) := by
  have hself : Call.own (.unlink q t res) q ≠ 0 := has_self q
  obtain ⟨hlisted, hlt, hst, htarget⟩ := hi.fitsAt hk
  have hr : ∀ x, (unlinkStep s k q t res).reqs x =
      { s.reqs x with lt := if x = t then none else (s.reqs x).lt } := by
    intro x
    by_cases hx : x = t <;> simp [unlinkStep, hx]
  have hp : (unlinkStep s k q t res).pool = [.cancelFor t q res] ++ s.pool.eraseIdx k := rfl
  have hW := owners_next hk (.cancelFor t q res) fun _ => by rfl
  have hsafe : (unlinkStep s k q t res).stale = false := by
    simp [unlinkStep, hi.safe, hi.live_of_listed hlisted]
  refine hi.goes [.cancelFor t q res] ?_ hp ?_ ?_ ?_ ?_
  · refine ⟨rfl, rfl, hsafe, ?_, ?_, ?_, fins_quiet hk (fun _ => rfl) (fun _ => rfl)⟩
    all_goals grind
  · rw [hp, hW]
    refine hi.graph.forget hst hlisted hlt hr ?_ ?_
    · rintro l p ⟨res', hm⟩
      rcases mem_append.1 hm with hm | hm
      · cases mem_singleton.1 hm
      · exact ⟨res', mem_of_mem_eraseIdx hm⟩
    rintro l p ⟨res', hm⟩ hne
    refine ⟨res', mem_append.2 (.inr (mem_eraseIdx_of_ne hk hm ?_))⟩
    rintro h
    cases h
    exact hne rfl
  · simp only [mem_singleton, forall_eq, Fits]
    grind
  · grind
  intro c' hc' x p hx hp hpx
  have := hi.rest_own hk hc' hself
  grind

theorem Inv.cancels {rest : List Call} (hk : s.pool[k]? = some c)
    (hlisted : (s.reqs t).listed) (hfree : (s.reqs t).st = .wait → owners s.pool t = 0)
    (hown : ∀ x, owners rest x = c.own x) (hfin : ∀ x, c.fin x = 0) (hfins : ∀ x, fins rest x = 0)
    (hc : c.isUnlink = false) (hrest : ∀ c ∈ rest, c.isUnlink = false)
    (hfits : ∀ r' : Nat → Req, (∀ x, (r' x).target = (s.reqs x).target) → ∀ c ∈ rest, Fits r' c) :
    Inv (cancelStep s k t rest) := by
  have hlive := hi.live_of_listed hlisted
  unfold cancelStep
  split
  swap
  · exact hi.passes hk hlive hown (fun x => ⟨hfin x, hfins x⟩) ⟨hc, hrest⟩ (hfits _ fun _ => rfl)
  rename_i hst
  have hfree := hfree hst
  refine hi.revise hk hlive (.inl rfl) ?_ (fun x => ⟨hfin x, ?_⟩) fun r' hr => ⟨?_, ?_⟩
  · intro c' hc'
    have := owners_other hk hc' t
    omega
  · rw [fins_cons, hfins]
    rfl
  · rw [unlinks_replace hk hc (by simpa [Call.isUnlink] using hrest)]
    refine hi.graph.take hfree hlisted hst (fun x => by grind) fun x => ?_
    have := owners_replace hk (.done t ecanceled :: rest) x
    rw [owners_cons, hown] at this
    simp only [Call.own] at this
    omega
  intro c' hc'
  rcases mem_cons.1 hc' with rfl | hc'
  · have := hi.graph.tied t hlisted hfree
    simp only [Fits, Tied] at this ⊢
    grind
  · exact hfits _ (by grind) c' hc'

theorem Inv.looks {new : List Call} (hk : s.pool[k]? = some (.look q))
    (hlisted : (s.reqs q).listed) (hown : ∀ c ∈ new, ∀ x, c.own x = 0)
    (hfin : ∀ c ∈ new, ∀ x, c.fin x = 0) (hU : ∀ c ∈ new, c.isUnlink = false)
    (hfits : ∀ c ∈ new, Fits s.reqs c) : Inv ((s.use q).replace k new) := by
  refine hi.passes hk (hi.live_of_listed hlisted) (fun x => ?_) (fun x => ⟨rfl, ?_⟩) ⟨rfl, hU⟩ hfits
  · exact sum_eq_zero (by simpa using fun c hc => hown c hc x)
  · exact sum_eq_zero (by simpa using fun c hc => hfin c hc x)

theorem Inv.again (hk : s.pool[k]? = some (.exec q)) :
    Inv (((s.use q).set q { s.reqs q with st := .wait }).replace k []) := by
  have hself : Call.own (.exec q) q ≠ 0 := has_self q
  have ho := hi.owner hk hself
  have hfits := hi.fitsAt hk
  have hnot := not_unlinks hk rfl (q := q) (by simp [Call.own, has]) (hi.graph.one q)
  refine hi.revise hk ho.2.2 (.inl rfl) (fun c' hc' => hi.rest_own hk hc' hself)
    (fun _ => ⟨rfl, rfl⟩) fun r' hr => ⟨?_, by simp⟩
  rw [unlinks_replace hk rfl (by simp)]
  refine hi.graph.release ho.1 hfits.2 hfits.1 hnot (fun x => by grind) fun x => ?_
  have : _ + has q x = _ := owners_replace hk [] x
  rw [this, owners_nil, Nat.zero_add]

theorem Inv.pick (hlisted : (s.reqs q).listed)
    (hst : (s.reqs q).st = .wait) (hfree : owners s.pool q = 0) (hown : ∀ x, c.own x = has q x)
    (hfin : ∀ x, c.fin x = 0) (hc : c.isUnlink = false)
    (hfits : ∀ r', Tied r' q → (r' q).st = .run → Fits r' c) :
    Inv { s.set q { s.reqs q with st := .run } with pool := c :: s.pool } := by
  have hr : ∀ x, (s.set q { s.reqs q with st := .run }).reqs x =
      { s.reqs x with st := if x = q then .run else (s.reqs x).st } := by
    intro x
    by_cases hx : x = q <;> simp [hx]
  have hW : ∀ x, owners (c :: s.pool) x = owners s.pool x + has q x := by
    intro x
    rw [owners_cons, hown]
    omega
  have hU : Unlinks (c :: s.pool) = Unlinks s.pool := by
    funext l p
    simp only [Unlinks, mem_cons]
    grind [Call.isUnlink]
  refine hi.quiet ?_ ?_ ?_
  · refine ⟨rfl, rfl, hi.safe, ?_, ?_, ?_, ?_⟩
    · grind
    · grind
    · grind
    intro x
    rw [fins_cons, hfin, Nat.zero_add]
  · change Graph _ (owners (c :: s.pool)) (Unlinks (c :: s.pool))
    rw [hU]
    exact hi.graph.take hfree hlisted hst hr hW
  intro c' hc'
  rcases mem_cons.1 hc' with rfl | hc'
  · refine hfits _ ?_ (by simp)
    have := hi.graph.tied q hlisted hfree
    simp only [Tied] at this ⊢
    grind
  refine (hi.fits c' hc').frame ?_ ?_ hi.made ?_
  · intro x hx
    have hle : c'.own x ≤ owners s.pool x := by
      obtain ⟨j, hj⟩ := mem_iff_getElem?.1 hc'
      exact own_le hj x
    grind
  · grind
  · grind

omit hi in
theorem doneStep_reqs (s : State) (k q : Nat) (res : Int) (x : Nat) :
    (doneStep s k q res).reqs x = { s.reqs x with
      listed := (s.reqs x).listed && x ≠ q
      lt := if (s.reqs q).target = some x then none else (s.reqs x).lt } := by
  rw [doneStep, State.replace_reqs, clearLt_reqs]
  by_cases hx : x = q <;> simp [hx]

omit hi in
theorem doneStep_rest (s : State) (k q : Nat) (res : Int) : (doneStep s k q res).next = s.next ∧
    (doneStep s k q res).pool = [.tail q res (s.reqs q).lt (s.reqs q).link] ++ s.pool.eraseIdx k ∧
    (doneStep s k q res).log =
      ⟨q, (s.reqs q).listed, res, !((s.reqs q).sqe.skip && 0 ≤ res)⟩ :: s.log := by
  simp only [doneStep, State.replace_next, State.replace_pool, State.replace_log, clearLt_rest]
  exact ⟨rfl, rfl, rfl⟩

omit hi in
theorem doneStep_stale (hq : (s.reqs q).put = false)
    (ht : ∀ t, (s.reqs q).target = some t → (s.reqs t).put = false) (hs : s.stale = false) :
    (doneStep s k q res).stale = false := by
  rw [doneStep, State.replace_stale, clearLt_stale]
  cases htq : (s.reqs q).target with
  | none => simp [hs, hq]
  | some t =>
    have := ht t htq
    by_cases h : t = q <;> simp [hs, hq, h, this]

theorem Inv.done (hk : s.pool[k]? = some (.done q res))
    (hreg : ∀ l, (s.reqs q).lt = some l → (s.reqs l).st ≠ .run) : Inv (doneStep s k q res) := by
  have hself : Call.own (.done q res) q ≠ 0 := has_self q
  have ho := hi.owner hk hself
  have htied : Tied s.reqs q := hi.fitsAt hk
  have hnext : q < s.next := by
    have := hi.fresh q
    grind
  have hr := doneStep_reqs s k q res
  obtain ⟨hn, hp, hlog⟩ := doneStep_rest s k q res
  have hsafe : (doneStep s k q res).stale = false :=
    doneStep_stale ho.2.2 (fun t ht => hi.live_of_listed (htied t ht).1) hi.safe
  generalize doneStep s k q res = s' at *
  have hnot := not_unlinks hk rfl (q := q) (by simp [Call.own, has]) (hi.graph.one q)
  have hlt : ∀ l, (s.reqs q).lt = some l → owners s.pool l = 0 ∧ (s.reqs l).target = some q := by
    intro l hl
    have := hi.graph.lt q l ho.2.1 hl
    have := hi.graph.unlinks l q
    have := hreg l hl
    grind
  have hW : ∀ x, owners s'.pool x + has q x = ((s.reqs q).lt.elim 0 fun l => has l x) +
      ((s.reqs q).link.elim 0 fun l => has l x) + owners s.pool x := by
    intro x
    rw [hp]
    exact owners_replace hk [.tail q res (s.reqs q).lt (s.reqs q).link] x
  have hU : Unlinks s'.pool = Unlinks s.pool := by
    rw [hp]
    exact unlinks_replace hk rfl (by simp [Call.isUnlink])
  have hfins : ∀ x, fins s'.pool x = has q x + fins s.pool x := by
    intro x
    rw [hp]
    exact fins_replace hk [.tail q res (s.reqs q).lt (s.reqs q).link] x
  refine ⟨?_, ?_, ?_, ?_, ?_, ?_, ?_, ?_, ?_, ?_, hsafe⟩
  · rw [hU]
    exact hi.graph.done ho.1 htied hreg hnot hr hW
  · intro c' hc'
    rw [hp] at hc'
    rcases mem_append.1 hc' with hc' | hc'
    · rw [mem_singleton.1 hc']
      constructor
      · intro l hl
        rw [hr]
        exact (hlt l hl).2
      intro x hx
      have := hi.graph.link q x ho.2.1 hx
      rw [hr]
      exact ⟨this.2.2.2, this.2.1⟩
    have hq := hi.rest_own hk hc' hself
    refine (hi.fits c' (mem_of_mem_eraseIdx hc')).frame ?_ ?_ hi.made ?_
    · intro x _
      rw [hr]
      exact ⟨rfl, rfl⟩
    · intro x t hx ht htx
      have hle := owners_other hk hc' x
      -- the request that is done does not guard what another call has
      have htq : t ≠ q := by
        rintro rfl
        have := (hlt x htx).1
        omega
      have hclear : (s.reqs q).target ≠ some t := by
        intro h
        have := (htied t h).2
        grind
      rw [hr]
      simp [ht, htq, hclear, htx]
    · grind
  · intro x hx
    have := hi.fresh x
    grind
  · intro x t hx
    have := hi.made x t
    grind
  · intro p x hx
    have := hi.older p x
    grind
  · intro x hx
    have := hi.live x
    grind
  · intro x
    have := hi.taken x
    have := hfins x
    have := hr x
    by_cases hx : x = q
    · subst hx
      have h0 : fins s.pool x = 0 := by grind
      have h1 : has x x = 1 := by simp [has]
      grind
    have h0 : has q x = 0 := by simp [has, hx]
    grind
  · intro x
    have := hi.ended x
    rw [hlog, map_cons, mem_cons, hr, hn, this]
    by_cases hx : x = q
    · simp [hx, hnext]
    · simp [hx]
  · rw [hlog, map_cons, nodup_cons]
    refine ⟨?_, hi.once⟩
    rw [hi.ended]
    grind
  intro e he
  rw [hlog] at he
  rcases mem_cons.1 he with rfl | he
  · exact ⟨ho.2.1, by rw [hr]⟩
  rw [hr]
  exact hi.posted e he

omit hi in
theorem follow_own (fails : Bool) (q : Nat) (res : Int) (lt nx : Option Nat) (x : Nat) :
    owners ((lt.toList.map fun l => Call.dropLt l) ++ nx.toList.map fun x =>
      if fails then .done x ecanceled else .start x) x = Call.own (.tail q res lt nx) x := by
  cases lt <;> cases nx <;> cases fails <;> simp [owners, Call.own]

omit hi in
theorem follow_fin (fails : Bool) (lt nx : Option Nat) (x : Nat) :
    fins ((lt.toList.map fun l => Call.dropLt l) ++ nx.toList.map fun x =>
      if fails then .done x ecanceled else .start x) x = 0 := by
  cases lt <;> cases nx <;> cases fails <;> simp [fins, Call.fin]

omit hi in
theorem follow_isUnlink (fails : Bool) (lt nx : Option Nat) :
    ∀ c ∈ (lt.toList.map fun l => Call.dropLt l) ++ nx.toList.map fun x =>
      if fails then Call.done x ecanceled else .start x, c.isUnlink = false := by
  cases lt <;> cases nx <;> cases fails <;> simp [Call.isUnlink]

theorem Inv.tail {lt nx : Option Nat}
    (hk : s.pool[k]? = some (.tail q res lt nx)) : Inv (tailStep s k q res lt nx) := by
  have hle := fin_le hk q
  have hone := hi.taken q
  have hq1 : Call.fin (.tail q res lt nx) q = 1 := by simp [Call.fin, has]
  have ht := hone.2 (by omega)
  obtain ⟨hlt, hnx⟩ := hi.fitsAt hk
  have hr : ∀ x, (tailStep s k q res lt nx).reqs x =
      { s.reqs x with put := (s.reqs x).put || x = q } := by
    intro x
    by_cases hx : x = q <;> simp [tailStep, hx]
  have hsafe : (tailStep s k q res lt nx).stale = false := by
    simp [tailStep, hi.safe, ht.2.2]
  obtain ⟨new, hp, hn, hlog, hnewOwn, hnewFin, hnewUnlink, hnewFits⟩ : ∃ new,
      (tailStep s k q res lt nx).pool = new ++ s.pool.eraseIdx k ∧
      (tailStep s k q res lt nx).next = s.next ∧ (tailStep s k q res lt nx).log = s.log ∧
      (∀ x, owners new x = Call.own (.tail q res lt nx) x) ∧ (∀ x, fins new x = 0) ∧
      (∀ c ∈ new, c.isUnlink = false) ∧ ∀ c ∈ new, Fits s.reqs c := by
    refine ⟨_, rfl, rfl, rfl, follow_own _ q res lt nx, follow_fin _ lt nx,
      follow_isUnlink _ lt nx, ?_⟩
    · intro c hc
      rcases mem_append.1 hc with hc | hc
      · obtain ⟨l, hl, rfl⟩ := mem_map.1 hc
        intro t htl
        rw [hlt l (Option.mem_toList.1 hl)] at htl
        cases htl
        exact ht.2.1
      obtain ⟨x, hx, rfl⟩ := mem_map.1 hc
      have hx := hnx x (Option.mem_toList.1 hx)
      split
      · intro t htx
        rw [hx.1] at htx
        cases htx
      · exact hx
  generalize tailStep s k q res lt nx = s' at *
  have hW : owners s'.pool = owners s.pool := by
    funext x
    have := owners_replace hk new x
    rw [hnewOwn] at this
    rw [hp]
    omega
  have hU : Unlinks s'.pool = Unlinks s.pool := by
    rw [hp]
    exact unlinks_replace hk rfl hnewUnlink
  have hfins : ∀ x, fins s'.pool x + has q x = fins s.pool x := by
    intro x
    have : _ + has q x = _ := fins_replace hk new x
    rw [hp, this, hnewFin, Nat.zero_add]
  refine ⟨?_, ?_, ?_, ?_, ?_, ?_, ?_, ?_, ?_, ?_, hsafe⟩
  · rw [hW, hU]
    exact hi.graph.remark (by grind) fun x => .inl ⟨by rw [hr], rfl⟩
  · intro c' hc'
    have hfits : Fits s.reqs c' := by
      rw [hp] at hc'
      rcases mem_append.1 hc' with hc' | hc'
      · exact hnewFits c' hc'
      · exact hi.fits c' (mem_of_mem_eraseIdx hc')
    exact hfits.frame (by grind) (by grind) hi.made (by grind)
  · intro x hx
    have := hi.fresh x
    grind
  · intro x t hx
    have := hi.made x t
    grind
  · intro p x hx
    have := hi.older p x
    grind
  · intro x hx
    have := hi.live x
    grind
  · intro x
    have := hi.taken x
    have := hfins x
    have := hr x
    by_cases hx : x = q
    · subst hx
      have h1 : has x x = 1 := by simp [has]
      grind
    have h0 : has q x = 0 := by simp [has, hx]
    grind
  · intro x
    have := hi.ended x
    rw [hlog, hn, this, hr]
  · rw [hlog]
    exact hi.once
  intro e he
  rw [hlog] at he
  rw [hr]
  exact hi.posted e he

/-! ## Submission -/

structure Grows (s s' : State) : Prop where
  next : s'.next = s.next + 1
  log : s'.log = s.log
  stale : s'.stale = s.stale
  fins : ∀ x, Uring.fins s'.pool x = Uring.fins s.pool x
  new : ∃ e bad tg, s'.reqs s.next = newReq e bad tg ∧ ∀ t, tg = some t → t < s.next
  old : ∀ x, x ≠ s.next → s'.reqs x = { s.reqs x with
    link := (s'.reqs x).link, lt := (s'.reqs x).lt, bad := (s'.reqs x).bad }
  hangs : ∀ x, x ≠ s.next →
    ((s'.reqs x).link = (s.reqs x).link ∨ x < s.next ∧ (s'.reqs x).link = some s.next) ∧
    ((s'.reqs x).lt = (s.reqs x).lt ∨
      x < s.next ∧ (s.reqs x).lt = none ∧ (s'.reqs x).lt = some s.next)

theorem Inv.grows (h : Grows s s') (hg : Graph s'.reqs (owners s'.pool) (Unlinks s'.pool))
    (hpool : ∀ c ∈ s'.pool, c ∈ s.pool ∨ c = .start s.next ∧ (s'.reqs s.next).target = none) :
    Inv s' := by
  obtain ⟨hnext, hlog, hstale, hfins, ⟨e, bad, tg, hnew, htg⟩, hold, hhangs⟩ := h
  have hfresh := hi.fresh s.next (Nat.le_refl _)
  refine ⟨hg, ?_, ?_, ?_, ?_, ?_, ?_, ?_, ?_, ?_, ?_⟩
  · intro c hc
    rcases hpool c hc with hc | ⟨rfl, ht⟩
    swap
    · exact ⟨ht, by rw [hnew]; rfl⟩
    have hown : ∀ x, c.own x ≠ 0 → x ≠ s.next := by
      rintro x hx rfl
      obtain ⟨j, hj⟩ := mem_iff_getElem?.1 hc
      have := (hi.owner hj hx).2.1
      rw [hfresh] at this
      cases this
    refine (hi.fits c hc).frame ?_ ?_ hi.made ?_
    · intro x hx
      rw [hold x (hown x hx)]
      exact ⟨rfl, rfl⟩
    · intro x t hx ht htx
      have htn : t ≠ s.next := by
        rintro rfl
        rw [hfresh] at ht
        cases ht
      have := hold t htn
      have := hhangs t htn
      grind
    intro t ht hoff
    have := hold t (by omega)
    grind
  · intro x hx
    have := hi.fresh x (by omega)
    have := hold x (by omega)
    grind
  · intro x t hx
    have := hi.made x t
    by_cases hxn : x = s.next
    · subst hxn
      rw [hnew] at hx
      have := htg t hx
      omega
    have := hold x hxn
    grind
  · intro p x hx
    by_cases hpn : p = s.next
    · subst hpn
      rw [hnew] at hx
      simp [newReq] at hx
    have := hi.older p x
    have := hhangs p hpn
    grind
  · intro x hx
    have := hi.live x
    by_cases hxn : x = s.next
    · subst hxn
      rw [hnew] at hx
      cases hx
    have := hold x hxn
    grind
  · intro x
    have ht := hi.taken x
    rw [hfins]
    refine ⟨ht.1, fun hx => ?_⟩
    have hx := ht.2 hx
    rw [hold x (by omega)]
    exact ⟨by omega, hx.2⟩
  · intro x
    rw [hlog, hi.ended x]
    by_cases hxn : x = s.next
    · simp [hxn, hnew, newReq]
    rw [hold x hxn]
    constructor
    · rintro ⟨hx, hl⟩
      exact ⟨by omega, hl⟩
    rintro ⟨hx, hl⟩
    exact ⟨by omega, hl⟩
  · rw [hlog]
    exact hi.once
  · intro a ha
    rw [hlog] at ha
    have hmem := (hi.ended a.q).1 (mem_map_of_mem ha)
    rw [hold a.q (by omega)]
    exact hi.posted a ha
  rw [hstale]
  exact hi.safe

theorem Inv.owners_fresh : owners s.pool s.next = 0 := by
  have := hi.graph.owned s.next
  have := hi.fresh s.next
  grind

omit hi in
theorem unlinks_cons (hc : c.isUnlink = false) (pool : List Call) :
    Unlinks (c :: pool) = Unlinks pool := by
  funext l p
  simp only [Unlinks, mem_cons]
  grind [Call.isUnlink]

theorem Inv.addHead : Inv { s.set s.next (newReq e bad none) with
      next := s.next + 1, pool := .start s.next :: s.pool } := by
  have hfresh := hi.fresh s.next (Nat.le_refl _)
  refine hi.grows ⟨rfl, rfl, rfl, ?_, ⟨e, bad, none, ?_, ?_⟩, ?_, ?_⟩ ?_ ?_
  · intro x
    rw [fins_cons]
    exact Nat.zero_add _
  · simp
  · simp
  · intro x hx
    simp [hx]
  · intro x hx
    simp [hx]
  · change Graph _ (owners (.start s.next :: s.pool)) (Unlinks (.start s.next :: s.pool))
    rw [unlinks_cons rfl]
    have hown : ∀ x, owners (.start s.next :: s.pool) x = has s.next x + owners s.pool x :=
      owners_cons _ _
    have hfree := hi.owners_fresh
    refine hi.graph.add none none hfresh (by simp) (by simp) (by simp [newReq]) ?_ ?_ ?_
    · intro x hx
      simp [hx]
    · grind [has]
    · grind [has]
  intro c hc
  rcases mem_cons.1 hc with rfl | hc
  · exact .inr ⟨rfl, by simp [newReq]⟩
  · exact .inl hc

theorem Inv.reqs_add (ht : (s.reqs t).listed) (n : Req) : t < s.next ∧ ∀ v x,
    ((s.set s.next n).set t v).reqs x =
      if x = s.next then n else if x = t then v else s.reqs x := by
  have htn : t < s.next := by
    have := hi.fresh t
    grind
  refine ⟨htn, fun v x => ?_⟩
  by_cases hx : x = t
  · simp [hx, Nat.ne_of_lt htn]
  · simp [hx]

theorem Inv.addLink (ht : (s.reqs t).listed) (hlink : (s.reqs t).link = none) :
    Inv { (s.set s.next (newReq e bad none)).set t { s.reqs t with link := some s.next } with
      next := s.next + 1 } := by
  have hfresh := hi.fresh s.next (Nat.le_refl _)
  have hr := hi.reqs_add ht (newReq e bad none)
  refine hi.grows ⟨rfl, rfl, rfl, fun _ => rfl, ⟨e, bad, none, ?_, ?_⟩, ?_, ?_⟩ ?_ ?_
  · grind
  · simp
  · intro x hx
    rw [hr.2, if_neg hx]
    split
    · next h => rw [h]
    · rfl
  · grind
  · have hfree := hi.owners_fresh
    refine hi.graph.add (some t) none hfresh ?_ (by simp) ?_ ?_ (by simpa using hfree)
      (fun _ _ => rfl)
    · rintro _ ⟨⟩
      exact ⟨ht, hlink, rfl⟩
    · grind [newReq]
    · grind
  · exact fun c hc => .inl hc

theorem Inv.addLt {bad' : Option Int} (ht : (s.reqs t).listed)
    (hlt : (s.reqs t).lt = none) : Inv { (s.set s.next (newReq e bad (some t))).set t
      { s.reqs t with lt := some s.next, bad := bad' } with next := s.next + 1 } := by
  have hfresh := hi.fresh s.next (Nat.le_refl _)
  have hr := hi.reqs_add ht (newReq e bad (some t))
  refine hi.grows ⟨rfl, rfl, rfl, fun _ => rfl, ⟨e, bad, some t, ?_, ?_⟩, ?_, ?_⟩ ?_ ?_
  · grind
  · grind
  · intro x hx
    rw [hr.2, if_neg hx]
    split
    · next h => rw [h]
    · rfl
  · grind
  · have hfree := hi.owners_fresh
    refine hi.graph.add none (some t) hfresh (by simp) ?_ ?_ ?_ (by simpa using hfree)
      (fun _ _ => rfl)
    · rintro _ ⟨⟩
      exact ⟨ht, hlt⟩
    · grind [newReq]
    · grind
  · exact fun c hc => .inl hc

theorem Inv.append {b : Batch}
    (htl : ∀ t, b.tl = some t → (s.reqs t).listed ∧ (s.reqs t).link = none) :
    Inv (append e b s).1 := by
  unfold Uring.append
  cases hb : if b.isOpen then b.tl else none with
  | none => exact hi.addHead
  | some t =>
    obtain ⟨ht, hlink⟩ := htl t (by grind)
    dsimp only
    split
    · rename_i hc
      have hlt : (s.reqs t).lt = none := Option.isNone_iff_eq_none.1 (Bool.and_eq_true_iff.1 hc).2
      exact hi.addLt ht hlt
    · exact hi.addLink ht hlink

theorem Inv.go (hk : s.pool[k]? = some c)
    (hreg : Regular s (.go k)) (h : Uring.go s k c = some s') : Inv s' := by
  have hreg := hreg c hk
  cases c with
  | done q res =>
    cases h
    exact hi.done hk hreg
  | tail q res lt nx =>
    cases h
    exact hi.tail hk
  | dropLt l =>
    cases h
    exact hi.dropLt hk
  | start q =>
    cases h
    cases hbad : (s.reqs q).bad with
    | none => exact hi.startGood hk hbad
    | some e => exact hi.startBad hk hbad
  | runPre q res =>
    cases h
    exact hi.runPre hk
  | exec q => cases h
  | unlink q t res =>
    cases h
    exact hi.unlink hk
  | cancelFor t q res =>
    cases h
    have hfits := hi.fitsAt hk
    refine hi.cancels hk hreg.1 hreg.2 (fun _ => rfl) (fun _ => rfl) (fun _ => rfl) rfl
      (by simp [Call.isUnlink]) ?_
    intro r' hr' c hc
    rw [mem_singleton.1 hc]
    intro t' ht'
    rw [hr', hfits] at ht'
    cases ht'
  | cancel t =>
    cases h
    exact hi.cancels hk hreg.1 hreg.2 (fun _ => rfl) (fun _ => rfl) (fun _ => rfl) rfl
      (by simp) (by simp)
  | look q =>
    cases h
    exact hi.looks hk hreg (by simp) (by simp) (by simp) (by simp)

/-- A call that has no request comes. -/
theorem Inv.comes {c : Call} (hown : ∀ x, c.own x = 0) (hfin : ∀ x, c.fin x = 0)
    (hU : c.isUnlink = false) (hfits : Fits s.reqs c) : Inv { s with pool := c :: s.pool } := by
  have hW : owners (c :: s.pool) = owners s.pool := by
    funext x
    rw [owners_cons, hown, Nat.zero_add]
  refine hi.quiet ⟨rfl, rfl, hi.safe, by simp, by simp, by simp, ?_⟩ ?_ ?_
  · intro x
    rw [fins_cons, hfin, Nat.zero_add]
  · rw [hW, unlinks_cons hU]
    exact hi.graph
  intro c' hc'
  rcases mem_cons.1 hc' with rfl | hc'
  · exact hfits
  · exact hi.fits c' hc'

theorem Inv.withBatches (bs : List Batch) : Inv { s with batches := bs } :=
  ⟨hi.graph, hi.fits, hi.fresh, hi.made, hi.older, hi.live, hi.taken, hi.ended, hi.once, hi.posted,
    hi.safe⟩

end

end Steps

end SamaraOS.Uring
