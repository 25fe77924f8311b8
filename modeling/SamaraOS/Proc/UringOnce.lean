import SamaraOS.Proc.UringInv

/-!
# A request completes once

The requests of a batch that `sq_submit` is still reading are held, and nothing outside of the
batch points to them, so the calls of the pool leave them alone.  With that, every step keeps the
invariant.
-/

namespace SamaraOS.Uring

open List

section Steps

variable {s : State} {k : Nat}

/-! ## Batches that are not complete -/

def Out (s : State) (x : Nat) : Prop := ∀ b ∈ s.batches, x ∉ b.mem

structure Parked (s : State) : Prop where
  held : ∀ b ∈ s.batches, ∀ x ∈ b.mem, (s.reqs x).listed ∧ (s.reqs x).st = .held
  starts : ∀ b ∈ s.batches, ∀ x ∈ b.mem, ∀ c ∈ s.pool, c.own x ≠ 0 → c = .start x
  closed : ∀ b ∈ s.batches, ∀ p x, (s.reqs p).listed →
    (s.reqs p).link = some x ∨ (s.reqs p).lt = some x → x ∈ b.mem → p ∈ b.mem
  last : ∀ b ∈ s.batches, ∀ t, b.tl = some t → t ∈ b.mem ∧ (s.reqs t).link = none
  apart : ∀ x, (s.batches.map fun b => b.mem.count x).sum ≤ 1

variable {q x : Nat} {s' : State}

section

variable (hp : Parked s)

include hp

theorem Parked.out_of_own {c : Call} (hc : c ∈ s.pool) (hw : waits s c = false)
    (hq : c.own q ≠ 0) : Out s q := by
  intro b hb hmem
  rw [hp.starts b hb q hmem c hc hq] at hw
  simp only [waits, any_eq_false] at hw
  exact hw b hb (by simpa using hmem)

theorem Parked.out_behind (hq : Out s q) (hlisted : (s.reqs q).listed)
    (hx : (s.reqs q).link = some x ∨ (s.reqs q).lt = some x) : Out s x :=
  fun b hb hmem => hq b hb (hp.closed b hb q x hlisted hx hmem)

theorem Parked.out_of_wait (hx : (s.reqs x).st ≠ .held) : Out s x :=
  fun b hb hmem => hx (hp.held b hb x hmem).2

omit hp in
theorem eq_of_has (h : has q x ≠ 0) : x = q := by
  by_contra hne
  exact h (if_neg hne)

section

variable (new : List Call) (hb : s'.batches = s.batches)
  (hr : ∀ x, ¬ Out s x → (s'.reqs x).listed = (s.reqs x).listed ∧
    (s'.reqs x).st = (s.reqs x).st ∧ (s'.reqs x).link = (s.reqs x).link)
  (hptr : ∀ p x, (s'.reqs p).listed ∧ ((s'.reqs p).link = some x ∨ (s'.reqs p).lt = some x) →
    (s.reqs p).listed ∧ ((s.reqs p).link = some x ∨ (s.reqs p).lt = some x))

include hb hr hptr

theorem Parked.frame (hpool : ∀ c ∈ s'.pool, c ∈ s.pool ∨ ∀ x, c.own x ≠ 0 → Out s x) :
    Parked s' := by
  have hin : ∀ b ∈ s.batches, ∀ x ∈ b.mem, ¬ Out s x := fun b hb x hx ho => ho b hb hx
  constructor
  · intro b hbs x hx
    rw [hb] at hbs
    have hsame := hr x (hin b hbs x hx)
    rw [hsame.1, hsame.2.1]
    exact hp.held b hbs x hx
  · intro b hbs x hx c hc hown
    rw [hb] at hbs
    rcases hpool c hc with hc | hout
    · exact hp.starts b hbs x hx c hc hown
    · exact absurd (hout x hown) (hin b hbs x hx)
  · intro b hbs p x hpl hpx hx
    rw [hb] at hbs
    obtain ⟨hpl, hpx⟩ := hptr p x ⟨hpl, hpx⟩
    exact hp.closed b hbs p x hpl hpx hx
  · intro b hbs t ht
    rw [hb] at hbs
    obtain ⟨hmem, hlink⟩ := hp.last b hbs t ht
    exact ⟨hmem, (hr t (hin b hbs t hmem)).2.2.trans hlink⟩
  rw [hb]
  exact hp.apart

theorem Parked.turn (hpool : s'.pool = new ++ s.pool.eraseIdx k)
    (hnew : ∀ c ∈ new, ∀ x, c.own x ≠ 0 → Out s x) : Parked s' := by
  refine hp.frame hb hr hptr fun c hc => ?_
  rw [hpool] at hc
  rcases mem_append.1 hc with hc | hc
  · exact .inr (hnew c hc)
  · exact .inl (mem_of_mem_eraseIdx hc)

end

/-- The call at `k` changes one request and gives way to `new`. -/
theorem Parked.sets {r : Req} {new : List Call} (hlisted : r.listed = (s.reqs q).listed)
    (hlink : r.link = (s.reqs q).link) (hlt : ∀ x, r.lt = some x → (s.reqs q).lt = some x)
    (hst : Out s q ∨ r.st = (s.reqs q).st) (hnew : ∀ c ∈ new, ∀ x, c.own x ≠ 0 → Out s x) :
    Parked (((s.use q).set q r).replace k new) := by
  refine hp.turn new rfl ?_ ?_ rfl hnew
  · intro x hx
    by_cases hxq : x = q
    · subst hxq
      simp [hlisted, hlink, hst.resolve_left hx]
    · simp [hxq]
  · intro p x
    by_cases hpq : p = q
    · simp only [hpq, State.replace_reqs, set_reqs, if_true, hlisted, hlink]
      exact fun h => ⟨h.1, h.2.imp_right (hlt x)⟩
    · simp [hpq]

theorem Parked.cancels {t : Nat} {rest : List Call}
    (hrest : ∀ c ∈ rest, ∀ x, c.own x ≠ 0 → Out s x) : Parked (cancelStep s k t rest) := by
  unfold cancelStep
  split
  swap
  · exact hp.turn _ rfl (fun _ _ => ⟨rfl, rfl, rfl⟩) (fun _ _ h => h) rfl hrest
  have ht : Out s t := hp.out_of_wait (by grind)
  refine hp.sets rfl rfl (fun _ => id) (.inl ht) ?_
  intro c hc x hx
  rcases mem_cons.1 hc with rfl | hc
  · exact eq_of_has hx ▸ ht
  · exact hrest c hc x hx

theorem Parked.go {c : Call} (hi : Inv s) (hk : s.pool[k]? = some c)
    (hw : waits s c = false) (h : Uring.go s k c = some s') : Parked s' := by
  have hout : ∀ q, c.own q ≠ 0 → Out s q := fun q => hp.out_of_own (mem_of_getElem? hk) hw
  have hone : ∀ {c' : Call}, c'.own = c.own → ∀ d ∈ [c'], ∀ x, d.own x ≠ 0 → Out s x := by
    intro c' hsame d hd x hx
    rw [mem_singleton.1 hd, hsame] at hx
    exact hout x hx
  cases c with
  | done q res =>
    cases h
    have hq : Out s q := hout q (has_self q)
    have hlisted := (hi.owner hk (q := q) (has_self q)).2.1
    have hr := doneStep_reqs s k q res
    refine hp.turn _ (by simp [doneStep]) ?_ ?_ (doneStep_rest s k q res).2.1 ?_
    · intro x hx
      have hne : x ≠ q := fun h => hx (h ▸ hq)
      simp [hr, hne]
    · grind
    intro c hc x hx
    rw [mem_singleton.1 hc] at hx
    refine hp.out_behind hq hlisted ?_
    by_contra hne
    rw [not_or] at hne
    simp [Call.own, elim_has_of_ne hne.1, elim_has_of_ne hne.2] at hx
  | tail q res lt nx =>
    cases h
    refine hp.sets rfl rfl (fun _ => id) (.inr rfl) ?_
    intro c hc x hx
    refine hout x ?_
    rw [← follow_own (optFail (s.reqs q).sqe res && !(s.reqs q).sqe.hard)]
    obtain ⟨j, hj⟩ := mem_iff_getElem?.1 hc
    have := sum_map_eraseIdx (fun c => Call.own c x) hj
    simp only [owners]
    omega
  | dropLt l =>
    cases h
    exact hp.sets rfl rfl (fun _ => id) (.inr rfl) (hone rfl)
  | start q =>
    cases h
    have hq : Out s q := hout q (has_self q)
    have hlisted := (hi.owner hk (q := q) (has_self q)).2.1
    cases hbad : (s.reqs q).bad with
    | some e =>
      have heq : startStep s k q =
          ((s.use q).set q { s.reqs q with st := .run }).replace k [.done q e] := by
        simp [startStep, hbad]
      rw [heq]
      exact hp.sets rfl rfl (fun _ => id) (.inl hq) (hone rfl)
    | none =>
      have heq : startStep s k q =
          (armLt ((s.use q).set q { s.reqs q with st := .wait }) (s.reqs q).lt).replace k [] := by
        simp [startStep, hbad]
      rw [heq]
      have hr : ∀ x, (armLt ((s.use q).set q { s.reqs q with st := .wait }) (s.reqs q).lt).reqs x =
          { s.reqs x with
            st := if x = q ∨ (s.reqs q).lt = some x then .wait else (s.reqs x).st } := by
        intro x
        rw [armLt_reqs]
        by_cases hx : x = q <;> simp [hx]
      refine hp.turn [] (by simp) ?_ ?_ (k := k) ?_ (by simp)
      · intro x hx
        have hne : x ≠ q := fun h => hx (h ▸ hq)
        have hnl : (s.reqs q).lt ≠ some x := fun h => hx (hp.out_behind hq hlisted (.inr h))
        simp [hr, hne, hnl]
      · intro p x
        simp [hr]
      rw [State.replace_pool, (armLt_rest _ _).1]
      rfl
  | runPre q res =>
    cases h
    dsimp only [runPreStep]
    split
    · exact hp.sets rfl rfl (fun _ => id) (.inr rfl) (hone rfl)
    · exact hp.turn _ rfl (fun _ _ => ⟨rfl, rfl, rfl⟩) (fun _ _ h => h) rfl (hone rfl)
  | exec q => cases h
  | unlink q t res =>
    cases h
    exact hp.sets rfl rfl (by simp) (.inr rfl) (hone rfl)
  | cancelFor t q res =>
    cases h
    exact hp.cancels (hone rfl)
  | cancel t =>
    cases h
    exact hp.cancels (by simp)
  | look q =>
    cases h
    exact hp.turn [] rfl (fun _ _ => ⟨rfl, rfl, rfl⟩) (fun _ _ h => h) rfl (by simp)

structure Appends (s : State) (b : Batch) (s' : State) (tl : Nat) : Prop where
  new : (s'.reqs s.next).listed ∧ (s'.reqs s.next).st = .held ∧ (s'.reqs s.next).link = none ∧
    (s'.reqs s.next).lt = none
  old : ∀ x, x ≠ s.next → (s'.reqs x).listed = (s.reqs x).listed ∧ (s'.reqs x).st = (s.reqs x).st
  others : ∀ x, x ≠ s.next → b.tl ≠ some x →
    (s'.reqs x).link = (s.reqs x).link ∧ (s'.reqs x).lt = (s.reqs x).lt
  hangs : ∀ x, x ≠ s.next →
    ((s'.reqs x).link = (s.reqs x).link ∨ (s'.reqs x).link = some s.next) ∧
    ((s'.reqs x).lt = (s.reqs x).lt ∨ (s'.reqs x).lt = some s.next)
  pool : ∀ c ∈ s'.pool, c ∈ s.pool ∨ c = .start s.next
  last : tl = s.next ∨ b.tl = some tl ∧ (s'.reqs tl).link = (s.reqs tl).link

omit hp in
theorem append_appends (e : Sqe) {b : Batch} (htl : ∀ t, b.tl = some t → t ≠ s.next) :
    Appends s b (append e b s).1 (append e b s).2 := by
  unfold Uring.append
  cases hb : if b.isOpen then b.tl else none with
  | none =>
    refine ⟨by simp [newReq], ?_, ?_, ?_, ?_, .inl rfl⟩
    · intro x hx
      simp [hx]
    · intro x hx _
      simp [hx]
    · intro x hx
      simp [hx]
    intro c hc
    rcases mem_cons.1 hc with rfl | hc
    · exact .inr rfl
    · exact .inl hc
  | some t =>
    have hbt : b.tl = some t := by grind
    have ht := htl t hbt
    dsimp only
    split
    · refine ⟨by simp [newReq, ht.symm], ?_, ?_, ?_, fun c hc => .inl hc, .inr ⟨hbt, by simp⟩⟩
      · intro x hx
        by_cases hxt : x = t <;> simp [hx, hxt]
      · intro x hx hne
        have hxt : x ≠ t := fun h => hne (h ▸ hbt)
        simp [hx, hxt]
      intro x hx
      by_cases hxt : x = t <;> simp [hx, hxt]
    refine ⟨by simp [newReq, ht.symm], ?_, ?_, ?_, fun c hc => .inl hc, .inl rfl⟩
    · intro x hx
      by_cases hxt : x = t <;> simp [hx, hxt]
    · intro x hx hne
      have hxt : x ≠ t := fun h => hne (h ▸ hbt)
      simp [hx, hxt]
    intro x hx
    by_cases hxt : x = t <;> simp [hx, hxt]

theorem Parked.not_next (hi : Inv s) : Out s s.next := by
  intro b hb hmem
  have := (hp.held b hb _ hmem).1
  rw [hi.fresh s.next (Nat.le_refl _)] at this
  cases this

theorem Parked.append {j : Nat} {b : Batch} {e : Sqe} {tl : Nat}
    (hi : Inv s) (hj : s.batches[j]? = some b) (ha : Appends s b s' tl)
    (hb : s'.batches = b.add e s.next tl :: s.batches.eraseIdx j) : Parked s' := by
  have hbm := mem_of_getElem? hj
  have hnext := hp.not_next hi
  have hfresh := hi.fresh s.next (Nat.le_refl _)
  have hne : ∀ b ∈ s.batches, ∀ x ∈ b.mem, x ≠ s.next := fun b hb x hx h => hnext b hb (h ▸ hx)
  -- a batch is the one that grows or one of the others
  have hcase : ∀ a ∈ s'.batches, a = b.add e s.next tl ∨ a ∈ s.batches.eraseIdx j := by
    intro a h
    rw [hb] at h
    exact mem_cons.1 h
  have hother : ∀ a ∈ s.batches.eraseIdx j, ∀ x ∈ a.mem, x ∉ b.mem := by
    intro a h x hx hxb
    obtain ⟨i, hai⟩ := mem_iff_getElem?.1 h
    have h₁ := sum_map_eraseIdx (fun b : Batch => b.mem.count x) hj
    have h₂ := sum_map_eraseIdx (fun b : Batch => b.mem.count x) hai
    have h₃ := hp.apart x
    have h₄ := count_pos_iff.2 hx
    have h₅ := count_pos_iff.2 hxb
    omega
  have hgrown : ∀ x, x ∈ (b.add e s.next tl).mem ↔ x = s.next ∨ x ∈ b.mem := fun x => mem_cons
  constructor
  · intro a h x hx
    have hold : ∀ a ∈ s.batches, x ∈ a.mem → (s'.reqs x).listed ∧ (s'.reqs x).st = .held := by
      intro a h hx
      obtain ⟨h₁, h₂⟩ := ha.old x (hne a h x hx)
      rw [h₁, h₂]
      exact hp.held a h x hx
    rcases hcase a h with rfl | h
    · rcases (hgrown x).1 hx with rfl | hx
      · exact ⟨ha.new.1, ha.new.2.1⟩
      · exact hold b hbm hx
    · exact hold a (mem_of_mem_eraseIdx h) hx
  · intro a h x hx c hc hown
    rcases ha.pool c hc with hc | rfl
    swap
    · rw [eq_of_has hown]
    have hxn : x ≠ s.next := by
      rintro rfl
      obtain ⟨i, hci⟩ := mem_iff_getElem?.1 hc
      have := own_le hci s.next
      have := hi.owners_fresh
      omega
    rcases hcase a h with rfl | h
    · exact hp.starts b hbm x (((hgrown x).1 hx).resolve_left hxn) c hc hown
    · exact hp.starts a (mem_of_mem_eraseIdx h) x hx c hc hown
  · intro a h p x hpl hpx hx
    have hpn : p ≠ s.next := by
      rintro rfl
      have := ha.new
      grind
    have hpl : (s.reqs p).listed := (ha.old p hpn).1 ▸ hpl
    by_cases hxn : x = s.next
    · -- only the end of the open chain points to the new request
      subst hxn
      have hpb : p ∈ b.mem := by
        by_contra hpb
        have hpt : b.tl ≠ some p := fun h => hpb (hp.last b hbm p h).1
        have hsame := ha.others p hpn hpt
        have h₁ := hi.graph.link p s.next hpl
        have h₂ := hi.graph.lt p s.next hpl
        grind
      rcases hcase a h with rfl | h
      · exact (hgrown p).2 (.inr hpb)
      · exact absurd hx (hnext a (mem_of_mem_eraseIdx h))
    have hpx : (s.reqs p).link = some x ∨ (s.reqs p).lt = some x := by
      have := ha.hangs p hpn
      grind
    rcases hcase a h with rfl | h
    · exact (hgrown p).2 (.inr (hp.closed b hbm p x hpl hpx (((hgrown x).1 hx).resolve_left hxn)))
    · exact hp.closed a (mem_of_mem_eraseIdx h) p x hpl hpx hx
  · intro a h t ht
    rcases hcase a h with rfl | h
    · cases ht
      rcases ha.last with rfl | ⟨hbt, hlink⟩
      · exact ⟨(hgrown _).2 (.inl rfl), ha.new.2.2.1⟩
      have := hp.last b hbm tl hbt
      exact ⟨(hgrown _).2 (.inr this.1), hlink.trans this.2⟩
    have ham := mem_of_mem_eraseIdx h
    obtain ⟨hmem, hlink⟩ := hp.last a ham t ht
    have hbt : b.tl ≠ some t := fun hbt => hother a h t hmem (hp.last b hbm t hbt).1
    exact ⟨hmem, (ha.others t (hne a ham t hmem) hbt).1.trans hlink⟩
  intro x
  have h₁ := sum_map_eraseIdx (fun b : Batch => b.mem.count x) hj
  have h₂ := hp.apart x
  rw [hb, map_cons, sum_cons, Batch.add, count_cons]
  by_cases hx : x = s.next
  · subst hx
    have h₃ : b.mem.count s.next = 0 := count_eq_zero.2 (hnext b hbm)
    have h₄ : ((s.batches.eraseIdx j).map fun b => b.mem.count s.next).sum = 0 := by
      apply sum_eq_zero
      intro n hn
      obtain ⟨a, h, rfl⟩ := mem_map.1 hn
      exact count_eq_zero.2 (hnext a (mem_of_mem_eraseIdx h))
    simp [h₃, h₄]
  have hbeq : (s.next == x) = false := by simpa using Ne.symm hx
  simp only [hbeq]
  simp only [Bool.false_eq_true, if_false]
  omega

/-! ## Runs -/

omit hp in
theorem Inv.step {op : Op} (hi : Inv s) (hp : Parked s) (hreg : Regular s op)
    (h : step s op = some s') : Inv s' := by
  cases op with
  | enter submitAll | leave j =>
    cases h
    exact hi.withBatches _
  | append j e =>
    simp only [Uring.step] at h
    split at h
    swap
    · cases h
    rename_i b hj
    split at h
    · cases h
    cases h
    refine Inv.withBatches (hi.append ?_) _
    intro t ht
    have hb := mem_of_getElem? hj
    obtain ⟨hmem, hlink⟩ := hp.last b hb t ht
    exact ⟨(hp.held b hb t hmem).1, hlink⟩
  | pick q res =>
    simp only [Uring.step] at h
    split at h
    · rename_i hc
      cases h
      cases res with
      | none | some res =>
        exact hi.pick hc.1 hc.2.1 hreg (fun _ => rfl) (fun _ => rfl) rfl fun _ h h' => ⟨h, h'⟩
    · cases h
  | go k =>
    obtain ⟨c, hk, hgo⟩ := Option.bind_eq_some_iff.1 h
    split at hgo
    · cases hgo
    · exact hi.go hk hreg hgo
  | seek k t =>
    simp only [Uring.step] at h
    split at h
    · split at h
      · cases h
        exact hi.comes (fun _ => rfl) (fun _ => rfl) rfl trivial
      · cases h
    · cases h
  | look k q =>
    simp only [Uring.step] at h
    split at h
    · split at h
      · cases h
        exact hi.comes (fun _ => rfl) (fun _ => rfl) rfl trivial
      · cases h
    · rename_i p hk
      split at h
      · cases h
        refine hi.looks hk (hreg p hk) ?_ ?_ ?_ ?_ <;> simp [Call.own, Call.fin, Call.isUnlink, Fits]
      · cases h
    · cases h
  | hit k =>
    simp only [Uring.step] at h
    split at h
    · rename_i q hk
      cases h
      refine hi.looks hk (hreg q hk) ?_ ?_ ?_ ?_ <;> simp [Call.own, Call.fin, Call.isUnlink, Fits]
    · cases h
  | finish k res =>
    simp only [Uring.step] at h
    split at h
    · rename_i q hk
      cases h
      have hfits := hi.fitsAt hk
      have hself : Call.own (.exec q) q ≠ 0 := has_self q
      have ho := hi.owner hk hself
      have huse : s.use q = s := by simp [State.use, ho.2.2]
      rw [← huse]
      exact hi.ends hk (fun _ => rfl) (fun _ => rfl) rfl hfits.1
    · cases h
  | again k =>
    simp only [Uring.step] at h
    split at h
    · rename_i q hk
      cases h
      exact hi.again hk
    · cases h

theorem Parked.enter (submitAll : Bool) :
    Parked { s with batches := ⟨[], none, false, false, submitAll⟩ :: s.batches } := by
  constructor
  · rintro b (_ | ⟨_, hb⟩) x hx
    · cases hx
    · exact hp.held b hb x hx
  · rintro b (_ | ⟨_, hb⟩) x hx
    · cases hx
    · exact hp.starts b hb x hx
  · rintro b (_ | ⟨_, hb⟩) p x hpl hpx hx
    · cases hx
    · exact hp.closed b hb p x hpl hpx hx
  · rintro b (_ | ⟨_, hb⟩) t ht
    · cases ht
    · exact hp.last b hb t ht
  intro x
  simpa using hp.apart x

theorem Parked.leave (j : Nat) :
    Parked { s with batches := s.batches.eraseIdx j } where
  held b hb := hp.held b (mem_of_mem_eraseIdx hb)
  starts b hb := hp.starts b (mem_of_mem_eraseIdx hb)
  closed b hb := hp.closed b (mem_of_mem_eraseIdx hb)
  last b hb := hp.last b (mem_of_mem_eraseIdx hb)
  apart x := by
    have hx := hp.apart x
    cases hj : s.batches[j]? with
    | none =>
      rw [eraseIdx_of_length_le (getElem?_eq_none_iff.1 hj)]
      exact hx
    | some b =>
      have := sum_map_eraseIdx (fun b : Batch => b.mem.count x) hj
      dsimp only
      omega

theorem Parked.step {op : Op} (hi : Inv s)
    (h : step s op = some s') : Parked s' := by
  cases op with
  | enter submitAll =>
    cases h
    exact hp.enter submitAll
  | append j e =>
    simp only [Uring.step] at h
    split at h
    · rename_i b hj
      split at h
      · cases h
      cases h
      have hb := mem_of_getElem? hj
      have ha := append_appends e (s := s) (b := b) fun t ht hn =>
        hp.not_next hi b hb (hn ▸ (hp.last b hb t ht).1)
      exact hp.append hi hj ⟨ha.new, ha.old, ha.others, ha.hangs, ha.pool, ha.last⟩ rfl
    · cases h
  | leave j =>
    cases h
    exact hp.leave j
  | pick q res =>
    simp only [Uring.step] at h
    split at h
    swap
    · cases h
    cases h
    have hq : Out s q := hp.out_of_wait (by grind)
    refine hp.frame rfl ?_ ?_ ?_
    · intro x hx
      have hne : x ≠ q := fun h => hx (h ▸ hq)
      simp [hne]
    · intro p x
      by_cases hpq : p = q <;> simp [hpq]
    intro c hc
    rcases mem_cons.1 hc with rfl | hc
    · refine .inr fun x hx => ?_
      cases res <;> exact eq_of_has hx ▸ hq
    · exact .inl hc
  | go k =>
    obtain ⟨c, hk, hgo⟩ := Option.bind_eq_some_iff.1 h
    split at hgo
    · cases hgo
    rename_i hw
    exact hp.go hi hk (by simpa using hw) hgo
  | seek k t =>
    simp only [Uring.step] at h
    split at h
    · split at h
      · cases h
        refine hp.frame rfl (fun _ _ => ⟨rfl, rfl, rfl⟩) (fun _ _ h => h) fun c hc => ?_
        rcases mem_cons.1 hc with rfl | hc
        · exact .inr fun x hx => absurd rfl hx
        · exact .inl hc
      · cases h
    · cases h
  | look k q =>
    simp only [Uring.step] at h
    split at h
    · split at h
      · cases h
        refine hp.frame rfl (fun _ _ => ⟨rfl, rfl, rfl⟩) (fun _ _ h => h) fun c hc => ?_
        rcases mem_cons.1 hc with rfl | hc
        · exact .inr fun x hx => absurd rfl hx
        · exact .inl hc
      · cases h
    · split at h
      · cases h
        exact hp.turn [.look q] rfl (fun _ _ => ⟨rfl, rfl, rfl⟩) (fun _ _ h => h) rfl
          (by simp [Call.own])
      · cases h
    · cases h
  | hit k =>
    simp only [Uring.step] at h
    split at h
    · rename_i q hk
      cases h
      exact hp.turn [.cancel q] rfl (fun _ _ => ⟨rfl, rfl, rfl⟩) (fun _ _ h => h) rfl
        (by simp [Call.own])
    · cases h
  | finish k res =>
    simp only [Uring.step] at h
    split at h
    · rename_i q hk
      cases h
      refine hp.turn [.done q res] rfl (fun _ _ => ⟨rfl, rfl, rfl⟩) (fun _ _ h => h) rfl ?_
      intro c hc x hx
      rw [mem_singleton.1 hc] at hx
      exact hp.out_of_own (mem_of_getElem? hk) rfl hx
    · cases h
  | again k =>
    simp only [Uring.step] at h
    split at h
    swap
    · cases h
    rename_i q hk
    cases h
    have hq : Out s q := hp.out_of_own (mem_of_getElem? hk) rfl (has_self q)
    exact hp.sets rfl rfl (fun _ => id) (.inl hq) (by simp)

end

theorem parked_boot : Parked boot := by
  constructor <;> simp [boot]

theorem Inv.run {ops : List Op} (hi : Inv s) (hp : Parked s)
    (hreg : RegularRun s ops) (h : run s ops = some s') : Inv s' := by
  induction ops generalizing s with
  | nil =>
    cases h
    exact hi
  | cons op ops ih =>
    obtain ⟨s₁, hstep, hrun⟩ := Option.bind_eq_some_iff.1 h
    exact ih (hi.step hp hreg.1 hstep) (hp.step hi hstep) (hreg.2 s₁ hstep) hrun

end Steps

/-- Every request that was submitted is on the list, has no completion yet and is not forgotten, or
is off it and has exactly one; no request was used after `req_put`. -/
structure Exact (s : State) : Prop where
  listed : ∀ q, q < s.next → (s.reqs q).listed → (∀ e ∈ s.log, e.q ≠ q) ∧
    ((s.reqs q).st = .wait ∨ owners s.pool q = 1 ∨
      ∃ p, p < q ∧ (s.reqs p).listed ∧ ((s.reqs p).link = some q ∨ (s.reqs p).lt = some q))
  ended : ∀ q, q < s.next → (s.reqs q).listed = false →
    ∃ e, s.log.filter (fun e => e.q = q) = [e] ∧ e.removed ∧
      (e.posted = false ↔ (s.reqs q).sqe.skip ∧ 0 ≤ e.res)
  safe : s.stale = false

theorem filter_of_nodup {log : List Entry} {e : Entry} (hn : (log.map Entry.q).Nodup)
    (he : e ∈ log) : log.filter (fun a => a.q = e.q) = [e] := by
  induction log with
  | nil => cases he
  | cons a log ih =>
    rw [map_cons, nodup_cons] at hn
    rcases mem_cons.1 he with rfl | he
    · rw [filter_cons_of_pos (by simp), filter_eq_nil_iff.2]
      intro b hb hbe
      exact hn.1 (mem_map.2 ⟨b, hb, by simpa using hbe⟩)
    rw [filter_cons_of_neg, ih hn.2 he]
    intro hae
    have hae : a.q = e.q := by simpa using hae
    exact hn.1 (mem_map.2 ⟨e, he, hae.symm⟩)

theorem Inv.exact {s : State} (hi : Inv s) : Exact s := by
  refine ⟨?_, ?_, hi.safe⟩
  · intro q hq hlisted
    constructor
    · rintro e he rfl
      have := (hi.ended e.q).1 (mem_map_of_mem he)
      grind
    cases hst : (s.reqs q).st with
    | wait => exact .inl rfl
    | run => exact .inr (.inl (hi.graph.running q hlisted hst))
    | held =>
      rcases hi.graph.kept q hlisted hst with hw | ⟨p, hp, hpq⟩ | ⟨p, hp, hpq⟩
      · exact .inr (.inl hw)
      · exact .inr (.inr ⟨p, hi.older p q (.inl hpq), hp, .inl hpq⟩)
      · exact .inr (.inr ⟨p, hi.older p q (.inr hpq), hp, .inr hpq⟩)
  intro q hq hoff
  obtain ⟨e, he, rfl⟩ := mem_map.1 ((hi.ended q).2 ⟨hq, hoff⟩)
  refine ⟨e, filter_of_nodup hi.once he, (hi.posted e he).1, ?_⟩
  rw [(hi.posted e he).2]
  simp

theorem completes_once {s : State} (ops : List Op) (hr : RegularRun boot ops)
    (h : run boot ops = some s) : Exact s :=
  (inv_boot.run parked_boot hr h).exact

def readLinked : Sqe := ⟨false, true, false, false, false, none, none⟩

def linkTimeout : Sqe := ⟨true, false, false, false, false, none, none⟩

def nop : Sqe := ⟨false, false, false, false, false, none, none⟩

/-- A request ends before its linked timeout, which is cancelled. -/
theorem completes_once_linked :
    let ops : List Op := [.enter false, .append 0 readLinked, .append 0 linkTimeout, .leave 0,
      .go 0, .pick 0 none, .finish 0 5, .go 0, .go 0, .go 0, .go 0, .go 0]
    RegularRun boot ops ∧
      (run boot ops).map State.log = some [⟨1, true, ecanceled, true⟩, ⟨0, true, 5, true⟩] ∧
      ∀ s, run boot ops = some s → Exact s := by
  intro ops
  have hr : RegularRun boot ops := by
    refine ⟨trivial, ?_⟩
    rintro s ⟨⟩
    refine ⟨trivial, ?_⟩
    rintro s ⟨⟩
    refine ⟨trivial, ?_⟩
    rintro s ⟨⟩
    refine ⟨trivial, ?_⟩
    rintro s ⟨⟩
    refine ⟨by rintro c ⟨⟩; trivial, ?_⟩
    rintro s ⟨⟩
    refine ⟨rfl, ?_⟩
    rintro s ⟨⟩
    refine ⟨trivial, ?_⟩
    rintro s ⟨⟩
    constructor
    · rintro c ⟨⟩ l ⟨⟩
      decide
    rintro s ⟨⟩
    refine ⟨by rintro c ⟨⟩; trivial, ?_⟩
    rintro s ⟨⟩
    refine ⟨by rintro c ⟨⟩; trivial, ?_⟩
    rintro s ⟨⟩
    refine ⟨by rintro c ⟨⟩ l ⟨⟩, ?_⟩
    rintro s ⟨⟩
    refine ⟨by rintro c ⟨⟩; trivial, ?_⟩
    rintro s ⟨⟩
    trivial
  exact ⟨hr, by decide +kernel, fun s h => completes_once ops hr h⟩

/-- A linked timeout fires while its target ends: a worker has picked it, the other completes it,
and the first then uses it after it was put and completes it again.  And a removal stands on a
request in `find_ud` while another worker finishes it. -/
theorem completes_twice :
    let ops : List Op := [.enter false, .append 0 readLinked, .append 0 linkTimeout, .leave 0,
      .go 0, .pick 0 none, .pick 1 (some etime), .finish 1 5, .go 0, .go 0, .go 0, .go 0, .go 0,
      .go 0, .go 0]
    (run boot ops).map (fun s => (s.log, s.stale)) =
      some ([⟨1, false, etime, true⟩, ⟨1, true, ecanceled, true⟩, ⟨0, true, 5, true⟩], true) ∧
      (∃ s, run boot ops = some s ∧ ¬ Exact s) ∧
      (run boot [.enter false, .append 0 nop, .append 0 nop, .leave 0, .go 0, .go 0, .pick 0 none,
        .pick 1 none, .look 0 0, .finish 2 5, .go 0, .go 0, .go 0]).map State.stale = some true := by
  intro ops
  have h : (run boot ops).map (fun s => (s.log, s.stale)) =
      some ([⟨1, false, etime, true⟩, ⟨1, true, ecanceled, true⟩, ⟨0, true, 5, true⟩], true) := by
    decide +kernel
  refine ⟨h, ?_, by decide +kernel⟩
  obtain ⟨s, hs, hsl⟩ := Option.map_eq_some_iff.1 h
  refine ⟨s, hs, fun he => ?_⟩
  have := he.safe
  rw [(Prod.mk.inj hsl).2] at this
  cases this

end SamaraOS.Uring
