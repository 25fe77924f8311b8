import SamaraOS.Proc.Kill

/-!
# Signal 9 is effective

The teardown of a process and of its pid namespace comes to its end unless it kills the process
that runs it.  A process that kills its own group is no exception: the teardown that does not come
back is then the one of the group itself.
-/

namespace SamaraOS.Kill

open Function Option

def Dead (s : State) (q : Nat) : Prop := isAlive s q = false

structure Done (s t : State) (g : Nat) : Prop where
  group : ∀ q e, s.procs q = some e → e.tgid = g → Dead t q
  ns : ∀ l, s.procs g = some l → l.isInit → l.pidns ≠ 0 →
    ∀ q e, s.procs q = some e → isInside s e.pidns l.pidns → Dead t q

def Hits (s : State) (g h : Nat) : Prop :=
  ∃ q d, s.procs q = some d ∧ d.alive ∧ d.tgid = h ∧
    ((g ≠ 0 ∧ d.tracer = g ∧ d.exitKill) ∨
      ∃ l, s.procs g = some l ∧ l.isInit ∧ l.pidns ≠ 0 ∧ d.tgid ≠ g ∧ isInside s d.pidns l.pidns)

/-- A table as `fork` and `clone` build it: groups with a leader in the same pid namespace, and one
init for each namespace. -/
structure Good (s : State) : Prop where
  zero : s.procs 0 = none
  fresh : ∀ q e, s.procs q = some e → q < s.nextPid
  listed : ∀ q e, s.procs q = some e → q ∈ s.order
  self : ∀ q e, s.procs q = some e → e.isThread = false → e.tgid = q
  leader : ∀ q e, s.procs q = some e → e.alive →
    ∃ l, s.procs e.tgid = some l ∧ l.alive ∧ l.isThread = false ∧ l.pidns = e.pidns
  thread : ∀ q e, s.procs q = some e → e.isThread → e.isInit = false
  unique : ∀ p q d e, s.procs p = some d → s.procs q = some e → d.alive → e.alive →
    d.isInit → e.isInit → d.pidns = e.pidns → p = q
  levels : ∀ a, a ≠ 0 → s.nsLevel (s.nsParent a) < s.nsLevel a
  top : ∀ a, s.nsLevel a ≤ 3

/-! ## What every step keeps -/

structure Below (e' e : Proc) : Prop where
  tgid : e'.tgid = e.tgid
  isThread : e'.isThread = e.isThread
  pidns : e'.pidns = e.pidns
  isInit : e'.isInit = e.isInit
  alive : e'.alive → e.alive
  tracer : e'.tracer ≠ 0 → e'.tracer = e.tracer
  exitKill : e'.exitKill → e.exitKill

theorem Below.refl (e : Proc) : Below e e := ⟨rfl, rfl, rfl, rfl, id, fun _ => rfl, id⟩

theorem Below.trans {a b c : Proc} (h : Below a b) (h' : Below b c) : Below a c where
  tgid := h.tgid.trans h'.tgid
  isThread := h.isThread.trans h'.isThread
  pidns := h.pidns.trans h'.pidns
  isInit := h.isInit.trans h'.isInit
  alive := h'.alive ∘ h.alive
  tracer hn := (h.tracer hn).trans (h'.tracer (h.tracer hn ▸ hn))
  exitKill := h'.exitKill ∘ h.exitKill

structure Shrinks (s t : State) : Prop where
  order : t.order = s.order
  nsParent : t.nsParent = s.nsParent
  nsLevel : t.nsLevel = s.nsLevel
  nextPid : t.nextPid = s.nextPid
  entry : ∀ q e', t.procs q = some e' → ∃ e, s.procs q = some e ∧ Below e' e

instance : Std.Refl Shrinks :=
  ⟨fun _ => ⟨rfl, rfl, rfl, rfl, fun _ e' h => ⟨e', h, .refl e'⟩⟩⟩

instance : IsTrans State Shrinks where
  trans _ _ _ h h' :=
    ⟨h'.order.trans h.order, h'.nsParent.trans h.nsParent, h'.nsLevel.trans h.nsLevel,
      h'.nextPid.trans h.nextPid, fun q e'' he'' => by
        obtain ⟨e', he', hb'⟩ := h'.entry q e'' he''
        obtain ⟨e, he, hb⟩ := h.entry q e' he'
        exact ⟨e, he, hb'.trans hb⟩⟩

theorem Shrinks.rfl {s : State} : Shrinks s s := Std.Refl.refl s

theorem Shrinks.trans {s t u : State} (h : Shrinks s t) (h' : Shrinks t u) : Shrinks s u :=
  IsTrans.trans _ _ _ h h'

theorem Shrinks.alter (s : State) (q : Nat) {f : Proc → Option Proc}
    (hf : ∀ d e', f d = some e' → Below e' d) : Shrinks s (s.alter q f) := by
  refine ⟨by rfl, by rfl, by rfl, by rfl, fun x e' he' => ?_⟩
  by_cases hx : x = q
  · subst hx
    simp only [State.alter, State.set, update_self] at he'
    obtain ⟨d, hd, hfd⟩ := bind_eq_some_iff.1 he'
    exact ⟨d, hd, hf d e' hfd⟩
  simp only [State.alter, State.set, update_of_ne hx] at he'
  exact ⟨e', he', .refl e'⟩

theorem orphan_below {pid : Nat} {d e' : Proc} (h : (if d.ppid = pid then
      if d.alive = false ∧ d.kernelWaited = false then none else some { d with ppid := 0 }
      else some d) = some e') : Below e' d ∧ e'.alive = d.alive := by
  split at h
  · split at h
    · cases h
    cases h
    exact ⟨⟨by rfl, by rfl, by rfl, by rfl, id, fun _ => by rfl, id⟩, by rfl⟩
  cases h
  exact ⟨.refl _, by rfl⟩

theorem Shrinks.finish (s : State) (pid : Nat) : Shrinks s (finish pid s) := by
  refine ⟨by rfl, by rfl, by rfl, by rfl, fun x e' he' => ?_⟩
  simp only [Kill.finish] at he'
  split at he'
  · rename_i hx
    subst hx
    obtain ⟨e, he, hlast⟩ := bind_eq_some_iff.1 he'
    obtain ⟨d, hd, ho⟩ := bind_eq_some_iff.1 he
    refine ⟨d, hd, .trans ?_ (orphan_below ho).1⟩
    split at hlast
    · cases hlast
    cases hlast
    exact ⟨by rfl, by rfl, by rfl, by rfl, by simp, fun _ => by rfl, id⟩
  obtain ⟨d, hd, ho⟩ := bind_eq_some_iff.1 he'
  exact ⟨d, hd, (orphan_below ho).1⟩

theorem Dead.shrinks {s t : State} {q : Nat} (h : Dead s q) (ht : Shrinks s t) : Dead t q := by
  unfold Dead isAlive at h ⊢
  cases htq : t.procs q with
  | none => rfl
  | some e' =>
    obtain ⟨e, he, hb⟩ := ht.entry q e' htq
    rw [he, any_some] at h
    rw [any_some]
    cases ha : e'.alive with
    | false => rfl
    | true => simp [hb.alive ha] at h

theorem dead_of_none {s : State} {q : Nat} (h : s.procs q = none) : Dead s q := by
  simp [Dead, isAlive, h]

theorem dead_of_some {s : State} {q : Nat} {e : Proc} (h : s.procs q = some e)
    (ha : e.alive = false) : Dead s q := by
  simp [Dead, isAlive, h, ha]

section Keeping

variable {q : Nat} {cur : Option Nat}

theorem keeps_withProc {f : Proc → M} (hf : ∀ e, Keeps Shrinks (f e)) :
    Keeps Shrinks (withProc q f) := by
  refine .look fun s => ?_
  split
  · exact .pure ()
  · exact hf _

theorem keeps_forAll {f : Nat → Proc → M} (hf : ∀ q e, Keeps Shrinks (f q e)) :
    Keeps Shrinks (forAll f) :=
  .look fun _ => .each (fun q => keeps_withProc (hf q)) _

variable {kill : Nat → M}

section

variable (hk : ∀ q, Keeps Shrinks (kill q))

include hk

theorem keeps_nsExit (e : Proc) : Keeps Shrinks (nsExit kill e) :=
  .onlyIf (keeps_forAll fun q _ => .look fun _ => .onlyIf (hk q))

theorem keeps_threadKill (e : Proc) : Keeps Shrinks (threadKill kill q e) := by
  refine .bind (keeps_nsExit hk e) fun _ => .modified fun s => .alter s q fun d e' h => ?_
  split at h
  · cases h
    exact ⟨by rfl, by rfl, by rfl, by rfl, by simp, fun _ => by rfl, id⟩
  · cases h

omit hk in
theorem below_tracer (d : Proc) : Below { d with tracer := 0 } d :=
  ⟨by rfl, by rfl, by rfl, by rfl, id, by simp, id⟩

omit hk in
theorem below_exitKill (d : Proc) : Below { d with exitKill := false } d :=
  ⟨by rfl, by rfl, by rfl, by rfl, id, fun _ => by rfl, by simp⟩

theorem keeps_release (pid : Nat) (d : Proc) : Keeps Shrinks (onlyIf (d.tracer = pid) do
      modify fun s => s.alter q fun d => some { d with tracer := 0 }
      onlyIf d.exitKill (kill q)
      modify fun s => s.alter q fun d => some { d with exitKill := false }) := by
  refine .onlyIf (.bind (.modified fun s => .alter s q fun d e' h => ?_) fun _ =>
    .bind (.onlyIf (hk q)) fun _ => .modified fun s => .alter s q fun d e' h => ?_)
  · cases h
    exact below_tracer d
  cases h
  exact below_exitKill d

theorem keeps_ptRelease (pid : Nat) : Keeps Shrinks (ptRelease kill pid) :=
  keeps_forAll fun _ d => keeps_release hk pid d

theorem keeps_threads (l : Nat) :
    Keeps Shrinks (forAll fun q d => onlyIf (q ≠ l ∧ d.isThread ∧ d.tgid = l) <|
      threadKill kill q d) :=
  keeps_forAll fun _ d => .onlyIf (keeps_threadKill hk d)

end

theorem keeps_send9 {down : Nat → M} (hd : ∀ l, Keeps Shrinks (down l)) :
    Keeps Shrinks (send9 cur down q) :=
  keeps_withProc fun _ => .onlyIf (.ite (.bind (hd _) fun _ => .throw _) (.look fun _ => hd _))

theorem keeps_teardown (n l : Nat) : Keeps Shrinks (teardown cur n l) := by
  induction n generalizing l with
  | zero => exact .throw _
  | succ n ih =>
    have hk : ∀ q, Keeps Shrinks (send9 cur (teardown cur n) q) := fun q => keeps_send9 ih
    exact keeps_withProc fun e => .bind (keeps_nsExit hk e) fun _ =>
      .bind (keeps_threads hk l) fun _ => .bind (keeps_ptRelease hk l) fun _ =>
      .modified fun s => .finish s l

end Keeping

def tracers (s : State) : Nat := s.order.countP fun q => (s.procs q).any fun e => e.tracer ≠ 0

def rank (s : State) (l : Nat) : Nat :=
  match s.procs l with
  | some e => if e.pidns ≠ 0 ∧ e.isInit then 4 - s.nsLevel e.pidns else 0
  | none => 0

def depth (s : State) (l : Nat) : Nat := 5 * tracers s + rank s l

theorem rank_le (s : State) (l : Nat) : rank s l ≤ 4 := by
  unfold rank
  split
  · split <;> omega
  · omega

section Depth

variable {s t : State} {q : Nat}

theorem tracer_shrinks (h : Shrinks s t)
    (ht : (t.procs q).any fun e => e.tracer ≠ 0) : (s.procs q).any fun e => e.tracer ≠ 0 := by
  obtain ⟨e', he', hn⟩ := (any_eq_true _ _).1 ht
  obtain ⟨e, he, hb⟩ := h.entry q e' he'
  have hn' : e'.tracer ≠ 0 := by simpa using hn
  have hs : e.tracer ≠ 0 := hb.tracer hn' ▸ hn'
  simp [he, hs]

theorem tracers_le (h : Shrinks s t) : tracers t ≤ tracers s := by
  unfold tracers
  rw [h.order]
  exact List.countP_mono_left fun q _ => tracer_shrinks h

theorem countP_lt {p p' : Nat → Bool} {l : List Nat} (hle : ∀ x, p' x → p x)
    (hq : q ∈ l) (hp : p q) (hp' : p' q = false) : l.countP p' < l.countP p := by
  induction l with
  | nil => simp at hq
  | cons x xs ih =>
    have hrest : xs.countP p' ≤ xs.countP p := List.countP_mono_left fun y _ => hle y
    simp only [List.countP_cons]
    rcases List.mem_cons.1 hq with rfl | hq
    · simp only [hp, hp', if_true, Bool.false_eq_true, if_false]
      omega
    have := ih hq
    have hx : (if p' x then 1 else 0) ≤ if p x then 1 else 0 := by
      cases hpx : p' x with
      | false => simp
      | true => simp [hle x hpx]
    omega

theorem tracers_lt (h : Shrinks s t) {d d' : Proc} (hq : q ∈ s.order)
    (hs : s.procs q = some d) (hd : d.tracer ≠ 0) (ht : t.procs q = some d')
    (hd' : d'.tracer = 0) : tracers t < tracers s := by
  unfold tracers
  rw [h.order]
  refine countP_lt (fun x => tracer_shrinks h) hq ?_ ?_
  · simp [hs, hd]
  · simp [ht, hd']

theorem inside_level (hlevels : ∀ a, a ≠ 0 → s.nsLevel (s.nsParent a) < s.nsLevel a) {n a b : Nat}
    (h : inside s n a b) : a = b ∨ s.nsLevel b < s.nsLevel a := by
  induction n generalizing a with
  | zero => simp [inside] at h
  | succ n ih =>
    unfold inside at h
    split at h
    · cases h
    split at h
    · exact .inl ‹_›
    rename_i ha _
    have hlt := hlevels a ha
    rcases ih h with hb | hb
    · exact .inr (hb ▸ hlt)
    · exact .inr (Nat.lt_trans hb hlt)

theorem isInside_shrinks (h : Shrinks s t) (a b : Nat) : isInside t a b = isInside s a b := by
  have hall : ∀ n a, inside t n a b = inside s n a b := by
    intro n
    induction n with
    | zero => exact fun _ => by rfl
    | succ n ih =>
      intro a
      simp only [inside, h.nsParent, ih]
  exact hall 4 a

theorem rank_lt (hg : Good s) {g h : Nat} {l l' : Proc} (hl : s.procs g = some l) (ha : l.alive)
    (hinit : l.isInit) (hns : l.pidns ≠ 0) (hl' : s.procs h = some l') (ha' : l'.alive)
    (hin : isInside s l'.pidns l.pidns) (hne : h ≠ g) : rank s h < rank s g := by
  have htop := hg.top l.pidns
  have hrank : rank s g = 4 - s.nsLevel l.pidns := by simp [rank, hl, hinit, hns]
  rw [hrank]
  unfold rank
  simp only [hl']
  split
  · rename_i hi
    rcases inside_level hg.levels hin with he | hlt
    · exact absurd (hg.unique h g l' l hl' hl ha' ha hi.2 hinit he) hne
    omega
  · omega

theorem rank_shrinks (h : Shrinks s t) (l : Nat) : rank t l ≤ rank s l := by
  cases htl : t.procs l with
  | none => simp [rank, htl]
  | some e' =>
    obtain ⟨e, he, hb⟩ := h.entry l e' htl
    simp [rank, htl, he, hb.pidns, hb.isInit, h.nsLevel]

end Depth

section Tables

variable {s t : State}

theorem Good.shrinks (hg : Good s) (h : Shrinks s t) (hl : ∀ q e, t.procs q = some e → e.alive →
      ∃ l, t.procs e.tgid = some l ∧ l.alive ∧ l.isThread = false ∧
    l.pidns = e.pidns) : Good t where
  zero := by
    cases h0 : t.procs 0 with
    | none => rfl
    | some e' =>
      obtain ⟨e, he, -⟩ := h.entry 0 e' h0
      simp [hg.zero] at he
  fresh q e' he' := by
    obtain ⟨e, he, -⟩ := h.entry q e' he'
    rw [h.nextPid]
    exact hg.fresh q e he
  listed q e' he' := by
    obtain ⟨e, he, -⟩ := h.entry q e' he'
    rw [h.order]
    exact hg.listed q e he
  self q e' he' ht := by
    obtain ⟨e, he, hb⟩ := h.entry q e' he'
    rw [hb.tgid]
    exact hg.self q e he (hb.isThread ▸ ht)
  leader := hl
  thread q e' he' ht := by
    obtain ⟨e, he, hb⟩ := h.entry q e' he'
    rw [hb.isInit]
    exact hg.thread q e he (hb.isThread ▸ ht)
  unique p q d' e' hd' he' ha hb hi hj hns := by
    obtain ⟨d, hd, hbd⟩ := h.entry p d' hd'
    obtain ⟨e, he, hbe⟩ := h.entry q e' he'
    exact hg.unique p q d e hd he (hbd.alive ha) (hbe.alive hb) (hbd.isInit ▸ hi)
      (hbe.isInit ▸ hj) (hbd.pidns ▸ hbe.pidns ▸ hns)
  levels := by
    rw [h.nsLevel, h.nsParent]
    exact hg.levels
  top := by
    rw [h.nsLevel]
    exact hg.top

theorem Good.alter (hg : Good s) (q : Nat) {f : Proc → Option Proc}
    (hf : ∀ d e', f d = some e' → Below e' d) (hl : ∀ d, s.procs q = some d → d.isThread = false →
      ∃ e', f d = some e' ∧ e'.alive = d.alive) : Good (s.alter q f) := by
  have hsh := Shrinks.alter s q hf
  refine hg.shrinks hsh fun x e' he' ha => ?_
  obtain ⟨e, he, hb⟩ := hsh.entry x e' he'
  obtain ⟨l, hlead, hal, hth, hns⟩ := hg.leader x e he (hb.alive ha)
  rw [hb.tgid, hb.pidns]
  by_cases hx : e.tgid = q
  · rw [hx] at hlead ⊢
    obtain ⟨l', hl', hal'⟩ := hl l hlead hth
    have hb' := hf l l' hl'
    refine ⟨l', by simp [State.alter, State.set, hlead, hl'], by rw [hal', hal], ?_, ?_⟩
    · rw [hb'.isThread, hth]
    · rw [hb'.pidns, hns]
  · exact ⟨l, by simp [State.alter, State.set, hx, hlead], hal, hth, hns⟩

theorem Good.finish (hg : Good s) {pid : Nat}
    (hdead : ∀ q e, s.procs q = some e → e.tgid = pid → q ≠ pid → e.alive = false) :
    Good (finish pid s) := by
  have hsh := Shrinks.finish s pid
  refine hg.shrinks hsh fun x e' he' ha => ?_
  obtain ⟨e, he, hb⟩ := hsh.entry x e' he'
  have hx : x ≠ pid := by
    rintro rfl
    simp only [Kill.finish, if_true] at he'
    obtain ⟨d, -, hlast⟩ := bind_eq_some_iff.1 he'
    split at hlast
    · cases hlast
    cases hlast
    cases ha
  have hg' : e.tgid ≠ pid := by
    intro hp
    have halive := hb.alive ha
    rw [hdead x e he hp hx] at halive
    cases halive
  obtain ⟨l, hlead, hal, hth, hns⟩ := hg.leader x e he (hb.alive ha)
  rw [hb.tgid, hb.pidns]
  refine ⟨if l.ppid = pid then { l with ppid := 0 } else l, ?_, ?_, ?_, ?_⟩
  · simp only [Kill.finish, if_neg hg', hlead, bind_some, hal]
    split <;> simp
  all_goals split <;> assumption

end Tables

/-! ## One teardown -/

section Down

variable {s t u : State} {g h : Nat} {cur : Option Nat} {no : Stop → State → Prop}

theorem Hits.shrinks (hh : Hits t g h) (hst : Shrinks s t) : Hits s g h := by
  obtain ⟨q, d', hd', ha, hgrp, hwhy⟩ := hh
  obtain ⟨d, hd, hb⟩ := hst.entry q d' hd'
  refine ⟨q, d, hd, hb.alive ha, hb.tgid ▸ hgrp, ?_⟩
  rcases hwhy with ⟨hg, htr, hek⟩ | ⟨l', hl', hi, hns, hne, hin⟩
  · exact .inl ⟨hg, (hb.tracer (htr ▸ hg)).symm.trans htr, hb.exitKill hek⟩
  obtain ⟨l, hl, hbl⟩ := hst.entry g l' hl'
  rw [isInside_shrinks hst, hb.pidns, hbl.pidns] at hin
  exact .inr ⟨l, hl, hbl.isInit ▸ hi, hbl.pidns ▸ hns, hb.tgid ▸ hne, hin⟩

def Ready (s : State) (l : Nat) : Prop :=
  ∃ e, s.procs l = some e ∧ e.alive ∧ e.isThread = false

theorem Ready.shrinks (hr : Ready t g) (hst : Shrinks s t) : Ready s g := by
  obtain ⟨e', he', ha, hth⟩ := hr
  obtain ⟨e, he, hb⟩ := hst.entry g e' he'
  exact ⟨e, he, hb.alive ha, hb.isThread ▸ hth⟩

theorem Done.shrinks (hd : Done t u g) (hr : Ready t g) (hst : Shrinks s t) (htu : Shrinks t u) :
    Done s u g := by
  have hcase : ∀ q e, s.procs q = some e → Dead u q ∨ ∃ e', t.procs q = some e' ∧ Below e' e := by
    intro q e he
    cases htq : t.procs q with
    | none => exact .inl ((dead_of_none htq).shrinks htu)
    | some e' =>
      obtain ⟨e₀, he₀, hb⟩ := hst.entry q e' htq
      rw [he] at he₀
      cases he₀
      exact .inr ⟨e', rfl, hb⟩
  refine ⟨fun q e he hgrp => ?_, fun l hl hi hns q e he hin => ?_⟩
  · rcases hcase q e he with hdead | ⟨e', he', hb⟩
    · exact hdead
    · exact hd.group q e' he' (hb.tgid.trans hgrp)
  obtain ⟨l', hl', -⟩ := hr
  obtain ⟨l₀, hl₀, hbl⟩ := hst.entry g l' hl'
  rw [hl] at hl₀
  cases hl₀
  rcases hcase q e he with hdead | ⟨e', he', hb⟩
  · exact hdead
  refine hd.ns l' hl' (hbl.isInit ▸ hi) (hbl.pidns ▸ hns) q e' he' ?_
  rw [isInside_shrinks hst, hb.pidns, hbl.pidns]
  exact hin

def Cut (s : State) (g : Nat) (cur : Option Nat) : Stop → State → Prop
  | .gone, t => ∃ c, cur = some c ∧ Relation.ReflTransGen (Hits s) g c ∧ Ready s c ∧ Done s t c
  | .fuel, _ => False

theorem Cut.shrinks {e : Stop} (hc : Cut t h cur e u) (hst : Shrinks s t) (htu : Shrinks t u)
    (hh : Hits s g h) : Cut s g cur e u := by
  cases e with
  | fuel => exact hc
  | gone =>
    obtain ⟨c, hcur, hpath, hr, hd⟩ := hc
    refine ⟨c, hcur, .head hh ?_, hr.shrinks hst, hd.shrinks hr hst htu⟩
    exact Relation.ReflTransGen.mono (fun _ _ hab => hab.shrinks hst) _ _ hpath

def Downs (cur : Option Nat) (n : Nat) : Prop :=
  ∀ s l, Good s → Ready s l → depth s l < n →
    Ends (teardown cur n l) s (fun t => Good t ∧ Done s t l) (Cut s l cur)

variable {n q : Nat} {e : Proc}

theorem Good.leaderOf (hg : Good s) (he : s.procs q = some e) (ha : e.alive) :
    leaderOf s q e = e.tgid ∧ Ready s e.tgid := by
  obtain ⟨l, hl, hal, hth, -⟩ := hg.leader q e he ha
  refine ⟨?_, l, hl, hal, hth⟩
  unfold Kill.leaderOf
  cases hthread : e.isThread with
  | true => simp [hl]
  | false => simp [hg.self q e he hthread]

theorem ends_withProc {f : Proc → M} {ok : State → Prop}
    (hnone : s.procs q = none → ok s) (hsome : ∀ e, s.procs q = some e → Ends (f e) s ok no) :
    Ends (withProc q f) s ok no := by
  refine .look ?_
  split
  · exact hnone ‹_›
  · exact hsome _ ‹_›

theorem ends_forAll {f : Nat → Proc → M} {I : State → Prop} {D : Nat → State → Prop}
    (hkeeps : ∀ q e, Keeps Shrinks (f q e))
    (hmono : ∀ q s t, Shrinks s t → D q s → D q t) (hs : I s)
    (hnone : ∀ q t, I t → t.procs q = none → D q t)
    (hf : ∀ q t e, I t → t.procs q = some e → Ends (f q e) t (fun u => I u ∧ D q u) no) :
    Ends (forAll f) s (fun t => I t ∧ ∀ q ∈ s.order, D q t) no := by
  refine .look (.each (fun q => keeps_withProc (hkeeps q)) hmono s.order ?_ hs)
  intro q _ t ht
  exact ends_withProc (fun h => ⟨ht, hnone q t ht h⟩) fun e he => hf q t e ht he

theorem send9_ends (ih : Downs cur n) (hg : Good s)
    (he : s.procs q = some e) (ha : e.alive) (hn : depth s e.tgid < n) :
    Ends (send9 cur (teardown cur n) q) s (fun t => Good t ∧ Done s t e.tgid)
      (Cut s e.tgid cur) := by
  obtain ⟨hlead, hready⟩ := hg.leaderOf he ha
  have hdown := ih s e.tgid hg hready hn
  refine ends_withProc (fun h => by simp [he] at h) fun e' he' => ?_
  rw [he] at he'
  cases he'
  refine .onlyIf (fun _ => ?_) fun hna => absurd ha hna
  split
  · rename_i hcur
    refine .bind hdown fun t ht => ?_
    exact ⟨e.tgid, hcur, .refl, hready, ht.2⟩
  refine .look ?_
  rw [hlead]
  exact hdown

theorem send9_within (ih : Downs cur n) (hst : Shrinks s t) (hg : Good t)
    (he : t.procs q = some e) (ha : e.alive) (hn : depth t e.tgid < n) (hh : Hits s g e.tgid) :
    Ends (send9 cur (teardown cur n) q) t (fun u => Good u ∧ Shrinks s u ∧ Dead u q)
      (Cut s g cur) := by
  have hends := (send9_ends ih hg he ha hn).keeps (keeps_send9 fun l => keeps_teardown n l)
  refine hends.mono (fun u hu => ?_) fun st u hu => hu.1.shrinks hst hu.2 hh
  exact ⟨hu.1.1, hst.trans hu.2, hu.1.2.group q e he rfl⟩

def Within (s : State) (t : State) : Prop := Good t ∧ Shrinks s t

theorem nsExit_ends (ih : Downs cur n) (hg : Good s) (he : s.procs g = some e)
    (ha : e.alive) (hth : e.isThread = false) (hn : depth s g < n + 1) :
    Ends (nsExit (send9 cur (teardown cur n)) e) s (fun t => Within s t ∧
      (e.isInit → e.pidns ≠ 0 → ∀ q d, s.procs q = some d → d.tgid ≠ g →
        isInside s d.pidns e.pidns → Dead t q)) (Cut s g cur) := by
  have hself := hg.self g e he hth
  refine .onlyIf (fun hinit => ?_) fun hno => ⟨⟨hg, .rfl⟩, fun hi hns => absurd ⟨hns, hi⟩ hno⟩
  have hloop : Ends (forAll fun q d => look fun s =>
      onlyIf (d.tgid ≠ e.tgid ∧ d.alive ∧ isInside s d.pidns e.pidns)
        (send9 cur (teardown cur n) q)) s
      (fun t => Within s t ∧ ∀ q ∈ s.order, ∀ d, s.procs q = some d → d.tgid ≠ g →
        isInside s d.pidns e.pidns → Dead t q) (Cut s g cur) := by
    refine ends_forAll ?_ ?_ ⟨hg, .rfl⟩ ?_ ?_
    · exact fun q _ => .look fun _ => .onlyIf (keeps_send9 fun l => keeps_teardown n l)
    · exact fun q t u htu hD d hd hne hin => (hD d hd hne hin).shrinks htu
    · exact fun q t _ hq d _ _ _ => dead_of_none hq
    intro q t d' ht hd'
    obtain ⟨d, hd, hb⟩ := ht.2.entry q d' hd'
    refine .look (.onlyIf (fun hc => ?_) fun hc => ⟨ht, fun d₀ hd₀ hne hin => ?_⟩)
    · obtain ⟨hne, hal, hin⟩ := hc
      rw [isInside_shrinks ht.2] at hin
      have hh : Hits s g d'.tgid := by
        refine ⟨q, d, hd, hb.alive hal, hb.tgid.symm, .inr ⟨e, he, hinit.2, hinit.1, ?_, ?_⟩⟩
        · rw [← hb.tgid, ← hself]
          exact hne
        rw [← hb.pidns]
        exact hin
      have hdepth : depth t d'.tgid < n := by
        obtain ⟨l', hl', hal', -, hns'⟩ := ht.1.leader q d' hd' hal
        obtain ⟨l, hl, hbl⟩ := ht.2.entry _ l' hl'
        have hrank := rank_lt hg he ha hinit.2 hinit.1 hl (hbl.alive hal')
          (by rw [← hbl.pidns, hns']; exact hin) (fun h => hne (h.trans hself.symm))
        have hle := rank_shrinks ht.2 d'.tgid
        have htr := tracers_le ht.2
        unfold depth at hn ⊢
        omega
      refine (send9_within ih ht.2 ht.1 hd' hal hdepth hh).mono (fun u hu => ?_) fun _ _ h => h
      exact ⟨⟨hu.1, hu.2.1⟩, fun _ _ _ _ => hu.2.2⟩
    rw [hd] at hd₀
    cases hd₀
    refine dead_of_some hd' ?_
    cases hal : d'.alive with
    | false => rfl
    | true =>
      refine absurd ⟨?_, hal, ?_⟩ hc
      · rw [hb.tgid, hself]
        exact hne
      rw [isInside_shrinks ht.2, hb.pidns]
      exact hin
  refine hloop.mono (fun t ht => ⟨ht.1, fun _ _ q d hd => ?_⟩) fun _ _ h => h
  exact ht.2 q (hg.listed q d hd) d hd

theorem threads_end (hs : Within s t) :
    Ends (forAll fun q d => onlyIf (q ≠ g ∧ d.isThread ∧ d.tgid = g) <|
        threadKill (send9 cur (teardown cur n)) q d) t
      (fun u => Within s u ∧ ∀ q ∈ t.order, ∀ d, s.procs q = some d → d.isThread → d.tgid = g →
        q ≠ g → Dead u q) (Cut s g cur) := by
  refine ends_forAll ?_ ?_ hs ?_ ?_
  · exact fun q d => .onlyIf (keeps_threadKill (fun _ => keeps_send9 fun l => keeps_teardown n l) d)
  · exact fun q v w hvw hD d hd hth hgrp hne => (hD d hd hth hgrp hne).shrinks hvw
  · exact fun q v _ hq d _ _ _ _ => dead_of_none hq
  intro q v d' hv hd'
  obtain ⟨d, hd, hb⟩ := hv.2.entry q d' hd'
  refine .onlyIf (fun hc => ?_) fun hc => ⟨hv, fun d₀ hd₀ hth hgrp hne => ?_⟩
  · obtain ⟨-, hth, -⟩ := hc
    have hno : ¬ (d'.pidns ≠ 0 ∧ d'.isInit) := by
      simp [hv.1.thread q d' hd' hth]
    have hns : Ends (nsExit (send9 cur (teardown cur n)) d') v (fun w => w = v) (Cut s g cur) :=
      Ends.onlyIf (fun h => absurd h hno) fun _ => rfl
    refine .bind hns ?_
    rintro w rfl
    have hbelow : ∀ e e' : Proc,
        (if e.tracer ≠ 0 ∧ (w.procs e.tracer).any fun t => t.alive && t.tgid ≠ e.tgid then
          some { e with alive := false } else none) = some e' → Below e' e ∧ e'.alive = false := by
      intro e e' h
      split at h
      · cases h
        exact ⟨⟨by rfl, by rfl, by rfl, by rfl, by simp, fun _ => by rfl, id⟩, by rfl⟩
      · cases h
    refine .modified ⟨⟨hv.1.alter q (fun e e' h => (hbelow e e' h).1) fun e he hlead => ?_,
      hv.2.trans (.alter w q fun e e' h => (hbelow e e' h).1)⟩, fun _ _ _ _ _ => ?_⟩
    · rw [hd'] at he
      cases he
      simp [hth] at hlead
    cases hx : (w.alter q _).procs q with
    | none => exact dead_of_none hx
    | some e' =>
      refine dead_of_some hx ?_
      simp only [State.alter, State.set, update_self] at hx
      obtain ⟨e, -, he⟩ := bind_eq_some_iff.1 hx
      exact (hbelow e e' he).2
  rw [hd] at hd₀
  cases hd₀
  exact absurd ⟨hne, hb.isThread.trans hth, hb.tgid.trans hgrp⟩ hc

def untrace (q : Nat) (s : State) : State := s.alter q fun d => some { d with tracer := 0 }

theorem untrace_within (hs : Within s t) : Within s (untrace q t) ∧ Shrinks t (untrace q t) := by
  have hbelow : ∀ d e' : Proc, some { d with tracer := 0 } = some e' → Below e' d := by
    rintro d e' ⟨⟩
    exact below_tracer d
  have hsh := Shrinks.alter t q hbelow
  exact ⟨⟨hs.1.alter q hbelow fun d _ _ => ⟨_, rfl, rfl⟩, hs.2.trans hsh⟩, hsh⟩

section

variable (ih : Downs cur n) (hs : Within s t) (hne : g ≠ 0) (hn : depth s g < n + 1)

include ih hs hne hn

theorem killTraced_ends {d : Proc} (hd : t.procs q = some d) (htr : d.tracer = g)
    (hek : d.exitKill) :
    Ends (send9 cur (teardown cur n) q) (untrace q t) (Within s) (Cut s g cur) := by
  obtain ⟨hw, hsh⟩ := untrace_within (q := q) hs
  have hd' : (untrace q t).procs q = some { d with tracer := 0 } := by
    simp [untrace, State.alter, State.set, hd]
  cases ha : d.alive with
  | false =>
    refine ends_withProc (fun _ => hw) fun e he => ?_
    rw [hd'] at he
    cases he
    exact .onlyIf (fun h => by simp [ha] at h) fun _ => hw
  | true =>
    obtain ⟨d₀, hd₀, hb₀⟩ := hs.2.entry q d hd
    have hh : Hits s g d.tgid :=
      ⟨q, d₀, hd₀, hb₀.alive ha, hb₀.tgid.symm,
        .inl ⟨hne, (hb₀.tracer (htr ▸ hne)).symm.trans htr, hb₀.exitKill hek⟩⟩
    have hless : tracers (untrace q t) < tracers t :=
      tracers_lt hsh (hs.1.listed q d hd) hd (htr ▸ hne) hd' rfl
    have hdepth : depth (untrace q t) d.tgid < n := by
      have hle := tracers_le hs.2
      have hrank := rank_le (untrace q t) d.tgid
      unfold depth at hn ⊢
      omega
    exact (send9_within ih hw.2 hw.1 hd' ha hdepth hh).mono (fun u hu => ⟨hu.1, hu.2.1⟩)
      fun _ _ h => h

theorem ptRelease_ends :
    Ends (ptRelease (send9 cur (teardown cur n)) g) t (Within s) (Cut s g cur) := by
  have hloop : Ends (ptRelease (send9 cur (teardown cur n)) g) t
      (fun u => Within s u ∧ ∀ q ∈ t.order, True) (Cut s g cur) := by
    refine ends_forAll ?_ (fun _ _ _ _ h => h) hs (fun _ _ _ _ => trivial) ?_
    · exact fun q d => keeps_release (fun _ => keeps_send9 fun l => keeps_teardown n l) g d
    intro q v d hv hd
    refine .onlyIf (fun htr => ?_) fun _ => ⟨hv, trivial⟩
    have hfirst : Ends (modify (untrace q) : M) v (fun w => w = untrace q v) (Cut s g cur) :=
      Ends.modified rfl
    refine .bind hfirst ?_
    rintro w rfl
    have hkill : Ends (onlyIf d.exitKill (send9 cur (teardown cur n) q)) (untrace q v) (Within s)
        (Cut s g cur) :=
      Ends.onlyIf (fun hek => killTraced_ends ih hv hne hn hd htr hek)
        fun _ => (untrace_within hv).1
    refine .bind hkill fun w hw => .modified ⟨?_, trivial⟩
    have hbelow : ∀ d e' : Proc, some { d with exitKill := false } = some e' → Below e' d := by
      rintro d e' ⟨⟩
      exact below_exitKill d
    exact ⟨hw.1.alter q hbelow fun d _ _ => ⟨_, rfl, rfl⟩, hw.2.trans (.alter w q hbelow)⟩
  exact hloop.mono (fun _ h => h.1) fun _ _ h => h

end

theorem finish_dead (s : State) (pid : Nat) : Dead (finish pid s) pid := by
  cases hx : (finish pid s).procs pid with
  | none => exact dead_of_none hx
  | some e' =>
    refine dead_of_some hx ?_
    simp only [finish, if_true] at hx
    obtain ⟨e, -, hlast⟩ := bind_eq_some_iff.1 hx
    split at hlast
    · cases hlast
    cases hlast
    rfl

theorem downs (cur : Option Nat) (n : Nat) : Downs cur n := by
  induction n with
  | zero => exact fun s l _ _ hn => absurd hn (Nat.not_lt_zero _)
  | succ n ih =>
    intro s l hg hr hn
    obtain ⟨e, he, ha, hth⟩ := hr
    have hl : l ≠ 0 := by
      rintro rfl
      simp [hg.zero] at he
    have hk : ∀ q, Keeps Shrinks (send9 cur (teardown cur n) q) :=
      fun q => keeps_send9 fun l => keeps_teardown n l
    refine ends_withProc (fun h => by simp [he] at h) fun e' he' => ?_
    rw [he] at he'
    cases he'
    refine .bind (nsExit_ends ih hg he ha hth hn) fun t ht => ?_
    refine .bindKeeps (keeps_threads hk l) (threads_end ht.1) fun u hu htu => ?_
    refine .bindKeeps (keeps_ptRelease hk l) (ptRelease_ends ih hu.1 hl hn) fun v hv huv => ?_
    -- the threads of the group are dead by now
    have hthreads : ∀ q d, s.procs q = some d → d.tgid = l → q ≠ l → Dead v q := by
      intro q d hd hgrp hne
      have hthread : d.isThread = true := by
        cases hdt : d.isThread with
        | true => rfl
        | false => exact absurd ((hg.self q d hd hdt).symm.trans hgrp) hne
      exact (hu.2 q (ht.1.2.order ▸ hg.listed q d hd) d hd hthread hgrp hne).shrinks huv
    have hfin := Shrinks.finish v l
    have hgroup : ∀ q d, s.procs q = some d → d.tgid = l → Dead (finish l v) q := by
      intro q d hd hgrp
      by_cases hq : q = l
      · subst hq
        exact finish_dead v q
      · exact (hthreads q d hd hgrp hq).shrinks hfin
    refine .modified ⟨hv.1.finish fun q d' hd' hgrp hne => ?_, hgroup,
      fun l' hl' hi hns q d hd hin => ?_⟩
    · obtain ⟨d, hd, hb⟩ := hv.2.entry q d' hd'
      have hdead := hthreads q d hd (hb.tgid.symm.trans hgrp) hne
      simpa [Dead, isAlive, hd'] using hdead
    rw [he] at hl'
    cases hl'
    by_cases hgrp : d.tgid = l
    · exact hgroup q d hd hgrp
    · exact (((ht.2 hi hns q d hd hgrp hin).shrinks htu).shrinks huv).shrinks hfin

end Down

/-! ## The signal -/

theorem dead_alter {s : State} {p q : Nat} {f : Proc → Option Proc} (hd : Dead s p)
    (hf : ∀ e e', f e = some e' → e'.alive → e.alive) : Dead (s.alter q f) p := by
  by_cases hp : p = q
  swap
  · simpa [Dead, isAlive, State.alter, State.set, hp] using hd
  subst hp
  unfold Dead isAlive at hd ⊢
  simp only [State.alter, State.set, update_self]
  cases hs : s.procs p with
  | none => rfl
  | some e =>
    rw [hs, any_some] at hd
    cases hfe : f e with
    | none => simp [hfe]
    | some e' =>
      simp only [bind_some, hfe, any_some]
      cases ha : e'.alive with
      | false => rfl
      | true => simp [hf e e' hfe ha] at hd

theorem dead_step {s : State} {p : Nat} (hd : Dead s p) (hp : p < s.nextPid) (op : Op) :
    Dead (step s op) p ∧ p < (step s op).nextPid := by
  cases op with
  | create e =>
    refine ⟨?_, Nat.lt_succ_of_lt hp⟩
    simpa [Dead, isAlive, step, State.set, Nat.ne_of_lt hp] using hd
  | reap q =>
    refine ⟨dead_alter hd fun e e' h ha => ?_, hp⟩
    split at h
    · cases h
      exact ha
    · cases h
  | trace q tracer exitKill =>
    refine ⟨dead_alter hd fun e e' h ha => ?_, hp⟩
    cases h
    exact ha
  | kill fuel cur q =>
    have hsh : Shrinks s (after fuel cur q s) := (keeps_send9 fun l => keeps_teardown fuel l).run s
    exact ⟨hd.shrinks hsh, hsh.nextPid.symm ▸ hp⟩

theorem dead_run {s : State} {p : Nat} (hd : Dead s p) (hp : p < s.nextPid) (ops : List Op) :
    Dead (run s ops) p := by
  induction ops generalizing s with
  | nil => exact hd
  | cons op ops ih =>
    obtain ⟨hd', hp'⟩ := dead_step hd hp op
    exact ih hd' hp'

def container : State where
  procs := fun q =>
    if q = 1 then some ⟨1, false, true, 0, 0, false, false, 1, true⟩
    else if q = 2 ∨ q = 3 then some ⟨q, false, true, 1, 0, false, false, 1, false⟩
    else none
  order := [1, 2, 3]
  nsParent := fun _ => 0
  nsLevel := fun a => if a = 0 then 0 else 1
  nextPid := 4

/-- The init is killed by the member 2: the member dies, and the init and the member 3 live on. -/
theorem kill_cut_off :
    isAlive container 1 = true ∧ isAlive (after 20 (some 2) 1 container) 1 = true ∧
      isAlive (after 20 (some 2) 1 container) 2 = false ∧
      isAlive (after 20 (some 2) 1 container) 3 = true := by
  decide +kernel

theorem kill_shrinks (fuel : Nat) (cur : Option Nat) (p : Nat) (s : State) :
    Shrinks s (after fuel cur p s) :=
  (keeps_send9 fun l => keeps_teardown fuel l).run s

end SamaraOS.Kill
