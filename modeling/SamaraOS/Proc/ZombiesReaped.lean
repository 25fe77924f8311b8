import SamaraOS.Proc.Zombies

/-!
# Every zombie has somebody who reaps it

A zombie is left for a live parent, for a live tracer or for the kernel shell.  When a parent goes,
its zombies go with it.  When a tracer goes, `pt_release` only takes its name away: a zombie that
was kept for the tracer alone stays for ever.  Without such a step no zombie is ever left over.
-/

namespace SamaraOS.Zombies

open Option

def Live (t : Table) (pid : Nat) : Prop :=
  ∃ e, t.procs pid = some e ∧ e.zombie = false ∧ e.isThread = false

def Reapable (t : Table) : Prop :=
  ∀ q e, t.procs q = some e → e.zombie →
    (e.isThread = false ∧ Live t e.ppid) ∨ Live t e.tracer ∨ e.kernelWaited

/-- A tracer that goes away does not have a zombie which is kept for it alone. -/
def Regular (t : Table) : Op → Prop
  | .release pid q => ∀ e, t.procs q = some e → e.tracer = pid → e.zombie →
      e.ppid ≠ 0 ∨ e.kernelWaited
  | _ => True

def RegularRun : Table → List Op → Prop
  | _, [] => True
  | t, op :: ops => Enabled t op ∧ Regular t op ∧ RegularRun (step t op) ops

structure Fine (t : Table) (gone : Nat → Prop) (q : Nat) (e : Proc) : Prop where
  leader : e.isThread = false → e.tgid = q
  group : e.zombie = false → e.isThread → Live t e.tgid ∧ ¬ gone e.tgid
  parent : e.ppid ≠ 0 → Live t e.ppid ∧ ¬ gone e.ppid
  tracer : e.tracer ≠ 0 → Live t e.tracer ∧ ¬ gone e.tracer
  thread : e.isThread → e.ppid = 0
  zombie : e.zombie → e.ppid ≠ 0 ∨ e.tracer ≠ 0 ∨ e.kernelWaited

structure Inv (t : Table) : Prop where
  fresh : ∀ q, t.nextPid ≤ q → t.procs q = none
  zero : t.procs 0 = none
  pos : 0 < t.nextPid
  fine : ∀ q e, t.procs q = some e → Fine t (fun _ => False) q e

variable {t : Table} {pid q : Nat} {e : Proc} {f : Nat → Proc → Option Proc}

theorem Inv.reapable (hi : Inv t) : Reapable t := by
  intro q e he hz
  have hf := hi.fine q e he
  rcases hf.zombie hz with hp | ht | hk
  · refine .inl ⟨?_, (hf.parent hp).1⟩
    cases hth : e.isThread with
    | false => rfl
    | true => exact absurd (hf.thread hth) hp
  · exact .inr (.inl (hf.tracer ht).1)
  · exact .inr (.inr hk)

theorem Fine.keep {t' : Table} {gone : Nat → Prop} (hf : Fine t gone q e)
    (hlive : ∀ p, Live t p → ¬ gone p → Live t' p) :
    Fine t' (fun _ => False) q e where
  leader := hf.leader
  group hz hth := ⟨hlive _ (hf.group hz hth).1 (hf.group hz hth).2, id⟩
  parent h := ⟨hlive _ (hf.parent h).1 (hf.parent h).2, id⟩
  tracer h := ⟨hlive _ (hf.tracer h).1 (hf.tracer h).2, id⟩
  thread := hf.thread
  zombie := hf.zombie

theorem mapProcs_some {e' : Proc}
    (h : (t.mapProcs f).procs q = some e') : ∃ e, t.procs q = some e ∧ f q e = some e' :=
  bind_eq_some_iff.1 h

theorem Inv.mapProcs (hi : Inv t) (gone : Nat → Prop)
    (hf : ∀ q e e', t.procs q = some e → f q e = some e' → Fine t gone q e') (hlive : ∀ q e, t.procs
    q = some e → e.zombie = false → e.isThread = false → ¬ gone q → ∃ e', f q e = some e' ∧
    e'.zombie = false ∧ e'.isThread = false) : Inv (t.mapProcs f) := by
  have hkeep : ∀ p, Live t p → ¬ gone p → Live (t.mapProcs f) p := by
    intro p ⟨e, he, hz, hth⟩ hg
    obtain ⟨e', he', hz', hth'⟩ := hlive p e he hz hth hg
    exact ⟨e', bind_eq_some_iff.2 ⟨e, he, he'⟩, hz', hth'⟩
  refine ⟨fun q hq => ?_, ?_, hi.pos, fun q e' he' => ?_⟩
  · simp only [Table.mapProcs, hi.fresh q hq, bind_none]
  · simp only [Table.mapProcs, hi.zero, bind_none]
  obtain ⟨e, he, hfe⟩ := mapProcs_some he'
  exact (hf q e e' he hfe).keep hkeep

theorem Inv.modify (hi : Inv t) {f : Proc → Option Proc}
    (hf : ∀ e e', t.procs pid = some e → Fine t (fun _ => False) pid e → f e = some e' →
      Fine t (fun _ => False) pid e')
    (hlive : ∀ e, e.zombie = false → e.isThread = false →
      ∃ e', f e = some e' ∧ e'.zombie = false ∧ e'.isThread = false) : Inv (t.modify pid f) := by
  refine hi.mapProcs (fun _ => False) (fun q e e' he hfe => ?_) (fun q e he hz hth _ => ?_)
  · split at hfe
    next heq =>
      subst heq
      exact hf e e' he (hi.fine q e he) hfe
    cases hfe
    exact hi.fine q e he
  split
  next heq =>
    exact hlive e hz hth
  · exact ⟨e, rfl, hz, hth⟩

theorem Inv.add (hi : Inv t) (hf : Fine t (fun _ => False) t.nextPid e) :
    Inv (t.add e) := by
  have hkeep : ∀ p, Live t p → ¬ False → Live (t.add e) p := by
    intro p ⟨d, hd, hz, hth⟩ _
    have hne : p ≠ t.nextPid := by
      intro heq
      rw [heq, hi.fresh _ (Nat.le_refl _)] at hd
      cases hd
    exact ⟨d, by simp [Table.add, hne, hd], hz, hth⟩
  refine ⟨fun q hq => ?_, ?_, Nat.succ_pos _, fun q d hd => ?_⟩
  · have hne : q ≠ t.nextPid := by
      have : t.nextPid + 1 ≤ q := hq
      omega
    have hle : t.nextPid ≤ q := by
      have : t.nextPid + 1 ≤ q := hq
      omega
    simp [Table.add, hne, hi.fresh q hle]
  · have hne : (0 : Nat) ≠ t.nextPid := Nat.ne_of_lt hi.pos
    simp [Table.add, hne, hi.zero]
  by_cases hq : q = t.nextPid
  · subst hq
    simp only [Table.add, Function.update_self, Option.some.injEq] at hd
    subst hd
    exact hf.keep hkeep
  simp only [Table.add, Function.update_of_ne hq] at hd
  exact (hi.fine q d hd).keep hkeep

variable {t : Table}

theorem Inv.leader_live (hi : Inv t) (he : t.procs q = some e)
    (hz : e.zombie = false) : Live t e.tgid := by
  cases hth : e.isThread with
  | false =>
    rw [(hi.fine q e he).leader hth]
    exact ⟨e, he, hz, hth⟩
  | true => exact ((hi.fine q e he).group hz hth).1

/-! ## Steps -/

section

variable (hi : Inv t) (pid : Nat) (follow : Bool)

include hi

theorem spawn_inv (detached : Bool) : Inv (spawn t detached) :=
  hi.add ⟨fun _ => rfl, nofun, fun h => absurd rfl h, fun h => absurd rfl h, nofun, nofun⟩

theorem fork_inv : Inv (fork t pid follow) := by
  unfold fork
  split
  swap
  · exact hi
  next p hp =>
  split
  · exact hi
  next hz =>
  have hz : p.zombie = false := by simpa using hz
  refine hi.add ⟨fun _ => rfl, nofun, fun _ => ⟨hi.leader_live hp hz, id⟩, fun ht => ?_, nofun,
    nofun⟩
  cases follow with
  | false => exact absurd rfl ht
  | true => exact (hi.fine pid p hp).tracer ht

theorem cloneThread_inv : Inv (cloneThread t pid follow) := by
  unfold cloneThread
  split
  swap
  · exact hi
  next p hp =>
  split
  · exact hi
  next hz =>
  have hz : p.zombie = false := by simpa using hz
  have hlead : Live t p.tgid := hi.leader_live hp hz
  refine hi.add ⟨nofun, fun _ _ => ⟨hlead, id⟩, fun h => absurd rfl h, fun ht => ?_,
    fun _ => rfl, nofun⟩
  cases follow with
  | false => exact absurd rfl ht
  | true => exact (hi.fine pid p hp).tracer ht

theorem threadKilled_fine {e' : Proc} (he : t.procs q = some e) (h : threadKilled t e = some e') :
    Fine t (fun _ => False) q e' := by
  unfold threadKilled at h
  split at h
  next htr =>
    cases h
    have hf := hi.fine q e he
    refine ⟨hf.leader, nofun, hf.parent, hf.tracer, hf.thread, fun _ => .inr (.inl ?_)⟩
    intro h0
    rw [h0, hi.zero] at htr
    cases htr
  · cases h

theorem threadKill_inv : Inv (threadKill t pid) := by
  refine hi.modify (fun e e' he hf h => ?_) (fun e hz hth => ?_)
  · split at h
    · exact threadKilled_fine hi he h
    cases h
    exact hf
  simp only [hth, Bool.false_eq_true, if_false]
  exact ⟨e, rfl, hz, hth⟩

theorem killThreads_inv : Inv (killThreads t pid) := by
  refine hi.mapProcs (fun _ => False) (fun q e e' he h => ?_) (fun q e he hz hth _ => ?_)
  · split at h
    · exact threadKilled_fine hi he h
    cases h
    exact hi.fine q e he
  simp only [hth, Bool.false_and, Bool.false_eq_true, if_false]
  exact ⟨e, rfl, hz, hth⟩

end

theorem release_inv (hi : Inv t) (h : Regular t (.release pid q)) : Inv (release t pid q) := by
  refine hi.modify (fun e e' he hf hfe => ?_) (fun e hz hth => ?_)
  · cases hfe
    split
    next htr =>
      exact ⟨hf.leader, hf.group, hf.parent, fun h => absurd rfl h, hf.thread,
        fun hz => (h e he htr hz).imp_right .inr⟩
    · exact hf
  refine ⟨_, rfl, ?_⟩
  split
  · exact ⟨hz, hth⟩
  · exact ⟨hz, hth⟩

theorem orphans_inv (hi : Inv t) (pid : Nat) : Inv (orphans t pid) := by
  refine hi.mapProcs (fun _ => False) (fun q e e' he h => ?_) (fun q e he hz hth _ => ?_)
  · have hf := hi.fine q e he
    split at h
    · split at h
      · cases h
      next hkeep =>
      cases h
      refine ⟨hf.leader, hf.group, fun h => absurd rfl h, hf.tracer, fun _ => rfl, fun hz => ?_⟩
      have hz : e.zombie = true := hz
      simp only [hz, Bool.true_and, Bool.not_eq_true', Bool.not_eq_false] at hkeep
      exact .inr (.inr hkeep)
    cases h
    exact hf
  simp only [hz, Bool.false_and, Bool.false_eq_true, if_false]
  split
  · exact ⟨_, rfl, rfl, hth⟩
  · exact ⟨e, rfl, hz, hth⟩

theorem finish_inv (hi : Inv t) (h : Ready t pid) : Inv (freeOrZombify t pid) := by
  -- nobody refers to the process any more
  have hfine : ∀ q e, t.procs q = some e → Fine t (· = pid) q e := by
    intro q e he
    have hf := hi.fine q e he
    obtain ⟨hthr, htr, hpar⟩ := h q e he
    exact ⟨hf.leader, fun hz hth => ⟨(hf.group hz hth).1, fun heq => hthr ⟨hth, heq, hz⟩⟩,
      fun h => ⟨(hf.parent h).1, hpar⟩, fun h => ⟨(hf.tracer h).1, htr⟩, hf.thread, hf.zombie⟩
  refine hi.mapProcs (· = pid) (fun q e e' he hfe => ?_) (fun q e he hz hth hne => ?_)
  swap
  · rw [if_neg hne]
    exact ⟨e, rfl, hz, hth⟩
  split at hfe
  swap
  · cases hfe
    exact hfine q e he
  next heq =>
  simp only at hfe
  split at hfe
  · cases hfe
  next hkeep =>
  cases hfe
  have hf := hfine q e he
  refine ⟨hf.leader, nofun, hf.parent, hf.tracer, hf.thread, fun _ => ?_⟩
  by_cases hk : e.kernelWaited
  · exact .inr (.inr hk)
  by_cases hp : e.ppid = 0
  · refine .inr (.inl ?_)
    intro ht
    simp_all
  · exact .inl hp

section

variable (hi : Inv t) (me pid : Nat)

include hi

theorem wait_inv : Inv (wait t me pid) := by
  refine hi.modify (fun e e' he hf h => ?_) (fun e hz hth => ?_)
  · split at h
    · cases h
      exact hf
    split at h
    · cases h
    split at h
    · split at h
      · cases h
      next hkeep =>
      cases h
      simp only [Bool.or_eq_true, not_or, Bool.not_eq_true', Bool.not_eq_false,
        Bool.and_eq_true, decide_eq_true_eq] at hkeep
      exact ⟨hf.leader, hf.group, hf.parent, fun h => absurd rfl h, hf.thread,
        fun _ => .inl hkeep.2.1⟩
    cases h
    exact hf
  simp only [hz, Bool.not_false, if_true]
  exact ⟨e, rfl, hz, hth⟩

theorem procReap_inv : Inv (procReap t pid) := by
  refine hi.modify (fun e e' he hf h => ?_) (fun e hz hth => ?_)
  · split at h
    · cases h
    cases h
    exact hf
  simp only [hz, Bool.false_eq_true, if_false]
  exact ⟨e, rfl, hz, hth⟩

theorem procDetach_inv : Inv (procDetach t pid) := by
  refine hi.modify (fun e e' he hf h => ?_) (fun e hz hth => ?_)
  · split at h
    · split at h
      · cases h
      cases h
      exact hf
    next hz =>
    cases h
    exact ⟨hf.leader, hf.group, hf.parent, hf.tracer, hf.thread, fun h => absurd h hz⟩
  simp only [hz, Bool.false_eq_true, if_false]
  exact ⟨_, rfl, rfl, hth⟩

theorem traceme_inv : Inv (traceme t pid) := by
  refine hi.modify (fun e e' he hf h => ?_) (fun e hz hth => ?_)
  · split at h
    next par hpar =>
      split at h
      · cases h
        exact hf
      next hc =>
      cases h
      simp only [Bool.or_eq_true, not_or, decide_eq_true_eq] at hc
      obtain ⟨p, hp, hpz, hpt⟩ := (hf.parent hc.2).1
      rw [hpar] at hp
      cases hp
      refine ⟨hf.leader, hf.group, hf.parent, fun _ => ⟨?_, id⟩, hf.thread,
        fun h => absurd h hc.1.1⟩
      exact hi.leader_live hpar hpz
    cases h
    exact hf
  split
  · split
    · exact ⟨e, rfl, hz, hth⟩
    · exact ⟨_, rfl, hz, hth⟩
  · exact ⟨e, rfl, hz, hth⟩

theorem attach_inv : Inv (attach t me pid) := by
  unfold attach
  split
  swap
  · exact hi
  next m hm =>
  split
  · exact hi
  next hmz =>
  have hlive : Live t m.tgid := hi.leader_live hm (by simpa using hmz)
  refine hi.modify (fun e e' he hf h => ?_) (fun e hz hth => ?_)
  · split at h
    · cases h
      exact hf
    next hc =>
    cases h
    simp only [Bool.or_eq_true, not_or] at hc
    exact ⟨hf.leader, hf.group, hf.parent, fun _ => ⟨hlive, id⟩, hf.thread,
      fun h => absurd h hc.1.1⟩
  split
  · exact ⟨e, rfl, hz, hth⟩
  · exact ⟨_, rfl, hz, hth⟩

theorem detach_inv : Inv (detach t me pid) := by
  refine hi.modify (fun e e' he hf h => ?_) (fun e hz hth => ?_)
  · split at h
    · cases h
      exact hf
    next hc =>
    cases h
    simp only [Bool.or_eq_true, not_or] at hc
    exact ⟨hf.leader, hf.group, hf.parent, fun h => absurd rfl h, hf.thread,
      fun h => absurd h hc.1⟩
  split
  · exact ⟨e, rfl, hz, hth⟩
  · exact ⟨_, rfl, hz, hth⟩

theorem step_inv {op : Op} (hen : Enabled t op) (h : Regular t op) : Inv (step t op) := by
  cases op with
  | spawn detached => exact spawn_inv hi detached
  | fork pid follow => exact fork_inv hi pid follow
  | cloneThread pid follow => exact cloneThread_inv hi pid follow
  | threadKill pid => exact threadKill_inv hi pid
  | killThreads pid => exact killThreads_inv hi pid
  | release pid q => exact release_inv hi h
  | orphans pid => exact orphans_inv hi pid
  | finish pid => exact finish_inv hi hen
  | wait me pid => exact wait_inv hi me pid
  | procReap pid => exact procReap_inv hi pid
  | procDetach pid => exact procDetach_inv hi pid
  | traceme pid => exact traceme_inv hi pid
  | attach me pid => exact attach_inv hi me pid
  | detach me pid => exact detach_inv hi me pid

end

/-- The steps of teardowns, nested ones included. -/
def Op.Ends : Op → Prop
  | .threadKill _ | .killThreads _ | .release _ _ | .orphans _ | .finish _ => True
  | _ => False

/-- What teardowns leave of an entry: it gets no new tracer, no new parent and no new life. -/
structure Proc.Fades (e e' : Proc) : Prop where
  isThread : e'.isThread = e.isThread
  tgid : e'.tgid = e.tgid
  tracer : e'.tracer = e.tracer ∨ e'.tracer = 0
  ppid : e'.ppid = e.ppid ∨ e'.ppid = 0
  zombie : e.zombie → e'.zombie

theorem Proc.Fades.refl (e : Proc) : e.Fades e := ⟨rfl, rfl, .inl rfl, .inl rfl, id⟩

theorem Proc.Fades.trans {e e' e'' : Proc} (h : e.Fades e') (h' : e'.Fades e'') : e.Fades e'' where
  isThread := h'.isThread.trans h.isThread
  tgid := h'.tgid.trans h.tgid
  tracer := by
    rcases h'.tracer with htr | htr
    · rw [htr]
      exact h.tracer
    exact .inr htr
  ppid := by
    rcases h'.ppid with hpar | hpar
    · rw [hpar]
      exact h.ppid
    exact .inr hpar
  zombie hz := h'.zombie (h.zombie hz)

theorem threadKilled_some {e e' : Proc} (h : threadKilled t e = some e') :
    e' = { e with zombie := true } := by
  unfold threadKilled at h
  split at h
  · exact (some.inj h).symm
  · cases h

theorem threadKilled_fades {e e' : Proc} (h : threadKilled t e = some e') : e.Fades e' := by
  rw [threadKilled_some h]
  exact ⟨rfl, rfl, .inl rfl, .inl rfl, fun _ => rfl⟩

theorem modify_fades {f : Proc → Option Proc} (hf : ∀ e e', f e = some e' → e.Fades e') {pid q : Nat}
    {e' : Proc} (h : (t.modify pid f).procs q = some e') :
    ∃ e, t.procs q = some e ∧ e.Fades e' := by
  obtain ⟨e, he, he'⟩ := mapProcs_some h
  refine ⟨e, he, ?_⟩
  split_ifs at he'
  · exact hf e e' he'
  · exact some.inj he' ▸ .refl e

theorem step_fades {op : Op} (hop : op.Ends) {q : Nat} {e' : Proc}
    (h : (step t op).procs q = some e') : ∃ e, t.procs q = some e ∧ e.Fades e' := by
  cases op with
  | threadKill pid =>
    refine modify_fades (fun e e' hf => ?_) h
    split_ifs at hf
    · exact threadKilled_fades hf
    · exact some.inj hf ▸ .refl e
  | killThreads pid =>
    obtain ⟨e, he, hf⟩ := mapProcs_some h
    refine ⟨e, he, ?_⟩
    split_ifs at hf
    · exact threadKilled_fades hf
    · exact some.inj hf ▸ .refl e
  | release pid r =>
    refine modify_fades (fun e e' hf => ?_) h
    rw [← some.inj hf]
    split_ifs
    · exact ⟨rfl, rfl, .inr rfl, .inl rfl, id⟩
    · exact .refl e
  | orphans pid =>
    obtain ⟨e, he, hf⟩ := mapProcs_some h
    refine ⟨e, he, ?_⟩
    split_ifs at hf
    · exact some.inj hf ▸ ⟨rfl, rfl, .inl rfl, .inr rfl, id⟩
    · exact some.inj hf ▸ .refl e
  | finish pid =>
    refine modify_fades (fun e e' hf => ?_) h
    split_ifs at hf
    exact some.inj hf ▸ ⟨rfl, rfl, .inl rfl, .inl rfl, fun _ => rfl⟩
  | _ => exact hop.elim

theorem run_fades {ops : List Op} (hops : ∀ op ∈ ops, op.Ends) {q : Nat} {e' : Proc}
    (h : (run t ops).procs q = some e') : ∃ e, t.procs q = some e ∧ e.Fades e' := by
  induction ops generalizing t with
  | nil => exact ⟨e', h, .refl e'⟩
  | cons op ops ih =>
    obtain ⟨e₁, he₁, hlate⟩ := ih (fun o ho => hops o (.tail _ ho)) h
    obtain ⟨e, he, hfirst⟩ := step_fades (hops op (.head _)) he₁
    exact ⟨e, he, hfirst.trans hlate⟩

/-- An entry that is left at the end of a run was there right after each step of the run. -/
theorem run_after {ops : List Op} (hops : ∀ op ∈ ops, op.Ends) {op : Op} (hop : op ∈ ops) {q : Nat}
    {e' : Proc} (h : (run t ops).procs q = some e') :
    ∃ (u : Table) (e : Proc), (step u op).procs q = some e ∧ e.Fades e' := by
  obtain ⟨before, after, rfl⟩ := List.append_of_mem hop
  rw [run, List.foldl_append, List.foldl_cons] at h
  obtain ⟨e, he, hfade⟩ := run_fades (fun o ho => hops o (by simp [ho])) h
  exact ⟨_, e, he, hfade⟩

/-- The loops of a teardown take every reference to the process away, and the teardowns that run
in between add none. -/
theorem teardown_ready (hi : Inv t) (h0 : pid ≠ 0) {ops : List Op} (hops : ∀ op ∈ ops, op.Ends)
    (hkill : .killThreads pid ∈ ops) (hrelease : ∀ q < t.nextPid, .release pid q ∈ ops)
    (horphans : .orphans pid ∈ ops) : Ready (run t ops) pid := by
  intro q e' he'
  obtain ⟨e₀, he₀, -⟩ := run_fades hops he'
  have hq : q < t.nextPid := by
    by_contra hge
    rw [hi.fresh q (Nat.le_of_not_lt hge)] at he₀
    cases he₀
  refine ⟨?_, ?_, ?_⟩
  · rintro ⟨hth, htg, hz⟩
    obtain ⟨u, e, he, hfade⟩ := run_after hops hkill he'
    rw [hfade.isThread] at hth
    rw [hfade.tgid] at htg
    obtain ⟨d, -, hf⟩ := mapProcs_some he
    split_ifs at hf with hmine
    · rw [threadKilled_some hf] at hfade
      rw [hfade.zombie rfl] at hz
      cases hz
    cases hf
    exact hmine (by simp [hth, htg])
  · obtain ⟨u, e, he, hfade⟩ := run_after hops (hrelease q hq) he'
    have hlost : e.tracer ≠ pid := by
      obtain ⟨d, -, hf⟩ := mapProcs_some he
      rw [if_pos rfl] at hf
      cases hf
      split_ifs with htr
      exacts [h0.symm, htr]
    rcases hfade.tracer with htr | htr
    · rwa [htr]
    · exact htr ▸ h0.symm
  · obtain ⟨u, e, he, hfade⟩ := run_after hops horphans he'
    have hlost : e.ppid ≠ pid := by
      obtain ⟨d, -, hf⟩ := mapProcs_some he
      split_ifs at hf with hpar
      all_goals cases hf
      exacts [h0.symm, hpar]
    rcases hfade.ppid with hpar | hpar
    · rwa [hpar]
    · exact hpar ▸ h0.symm

theorem boot_inv : Inv boot := ⟨fun _ _ => rfl, rfl, Nat.one_pos, nofun⟩

theorem run_inv (hi : Inv t) {ops : List Op} (h : RegularRun t ops) : Inv (run t ops) := by
  induction ops generalizing t with
  | nil => exact hi
  | cons op ops ih =>
    obtain ⟨hen, hreg, hrest⟩ := h
    exact ih (step_inv hi hen hreg) hrest

/-- In every run in which no tracer lets go of a zombie that is kept for it alone, every zombie
has somebody who reaps it. -/
theorem zombies_reapable (ops : List Op) (h : RegularRun boot ops) : Reapable (run boot ops) :=
  (run_inv boot_inv h).reapable

theorem RegularRun.append {ops ops' : List Op} (h : RegularRun t ops)
    (h' : RegularRun (run t ops) ops') : RegularRun t (ops ++ ops') := by
  induction ops generalizing t with
  | nil => exact h'
  | cons op ops ih => exact ⟨h.1, h.2.1, ih h.2.2 h'⟩

/-- In a table of at most three processes it is enough to look at these. -/
theorem Inv.ready_of_three (hi : Inv t) (hn : t.nextPid ≤ 4)
    (h : ∀ q < 4, (t.procs q).all fun e => decide (¬ (e.isThread ∧ e.tgid = pid ∧ e.zombie = false) ∧
      e.tracer ≠ pid ∧ e.ppid ≠ pid)) : Ready t pid := by
  intro q e he
  rcases Nat.lt_or_ge q 4 with hq | hq
  · have := h q hq
    rw [he] at this
    exact of_decide_eq_true this
  · rw [hi.fresh q (hn.trans hq)] at he
    cases he

/-- The child 2 of process 1 is traced by process 3 and ends; then its tracer ends, which takes its
name from the zombie, and its parent waits for it. -/
theorem zombies_reapable_child :
    let ended : List Op := [.spawn true, .fork 1 false, .spawn true, .attach 3 2, .killThreads 2,
      .orphans 2, .finish 2, .killThreads 3, .release 3 2, .orphans 3, .finish 3]
    ((run boot ended).procs 2 = some ⟨2, 1, false, 0, false, true⟩ ∧ Reapable (run boot ended)) ∧
      (run boot (ended ++ [.wait 1 2])).procs 2 = none ∧
        Reapable (run boot (ended ++ [.wait 1 2])) := by
  intro ended
  have h2 : (2 : Nat) ≠ 0 := by decide
  have h3 : (3 : Nat) ≠ 0 := by decide
  have hchild : RegularRun boot [.spawn true, .fork 1 false, .spawn true, .attach 3 2,
      .killThreads 2, .orphans 2] :=
    ⟨trivial, trivial, trivial, trivial, trivial, trivial, trivial, trivial, trivial, trivial, h2,
      trivial, trivial⟩
  have hready : Ready _ 2 := (run_inv boot_inv hchild).ready_of_three (by decide) (by decide)
  have htracer : RegularRun boot ([.spawn true, .fork 1 false, .spawn true, .attach 3 2,
      .killThreads 2, .orphans 2] ++ [.finish 2, .killThreads 3, .release 3 2, .orphans 3]) := by
    refine hchild.append ⟨hready, trivial, trivial, trivial, trivial, ?_, h3, trivial, trivial⟩
    -- the zombie that is let go has its parent
    rintro e ⟨⟩ - -
    exact .inl (by decide)
  have hready' : Ready _ 3 := (run_inv boot_inv htracer).ready_of_three (by decide) (by decide)
  have hended : RegularRun boot ended := htracer.append ⟨hready', trivial, trivial⟩
  exact ⟨⟨by decide, zombies_reapable ended hended⟩, by decide,
    zombies_reapable _ (hended.append ⟨trivial, trivial, trivial⟩)⟩

/-- A process that was attached to ends, and then its tracer does without waiting for it. -/
theorem zombie_left_over :
    let t₁ := run boot [.spawn true, .spawn true, .attach 1 2]
    let t₂ := run t₁ (teardown t₁ 2)
    let t₃ := run t₂ (teardown t₂ 1)
    t₃.procs 2 = some ⟨2, 0, false, 0, false, true⟩ ∧ ¬ Reapable t₃ := by
  refine ⟨by decide, fun h => ?_⟩
  rcases h 2 ⟨2, 0, false, 0, false, true⟩ (by decide) rfl with ⟨-, e, he, -⟩ | ⟨e, he, -⟩ | hk
  · cases he
  · cases he
  · cases hk

end SamaraOS.Zombies
