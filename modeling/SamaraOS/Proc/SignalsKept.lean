import SamaraOS.Proc.Signals

/-!
# A signal stays where it was parked

An accepted signal stays pending on its thread, blocked or not, until that thread takes it.
Three calls throw pending signals away: a new program drops those of the thread that calls it and
ends the other threads, a thread that exits takes its own with it, and `SIG_DFL` and `SIG_IGN`
drop the signal on the thread that sets them.  A signal that should end the process is lost if its
end would kill the sender.
-/

namespace SamaraOS.Signals

variable {g : Group} {pid sig : Nat}

def fresh (sa : Nat → Sa) (pid : Nat) (mask : SigSet) : Group :=
  ⟨sa, [⟨pid, false, false, false, mask, 0⟩], false⟩

/-- Ignored by `SIG_IGN` or by default; the default of `SIGSTOP` is to stop. -/
def Ignored (g : Group) (sig : Nat) : Prop :=
  (g.sa sig).handler = 1 ∨ (g.sa sig).handler = 0 ∧ sigDefaultIgnored sig ∧ sig ≠ 19

def Parked (g : Group) (pid sig : Nat) : Prop :=
  ∃ t ∈ g.threads, t.pid = pid ∧ has t.pending sig

def Delivers (g : Group) (op : Op) (pid sig : Nat) : Prop :=
  match op with
  | .deliver p _ _ => p = pid ∧ ∃ t, g.running? pid = some t ∧ lowest (ready t) = some sig
  | .take p set => p = pid ∧ ∃ t, g.running? pid = some t ∧ lowest (t.pending &&& set) = some sig
  | _ => False

def Discards (g : Group) (op : Op) (pid sig : Nat) : Prop :=
  match op with
  | .sigaction p s sa => p = pid ∧ s = sig ∧ sa.handler ≤ 1
  | .execve p ok =>
    (∃ t, g.running? p = some t ∧ t.isThread = false) ∧
      (p = pid ∧ ok ∨ ∃ q ∈ g.threads, q.pid = pid ∧ q.isThread)
  | .threadExit p => p = pid ∧ ∃ t, g.running? p = some t ∧ t.isThread
  | _ => False

/-- No signal comes from a process that the end of the target would kill. -/
def Op.Apart : Op → Prop
  | .kill _ _ _ who => who = .apart
  | _ => True

theorem has_or (s s' : SigSet) (sig : Nat) : has (s ||| s') sig = (has s sig || has s' sig) :=
  BitVec.getLsbD_or

theorem has_sigBit_self (hlt : sig < nsigMax) : has (sigBit sig) sig := by
  have : sig - 1 < 64 := by
    unfold nsigMax at hlt
    omega
  simp [has, sigBit, this]

theorem has_drop {s : SigSet} {sig sig' : Nat} (h : has s sig) (hne : sig' ≠ sig) (h0 : sig ≠ 0)
    (h0' : sig' ≠ 0) : has (s &&& ~~~sigBit sig') sig := by
  have hlt : sig - 1 < 64 := by
    by_contra hge
    simp only [has, BitVec.getLsbD_of_ge _ _ (Nat.le_of_not_lt hge)] at h
    cases h
  have hbit : ¬ sig - 1 = sig' - 1 := by omega
  simp only [has] at h ⊢
  simp [sigBit, h, hlt, hbit]

theorem lowest_ne_zero {s : SigSet} (h : lowest s = some sig) : sig ≠ 0 := by
  simp only [lowest, Option.map_eq_some_iff] at h
  obtain ⟨b, -, rfl⟩ := h
  exact Nat.succ_ne_zero b

variable {f : Thread → Thread} {p : Nat} {t : Thread}

section

variable (h : Parked g pid sig)

include h

theorem Parked.map
    (hf : ∀ t, t.pid = pid → has t.pending sig → (f t).pid = pid ∧ has (f t).pending sig)
    (sa : Nat → Sa) (dead : Bool) : Parked ⟨sa, g.threads.map f, dead⟩ pid sig := by
  obtain ⟨t, ht, hpid, hp⟩ := h
  exact ⟨f t, List.mem_map_of_mem ht, hf t hpid hp⟩

theorem Parked.update (hf : ∀ t, t.pid = pid → p = pid → has t.pending sig →
      (f t).pid = pid ∧ has (f t).pending sig) : Parked (g.update p f) pid sig := by
  refine h.map (fun t ht hp => ?_) g.sa g.dead
  split
  next heq => exact hf t ht (heq.symm.trans ht) hp
  · exact ⟨ht, hp⟩

theorem Parked.park (p s : Nat) : Parked (g.update p (park s)) pid sig :=
  h.update fun t ht _ hp => ⟨ht, by simp only [Signals.park, has_or, hp, Bool.true_or]⟩

theorem Parked.drop (p : Nat) {s : Nat} (hs : s ≠ 0) (h0 : sig ≠ 0)
    (hne : p = pid → s ≠ sig) : Parked (g.update p (drop s)) pid sig :=
  h.update fun _ ht hp hpend => ⟨ht, has_drop hpend (hne hp) h0 hs⟩

omit h in
theorem parked_of_mem (h : t ∈ g.threads) (hlt : sig < nsigMax) :
    Parked (g.update t.pid (park sig)) t.pid sig := by
  refine ⟨park sig t, List.mem_map.2 ⟨t, h, if_pos rfl⟩, rfl, ?_⟩
  simp only [park, has_or, has_sigBit_self hlt, Bool.or_true]

omit h in
theorem mem_of_thread? (h : g.thread? pid = some t) : t ∈ g.threads :=
  List.mem_of_find?_eq_some h

omit h in
theorem mem_of_running? (h : g.running? pid = some t) :
    t ∈ g.threads ∧ t.pid = pid ∧ t.zleader = false := by
  have hp := List.find?_some h
  simp only [Bool.and_eq_true, decide_eq_true_eq, Bool.not_eq_true'] at hp
  exact ⟨List.mem_of_find?_eq_some h, hp⟩

omit h in
theorem pickThread_mem {l : Thread} (h : l ∈ g.threads) (sig : Nat) :
    pickThread g l sig ∈ g.threads := by
  simp only [pickThread]
  split
  next q hq => exact List.mem_of_find?_eq_some hq
  cases hany : g.threads.find? fun q => !q.zleader with
  | none => exact h
  | some q => exact List.mem_of_find?_eq_some hany

def stopAll (g : Group) : Group :=
  { g with threads := g.threads.map fun q => if q.zleader then q else park 19 q }

omit h in
theorem sendSig_cases {s : Nat} {exact : Bool} {g' : Group} (h : sendSig g p s exact .apart = .ok g') :
    g' = g ∧ (s = 0 ∨ Ignored g s) ∨ g' = { g with dead := true } ∨
      (∃ t ∈ g.threads, s ≠ 0 ∧ s < nsigMax ∧ g' = g.update t.pid (park s)) ∨
      s = 19 ∧ g' = stopAll g := by
  unfold sendSig at h
  split at h
  · cases h
  next l hl =>
  have hd : (if l.isThread || exact then l else pickThread g l s) ∈ g.threads := by
    split
    · exact mem_of_thread? hl
    · exact pickThread_mem (mem_of_thread? hl) s
  generalize (if l.isThread || exact then l else pickThread g l s) = d at h hd
  split at h
  next h0 => exact .inl ⟨(Except.ok.inj h).symm, .inl h0⟩
  next h0 =>
  split at h
  · cases h
  next hlt =>
  have hlt : s < nsigMax := Nat.lt_of_not_le hlt
  split at h
  · exact .inr (.inl (Except.ok.inj h).symm)
  simp only at h
  split at h
  · split at h
    next h19 =>
      simp only [Bool.and_eq_true, decide_eq_true_eq] at h19
      exact .inr (.inr (.inr ⟨h19.1, (Except.ok.inj h).symm⟩))
    · exact .inr (.inr (.inl ⟨d, hd, h0, hlt, (Except.ok.inj h).symm⟩))
  next hstop =>
  split at h
  next h1 => exact .inl ⟨(Except.ok.inj h).symm, .inr (.inl h1)⟩
  next h1 =>
  split at h
  · exact .inr (.inr (.inl ⟨d, hd, h0, hlt, (Except.ok.inj h).symm⟩))
  next hcaught =>
  split at h
  swap
  · exact .inr (.inl (Except.ok.inj h).symm)
  next hign =>
  -- neither caught nor `SIG_IGN`: the handler is `SIG_DFL`
  simp only [Bool.or_eq_true, decide_eq_true_eq, not_or] at hcaught
  have hdfl : (g.sa s).handler = 0 := by
    have hle := UInt64.not_lt.1 hcaught.1
    rw [UInt64.le_iff_toNat_le] at hle
    have hne : (g.sa s).handler.toNat ≠ 1 := fun h => h1 (UInt64.toNat_inj.1 h)
    apply UInt64.toNat_inj.1
    have h1 : (1 : UInt64).toNat = 1 := rfl
    have h0 : (0 : UInt64).toNat = 0 := rfl
    omega
  refine .inl ⟨(Except.ok.inj h).symm, .inr (.inr ⟨hdfl, hign, fun h19 => ?_⟩)⟩
  subst h19
  simp [hdfl] at hstop

theorem Parked.stopAll : Parked (stopAll g) pid sig := by
  refine h.map (fun t ht hp => ?_) g.sa g.dead
  split
  · exact ⟨ht, hp⟩
  · exact ⟨ht, by simp only [Signals.park, has_or, hp, Bool.true_or]⟩

theorem Parked.sendSig (p s : Nat) (exact : Bool) :
    (orSame g (sendSig g p s exact .apart)).dead ∨
      Parked (orSame g (sendSig g p s exact .apart)) pid sig := by
  cases hr : Signals.sendSig g p s exact .apart with
  | error e => exact .inr h
  | ok g' =>
    obtain ⟨rfl, -⟩ | rfl | ⟨t, -, -, -, rfl⟩ | ⟨-, rfl⟩ := sendSig_cases hr
    · exact .inr h
    · exact .inl rfl
    · exact .inr (h.park _ _)
    · exact .inr h.stopAll

omit h in
theorem sendSig_accepted {exact : Bool} {g' : Group}
    (hrun : ∃ q ∈ g.threads, q.zleader = false) (h : sendSig g p sig exact .apart = .ok g')
    (h0 : sig ≠ 0) (hign : ¬ Ignored g sig) : g'.dead ∨ ∃ q, Parked g' q sig := by
  obtain ⟨-, hzero | hignored⟩ | rfl | ⟨t, ht, -, hlt, rfl⟩ | ⟨rfl, rfl⟩ := sendSig_cases h
  · exact absurd hzero h0
  · exact absurd hignored hign
  · exact .inl rfl
  · exact .inr ⟨t.pid, parked_of_mem ht hlt⟩
  obtain ⟨q, hq, hz⟩ := hrun
  refine .inr ⟨q.pid, park 19 q, List.mem_map.2 ⟨q, hq, by simp [hz]⟩, rfl, ?_⟩
  simp only [park, has_or, has_sigBit_self (show (19 : Nat) < nsigMax by decide), Bool.or_true]

/-! ## Steps -/

theorem Parked.act (t : Thread) (s : Nat) (frameOk : Bool) :
    (act g t s frameOk).dead ∨ Parked (act g t s frameOk) pid sig := by
  simp only [Signals.act]
  split
  · exact .inr h
  split
  · split
    · exact .inr h
    · exact .inl rfl
  split
  · split
    · exact .inr (h.update fun _ ht _ hp => ⟨ht, hp⟩)
    · exact .inr (h.update fun _ ht _ hp => ⟨ht, hp⟩)
  · exact h.sendSig t.pid 11 false

section

variable (h0 : sig ≠ 0) (p : Nat)

include h0

theorem Parked.deliver (inject : Option Nat) (frameOk : Bool) :
    (deliver g p inject frameOk).dead ∨ Parked (deliver g p inject frameOk) pid sig ∨
      Delivers g (.deliver p inject frameOk) pid sig := by
  simp only [Signals.deliver]
  split
  · exact .inr (.inl h)
  next t ht =>
  split
  · exact .inr (.inl h)
  next s hs =>
  by_cases htake : p = pid ∧ s = sig
  · obtain ⟨rfl, rfl⟩ := htake
    exact .inr (.inr ⟨rfl, t, ht, hs⟩)
  have hdrop : Parked (g.update p (Signals.drop s)) pid sig :=
    h.drop p (lowest_ne_zero hs) h0 fun hp hsig => htake ⟨hp, hsig⟩
  split
  · split
    next s' => exact (hdrop.act t s' frameOk).imp_right .inl
    · exact .inr (.inl hdrop)
  · exact (hdrop.act t s frameOk).imp_right .inl

theorem Parked.take (set : SigSet) :
    Parked (take g p set) pid sig ∨ Delivers g (.take p set) pid sig := by
  simp only [Signals.take]
  split
  · exact .inl h
  next t ht =>
  split
  · exact .inl h
  next s hs =>
  by_cases htake : p = pid ∧ s = sig
  · obtain ⟨rfl, rfl⟩ := htake
    exact .inr ⟨rfl, t, ht, hs⟩
  · exact .inl (h.drop p (lowest_ne_zero hs) h0 fun hp hsig => htake ⟨hp, hsig⟩)

theorem Parked.sigaction (s : Nat) (sa : Sa) :
    Parked (orSame g (sigaction g p s sa)) pid sig ∨ Discards g (.sigaction p s sa) pid sig := by
  simp only [Signals.sigaction]
  split
  · exact .inl h
  next hs =>
  split
  · exact .inl h
  split
  next hdfl =>
    by_cases hdrop : p = pid ∧ s = sig
    · exact .inr ⟨hdrop.1, hdrop.2, hdfl⟩
    refine .inl (Parked.drop ?_ p (fun hz => hs (.inl hz)) h0 fun hp hsig => hdrop ⟨hp, hsig⟩)
    exact h
  · exact .inl h

end

theorem Parked.execve (p : Nat) (ok : Bool) :
    Parked (orSame g (execve g p ok)) pid sig ∨ Discards g (.execve p ok) pid sig := by
  simp only [Signals.execve]
  split
  · exact .inl h
  next t ht =>
  split
  · exact .inl h
  next hlead =>
  obtain ⟨q, hq, hpid, hpend⟩ := h
  have hlead : ∃ t, g.running? p = some t ∧ t.isThread = false := ⟨t, ht, by simpa using hlead⟩
  by_cases hth : q.isThread
  · exact .inr ⟨hlead, .inr ⟨q, hq, hpid, hth⟩⟩
  have hleft : Parked { g with threads := g.threads.filter fun q => !q.isThread } pid sig :=
    ⟨q, List.mem_filter.2 ⟨hq, by simpa using hth⟩, hpid, hpend⟩
  split
  next hok =>
    by_cases hp : p = pid
    · exact .inr ⟨hlead, .inl ⟨hp, hok⟩⟩
    refine .inl (Parked.update hleft fun _ _ heq => ?_)
    exact absurd heq hp
  · exact .inl hleft

theorem Parked.threadExit (p : Nat) : (threadExit g p).dead ∨ Parked (threadExit g p) pid sig ∨
      Discards g (.threadExit p) pid sig := by
  simp only [Signals.threadExit]
  split
  · exact .inr (.inl h)
  next t ht =>
  split
  · exact .inl rfl
  split
  next hth =>
    by_cases hp : p = pid
    · exact .inr (.inr ⟨hp, t, ht, hth⟩)
    obtain ⟨q, hq, hpid, hpend⟩ := h
    refine .inr (.inl ⟨q, List.mem_filter.2 ⟨hq, ?_⟩, hpid, hpend⟩)
    simpa [hpid] using fun h => hp h.symm
  · exact .inr (.inl (h.update fun _ ht _ hp => ⟨ht, hp⟩))

theorem Parked.clone (p new slot : Nat) (traced : Bool) :
    Parked (clone g p new slot traced) pid sig := by
  simp only [Signals.clone]
  split
  · exact h
  obtain ⟨q, hq, hpid, hpend⟩ := h
  refine ⟨q, ?_, hpid, hpend⟩
  rw [← List.take_append_drop slot g.threads, List.mem_append] at hq
  simp only [List.mem_append, List.mem_cons]
  exact hq.imp_right .inr

omit h in
theorem step_dead (h : g.dead) (op : Op) : step g op = g := by
  unfold step
  exact if_pos h

theorem step_parked (h0 : sig ≠ 0) {op : Op} (hop : op.Apart) :
    (step g op).dead ∨ Parked (step g op) pid sig ∨ Delivers g op pid sig ∨
      Discards g op pid sig := by
  by_cases hdead : g.dead
  · rw [step_dead hdead]
    exact .inl hdead
  unfold step
  rw [if_neg hdead]
  cases op with
  | kill p s exact who =>
    obtain rfl : who = .apart := hop
    exact (h.sendSig p s exact).imp_right .inl
  | deliver p inject frameOk =>
    exact (h.deliver h0 p inject frameOk).imp_right fun h => h.imp_right .inl
  | take p set => exact .inr ((h.take h0 p set).imp_right .inl)
  | setMask p mask | ptrace p traced => exact .inr (.inl (h.update fun _ ht _ hp => ⟨ht, hp⟩))
  | sigaction p s sa => exact .inr ((h.sigaction h0 p s sa).imp_right .inr)
  | execve p ok => exact .inr ((h.execve p ok).imp_right .inr)
  | threadExit p => exact (h.threadExit p).imp_right fun h => h.imp_right .inr
  | clone p new slot traced => exact .inr (.inl (h.clone p new slot traced))
  | post p s => exact .inr (.inl (h.park p s))
  | exitGroup => exact .inl rfl

end

/-! ## A process has a thread that runs -/

def Runs (g : Group) : Prop := g.dead ∨ ∃ q ∈ g.threads, q.zleader = false

section

variable (h : Runs g)

include h

theorem Runs.map (hf : ∀ t, (f t).zleader = t.zleader)
    (sa : Nat → Sa) : Runs ⟨sa, g.threads.map f, g.dead⟩ := by
  refine h.imp_right fun ⟨q, hq, hz⟩ => ⟨f q, List.mem_map_of_mem hq, ?_⟩
  rw [hf, hz]

theorem Runs.update (hf : ∀ t, (f t).zleader = t.zleader) (p : Nat) : Runs (g.update p f) := by
  refine h.map (fun t => ?_) g.sa
  split
  · exact hf t
  · rfl

section

variable (p s : Nat)

theorem Runs.sendSig (exact : Bool) : Runs (orSame g (sendSig g p s exact .apart)) := by
  cases hr : Signals.sendSig g p s exact .apart with
  | error e => exact h
  | ok g' =>
    obtain ⟨rfl, -⟩ | rfl | ⟨t, -, -, -, rfl⟩ | ⟨-, rfl⟩ := sendSig_cases hr
    · exact h
    · exact .inl rfl
    · exact h.update (fun _ => by rfl) t.pid
    refine h.map (fun t => ?_) g.sa
    split <;> rfl

theorem Runs.act (t : Thread) (s : Nat) (frameOk : Bool) : Runs (act g t s frameOk) := by
  simp only [Signals.act]
  split
  · exact h
  split
  · split
    · exact h
    · exact .inl rfl
  split
  · split
    · refine h.map (fun t => ?_) _
      split <;> rfl
    · exact h.update (fun _ => by rfl) t.pid
  · exact h.sendSig t.pid 11 false

theorem Runs.deliver (inject : Option Nat) (frameOk : Bool) :
    Runs (deliver g p inject frameOk) := by
  simp only [Signals.deliver]
  split
  · exact h
  next t _ =>
  split
  · exact h
  next s _ =>
  have hdrop : Runs (g.update p (drop s)) := h.update (fun _ => by rfl) p
  split
  · split
    next s' => exact hdrop.act t s' frameOk
    · exact hdrop
  · exact hdrop.act t s frameOk

theorem Runs.take (set : SigSet) : Runs (take g p set) := by
  simp only [Signals.take]
  split
  · exact h
  split
  · exact h
  · exact h.update (fun _ => by rfl) p

theorem Runs.sigaction (sa : Sa) : Runs (orSame g (sigaction g p s sa)) := by
  simp only [Signals.sigaction]
  split
  · exact h
  split
  · exact h
  split
  · refine h.map (fun t => ?_) _
    split <;> rfl
  · exact h

theorem Runs.execve (ok : Bool) : Runs (orSame g (execve g p ok)) := by
  simp only [Signals.execve]
  split
  · exact h
  next t ht =>
  split
  · exact h
  next hlead =>
  have hmem := mem_of_running? ht
  have hleft : Runs { g with threads := g.threads.filter fun q => !q.isThread } :=
    .inr ⟨t, List.mem_filter.2 ⟨hmem.1, by simpa using hlead⟩, hmem.2.2⟩
  split
  · refine hleft.map (fun t => ?_) _
    split <;> rfl
  · exact hleft

theorem Runs.threadExit : Runs (threadExit g p) := by
  simp only [Signals.threadExit]
  split
  · exact h
  split
  · exact .inl rfl
  next hothers =>
  obtain ⟨q, hq⟩ := List.exists_mem_of_ne_nil _ hothers
  obtain ⟨hq, hrun⟩ := List.mem_filter.1 hq
  simp only [Bool.and_eq_true, decide_eq_true_eq, Bool.not_eq_true'] at hrun
  split
  · exact .inr ⟨q, List.mem_filter.2 ⟨hq, by simpa using hrun.1⟩, hrun.2⟩
  · exact .inr ⟨q, List.mem_map.2 ⟨q, hq, if_neg hrun.1⟩, hrun.2⟩

theorem Runs.clone (new slot : Nat) (traced : Bool) : Runs (clone g p new slot traced) := by
  simp only [Signals.clone]
  split
  · exact h
  · exact .inr ⟨_, List.mem_append_right _ List.mem_cons_self, rfl⟩

end

theorem Runs.step {op : Op} (hop : op.Apart) : Runs (step g op) := by
  by_cases hdead : g.dead
  · rw [step_dead hdead]
    exact h
  unfold Signals.step
  rw [if_neg hdead]
  cases op with
  | kill p s exact who =>
    obtain rfl : who = .apart := hop
    exact h.sendSig p s exact
  | deliver p inject frameOk => exact h.deliver p inject frameOk
  | take p set => exact h.take p set
  | setMask p mask | ptrace p traced | post p s => exact h.update (fun _ => by rfl) p
  | sigaction p s sa => exact h.sigaction p s sa
  | execve p ok => exact h.execve p ok
  | threadExit p => exact h.threadExit p
  | clone p new slot traced => exact h.clone p new slot traced
  | exitGroup => exact .inl rfl

theorem Runs.run {ops : List Op} (hops : ∀ op ∈ ops, op.Apart) : Runs (run g ops) := by
  induction ops generalizing g with
  | nil => exact h
  | cons op ops ih =>
    rw [List.forall_mem_cons] at hops
    exact ih (h.step hops.1) hops.2

end

theorem run_dead (h : g.dead) (ops : List Op) : (run g ops).dead := by
  induction ops generalizing g with
  | nil => exact h
  | cons op ops ih =>
    refine ih ?_
    rw [step_dead h]
    exact h

def Leaves (g : Group) (ops : List Op) (pid sig : Nat) : Prop :=
  ∃ done op rest, ops = done ++ op :: rest ∧
    (Delivers (run g done) op pid sig ∨ Discards (run g done) op pid sig)

theorem Leaves.cons {op : Op} {ops : List Op} (h : Leaves (step g op) ops pid sig) :
    Leaves g (op :: ops) pid sig := by
  obtain ⟨done, op', rest, rfl, hleave⟩ := h
  exact ⟨op :: done, op', rest, rfl, hleave⟩

theorem run_parked (h : Parked g pid sig) (h0 : sig ≠ 0) {ops : List Op}
    (hops : ∀ op ∈ ops, op.Apart) :
    (run g ops).dead ∨ Parked (run g ops) pid sig ∨ Leaves g ops pid sig := by
  induction ops generalizing g with
  | nil => exact .inr (.inl h)
  | cons op ops ih =>
    rw [List.forall_mem_cons] at hops
    rcases step_parked h h0 hops.1 with hdead | hparked | hleave
    · exact .inl (run_dead hdead ops)
    · exact (ih hparked hops.2).imp_right fun h => h.imp_right Leaves.cons
    · exact .inr (.inr ⟨[], op, ops, rfl, hleave⟩)

def allDefault : Nat → Sa := fun _ => ⟨0, false, false, 0⟩

def blocking : Group := fresh allDefault 1 (sigBit 10)

def pendingSomewhere (g : Group) (sig : Nat) : Bool := g.threads.any fun t => has t.pending sig

end SamaraOS.Signals
