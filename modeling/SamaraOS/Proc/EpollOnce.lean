import SamaraOS.Proc.EpollScan

/-!
# One-shot entries

A reported one-shot entry keeps only the bit `EPOLLONESHOT` of its mask.  `POLLERR` and `POLLHUP`
are let through whatever the mask is, so it is off only for a file without them.
-/

namespace SamaraOS.Epoll

open SwapOut List

inductive Call
  | ctl (getf : Nat → Option Nat) (self : Nat) (c : Ctl)
  | wait (env : Env) (max : Nat)

def Interest.step (s : Interest) : Call → Interest × List Event
  | .ctl getf self c =>
    match s.ctl getf self c with
    | .ok s' => (s', [])
    | .error _ => (s, [])
  | .wait env max => s.wait env max

variable {k : Nat × Nat} {it es : List Epi} {env : Env} {max : Nat} {cs : List Call} {s : Interest}

def reports (k : Nat × Nat) : Interest → List Call → Nat
  | _, [] => 0
  | s, c :: cs => ((s.step c).2.map Event.key).count k + reports k (s.step c).1 cs

/-- No `EPOLL_CTL_ADD` or `EPOLL_CTL_MOD` of the entry succeeds. -/
def Between (k : Nat × Nat) : Interest → List Call → Prop
  | _, [] => True
  | s, c :: cs =>
    (match c with
      | .ctl getf self c =>
        ∀ s', s.ctl getf self c = .ok s' → c.fd = k.1 → getf c.fd = some k.2 → c.op = 2
      | .wait _ _ => True) ∧ Between k (s.step c).1 cs

/-- The file is neither hung up nor in error. -/
def Calm (k : Nat × Nat) : Call → Prop
  | .ctl _ _ _ => True
  | .wait env _ => env.revents k.2 0x18#16 &&& 0x18#16 = 0#16

def OneShot (k : Nat × Nat) (it : List Epi) : Prop :=
  ∀ e ∈ it, e.key = k → e.ev.getLsbD 30 = true

def Off (k : Nat × Nat) (it : List Epi) : Prop := ∀ e ∈ it, e.key = k → e.ev = 1#32 <<< 30

instance (k : Nat × Nat) (it : List Epi) : Decidable (Off k it) :=
  inferInstanceAs (Decidable (∀ e ∈ it, _))

/-- The reports that an entry is still good for. -/
def armed (k : Nat × Nat) (it : List Epi) : Nat := if Off k it then 0 else 1

structure Spent (k : Nat × Nat) (it : List Epi) (evs : List Event) (it' : List Epi) : Prop where
  shot : OneShot k it'
  le : (evs.map Event.key).count k + armed k it' ≤ armed k it

theorem Spent.trans {it' it'' : List Epi} {evs evs' : List Event} (h : Spent k it evs it')
    (h' : Spent k it' evs' it'') : Spent k it (evs ++ evs') it'' := by
  refine ⟨h'.shot, ?_⟩
  have hle := h.le
  have hle' := h'.le
  rw [map_append, count_append]
  omega

theorem Spent.of_mem {it' : List Epi} (hs : OneShot k it)
    (h : ∀ e ∈ it', e.key = k → e ∈ it) : Spent k it [] it' := by
  refine ⟨fun e he hk => hs e (h e he hk) hk, ?_⟩
  have hoff : Off k it → Off k it' := fun ho e he hk => ho e (h e he hk) hk
  unfold armed
  split_ifs with h' h0 <;> simp_all

theorem mem_foldl_switchOff {e : Epi} (ks : List (Nat × Nat))
    (h : e ∈ ks.foldl switchOff it) : e ∈ it ∧ e.key ∉ ks ∨ e.ev = 1#32 <<< 30 := by
  induction ks generalizing it with
  | nil => exact .inl ⟨h, not_mem_nil⟩
  | cons k ks ih =>
    rcases ih h with ⟨hmem, hks⟩ | hev
    · obtain ⟨e', he', rfl⟩ := mem_map.1 hmem
      split_ifs at hks ⊢ with hk
      · exact .inr rfl
      · exact .inl ⟨he', fun h => (mem_cons.1 h).elim hk hks⟩
    · exact .inr hev

theorem Look.mem_settle {l : Look} {e : Epi} (h : e ∈ l.settle it) :
    e ∈ it ∧ e.key ∉ l.one.map Epi.key ∨ e.ev = 1#32 <<< 30 :=
  (mem_foldl_switchOff _ h).imp_left fun h => ⟨mem_of_mem_dropAll Epi.key h.1, h.2⟩

theorem look_keys (env : Env) (room : Nat) (es : List Epi) :
    (look env room es).events.map Event.key =
      ((es.filter (Epi.ready env)).map Epi.key).take room := by
  rw [look_events, map_take, event_keys]

theorem look_one_mem (hs : OneShot k es) (room : Nat)
    (h : k ∈ (look env room es).events.map Event.key) : k ∈ (look env room es).one.map Epi.key := by
  induction es generalizing room with
  | nil => cases room <;> simp [look] at h
  | cons e es ih =>
    have ih := ih fun e he => hs e (mem_cons_of_mem _ he)
    cases room with
    | zero => simp [look] at h
    | succ room =>
      rw [look] at h ⊢
      split_ifs at h ⊢ with hc hb
      · exact ih _ h
      · exact ih _ h
      rw [map_append, mem_append]
      rcases mem_cons.1 h with heq | h
      · rw [Epi.once, if_pos (hs e mem_cons_self heq.symm)]
        exact .inl (mem_singleton.2 heq)
      · exact .inr (ih _ h)

theorem look_off (ho : Off k es)
    (hc : Calm k (.wait env max)) (room : Nat) :
    k ∉ (look env room es).events.map Event.key := by
  rw [look_keys]
  intro h
  obtain ⟨e, he, rfl⟩ := mem_map.1 (mem_of_mem_take h)
  obtain ⟨hmem, hready⟩ := mem_filter.1 he
  have hbits : e.bits env = 0#16 := by
    rw [Epi.bits, ho e hmem rfl]
    exact hc
  simp [Epi.ready, hbits] at hready

theorem look_spent (hn : (it.map Epi.key).Nodup)
    (hs : OneShot k it) (hc : Calm k (.wait env max)) (room : Nat) {sn : List Epi}
    (hsn : sn <+ it) : Spent k it (look env room sn).events ((look env room sn).settle it) := by
  refine ⟨fun e he hk => ?_, ?_⟩
  · rcases Look.mem_settle he with h | h
    · exact hs e h.1 hk
    rw [h]
    rfl
  have hone : ((look env room sn).events.map Event.key).count k ≤ 1 := by
    refine nodup_iff_count_le_one.1 (hn.sublist ?_) k
    rw [look_keys]
    exact (take_sublist _ _).trans ((filter_sublist.trans hsn).map _)
  have hoff : Off k it ∨ k ∈ (look env room sn).events.map Event.key →
      Off k ((look env room sn).settle it) := by
    intro h e he hk
    rcases Look.mem_settle he with hold | hev
    · rcases h with h | h
      · exact h e hold.1 hk
      · exact absurd (look_one_mem (fun e he => hs e (hsn.subset he)) room h) (hk ▸ hold.2)
    · exact hev
  by_cases ho : Off k it
  · have hnone := count_eq_zero.2 (look_off (fun e he => ho e (hsn.subset he)) hc room)
    rw [armed, armed, if_pos ho, if_pos (hoff (.inl ho))]
    omega
  rw [armed, armed, if_neg ho]
  by_cases hmem : k ∈ (look env room sn).events.map Event.key
  · rwa [if_pos (hoff (.inr hmem))]
  rw [count_eq_zero.2 hmem]
  split_ifs <;> omega

theorem scan_spent (hc : Calm k (.wait env max)) (fuel : Nat)
    (pos got : Nat) (hn : (it.map Epi.key).Nodup) (hs : OneShot k it) :
    Spent k it (scan env max fuel it pos got).2 (scan env max fuel it pos got).1 := by
  induction fuel generalizing it pos got with
  | zero => exact .of_mem hs fun _ he _ => he
  | succ fuel ih =>
    have hchunk := look_spent hn hs hc (max - got) ((take_sublist chunkSize _).trans
      (drop_sublist pos it))
    rw [scan]
    dsimp only
    split_ifs with hsn hstop
    · exact .of_mem hs fun _ he _ => he
    · exact hchunk
    · exact hchunk.trans (ih _ _ (Look.settle_nodup _ hn) hchunk.shot)

theorem step_spent {c : Call} (hs : OneShot k s.it)
    (hb : Between k s (c :: cs)) (hc : Calm k c) : Spent k s.it (s.step c).2 (s.step c).1.it := by
  cases c with
  | wait env max => exact scan_spent hc _ 0 0 s.nodup hs
  | ctl getf self c =>
    rw [Interest.step]
    split
    swap
    · exact .of_mem hs fun _ he _ => he
    next s' hctl =>
    refine .of_mem hs fun e he hk => ?_
    obtain ⟨x, hx, hcase⟩ := ctl_cases hctl
    have hother : c.op ≠ 2 → k ≠ (c.fd, x) := by
      rintro hop rfl
      exact hop (hb.1 s' hctl rfl hx)
    rcases hcase with ⟨-, hit⟩ | ⟨hop, hit⟩ | ⟨hop, hit⟩
    · rw [hit] at he
      exact mem_of_mem_drop Epi.key he
    · rw [hit] at he
      rcases mem_append.1 he with he | he
      · exact he
      rw [mem_singleton.1 he] at hk
      exact absurd hk.symm (hother (by omega))
    rw [hit] at he
    obtain ⟨e', he', rfl⟩ := mem_map.1 he
    split_ifs at hk ⊢ with hkey
    · exact absurd (hk.symm.trans hkey) (hother (by omega))
    · exact he'

theorem run_spent (hs : OneShot k s.it) (hb : Between k s cs)
    (hc : ∀ c ∈ cs, Calm k c) : reports k s cs ≤ armed k s.it := by
  induction cs generalizing s with
  | nil => exact Nat.zero_le _
  | cons c cs ih =>
    have hstep := step_spent hs hb (hc c mem_cons_self)
    have hrest := ih hstep.shot hb.2 fun c h => hc c (mem_cons_of_mem _ h)
    have hle := hstep.le
    rw [reports]
    omega

/-- Until it is added or modified again a one-shot entry yields at most one event, if its file is
neither hung up nor in error. -/
theorem oneshot_once {s : Interest} {cs : List Call} (hs : OneShot k s.it) (hb : Between k s cs)
    (hc : ∀ c ∈ cs, Calm k c) : reports k s cs ≤ 1 := by
  refine Nat.le_trans (run_spent hs hb hc) ?_
  unfold armed
  split_ifs <;> omega

def oneShot : Interest := ⟨[⟨3, 7, 1#32 <<< 30 ||| 1#32, 0#32, 0#32⟩], 32, by decide⟩

def waits (bits : BitVec 16) : List Call :=
  replicate 2 (.wait ⟨fun _ => some 7, fun _ want => bits &&& (want ||| 0x18#16)⟩ 8)

theorem oneshot_once_input : reports (3, 7) oneShot (waits 1#16) ≤ 1 := by
  refine oneshot_once ?_ ⟨trivial, trivial, trivial⟩ ?_
  · unfold OneShot oneShot
    decide
  intro c hc
  rw [eq_of_mem_replicate hc]
  rfl

/-- The read end of a pipe without writers. -/
theorem oneshot_twice : OneShot (3, 7) oneShot.it ∧ Between (3, 7) oneShot (waits 0x10#16) ∧
    reports (3, 7) oneShot (waits 0x10#16) = 2 := by
  refine ⟨?_, ⟨trivial, trivial, trivial⟩, by decide +kernel⟩
  unfold OneShot oneShot
  decide

end SamaraOS.Epoll
