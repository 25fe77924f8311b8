import SamaraOS.Lib.SwapOut

/-!
# Interest lists

`do_epoll_ctl` keeps an unordered array of (descriptor, file) entries.  `do_epoll_wait_f` walks
it in chunks of 32: it copies a chunk out, looks at the files without the lock, and then moves the
array's last entry into the place of one whose descriptor was closed or replaced.  It goes on
behind the entries it kept: where it left off only if the dropped ones ended their chunk.
-/

namespace SamaraOS.Epoll

open SwapOut List

structure Epi where
  fd : Nat
  f : Nat
  ev : BitVec 32
  d0 : BitVec 32
  d1 : BitVec 32
deriving DecidableEq

def Epi.key (e : Epi) : Nat × Nat := (e.fd, e.f)

/-- The descriptor table (`getf_ref`) and `fd_revents`, fixed during one scan. -/
structure Env where
  getf : Nat → Option Nat
  revents : Nat → BitVec 16 → BitVec 16

def current (getf : Nat → Option Nat) (k : Nat × Nat) : Bool := getf k.1 == some k.2

def gone (getf : Nat → Option Nat) (k : Nat × Nat) : Bool := !current getf k

/-- `POLLERR` and `POLLHUP` are asked for and let through whatever was requested. -/
def Epi.bits (env : Env) (e : Epi) : BitVec 16 :=
  env.revents e.f ((e.ev.setWidth 16 &&& 0xFF#16) ||| 0x18#16) &&& (e.ev.setWidth 16 ||| 0x18#16)

def Epi.once (e : Epi) : List Epi := if e.ev.getLsbD 30 then [e] else []

theorem Epi.once_subset (e : Epi) (es : List Epi) : e.once ⊆ e :: es := by
  unfold Epi.once
  split_ifs <;> simp

def Epi.ready (env : Env) (e : Epi) : Bool := current env.getf e.key && e.bits env != 0#16

/-- One record of the user's buffer; `key` remembers which entry it came from. -/
structure Event where
  key : Nat × Nat
  bits : BitVec 16
  d0 : BitVec 32
  d1 : BitVec 32
deriving DecidableEq

def Epi.event (env : Env) (e : Epi) : Event := ⟨e.key, e.bits env, e.d0, e.d1⟩

structure Look where
  events : List Event
  dead : List Epi
  one : List Epi

def look (env : Env) : Nat → List Epi → Look
  | 0, _ => ⟨[], [], []⟩
  | _ + 1, [] => ⟨[], [], []⟩
  | room + 1, e :: es =>
    if current env.getf e.key = false then
      let l := look env (room + 1) es
      { l with dead := e :: l.dead }
    else if e.bits env = 0#16 then look env (room + 1) es
    else
      let l := look env room es
      ⟨e.event env :: l.events, l.dead, e.once ++ l.one⟩

/-- A reported one-shot entry is off until `EPOLL_CTL_MOD`; the source stops at the first match,
and no key stands twice. -/
def switchOff (it : List Epi) (k : Nat × Nat) : List Epi :=
  it.map fun e => if e.key = k then { e with ev := 1#32 <<< 30 } else e

def Look.settle (l : Look) (it : List Epi) : List Epi :=
  (l.one.map Epi.key).foldl switchOff (dropAll Epi.key (l.dead.map Epi.key) it)

def chunkSize : Nat := 32

def scan (env : Env) (max : Nat) : Nat → List Epi → Nat → Nat → List Epi × List Event
  | 0, it, _, _ => (it, [])
  | fuel + 1, it, pos, got =>
    let sn := (it.drop pos).take chunkSize
    if sn = [] then (it, [])
    else
      let l := look env (max - got) sn
      let got' := got + l.events.length
      let pos' := pos + (sn.length - l.dead.length)
      if max ≤ got' ∨ it.length ≤ pos' then (l.settle it, l.events)
      else
        let r := scan env max fuel (l.settle it) pos' got'
        (r.1, l.events ++ r.2)

/-! ## The interest list -/

structure Interest where
  it : List Epi
  cap : Nat
  nodup : (it.map Epi.key).Nodup

inductive Errno
  | noent | badf | nomem | fault | exist | inval
deriving DecidableEq

section

variable (env : Env) (l : Look) (it : List Epi)

theorem switchOff_key (k : Nat × Nat) : (switchOff it k).map Epi.key = it.map Epi.key := by
  simp only [switchOff, map_map]
  refine map_congr_left fun e _ => ?_
  by_cases he : e.key = k
  · simp only [Function.comp_apply, if_pos he]
    rfl
  · simp [he]

theorem foldl_switchOff_key (ks : List (Nat × Nat)) (it : List Epi) :
    (ks.foldl switchOff it).map Epi.key = it.map Epi.key := by
  induction ks generalizing it with
  | nil => rfl
  | cons k ks ih => rw [foldl_cons, ih, switchOff_key]

theorem Look.settle_key :
    (l.settle it).map Epi.key = dropAll id (l.dead.map Epi.key) (it.map Epi.key) := by
  rw [Look.settle, foldl_switchOff_key, dropAll_map]

theorem Look.settle_nodup {it : List Epi} (h : (it.map Epi.key).Nodup) :
    ((l.settle it).map Epi.key).Nodup := by
  rw [Look.settle, foldl_switchOff_key]
  exact dropAll_nodup Epi.key h _

theorem Look.settle_subset : (l.settle it).map Epi.key ⊆ it.map Epi.key := by
  rw [Look.settle, foldl_switchOff_key]
  exact map_subset _ fun e he => mem_of_mem_dropAll Epi.key he

theorem scan_nodup (max fuel : Nat) {it : List Epi} (pos got : Nat) (h : (it.map Epi.key).Nodup) :
    ((scan env max fuel it pos got).1.map Epi.key).Nodup := by
  induction fuel generalizing it pos got with
  | zero => exact h
  | succ fuel ih =>
    rw [scan]
    dsimp only
    split_ifs with hsn hstop
    · exact h
    · exact Look.settle_nodup _ h
    · exact ih _ _ (Look.settle_nodup _ h)

theorem scan_subset (max fuel : Nat) (it : List Epi) (pos got : Nat) :
    (scan env max fuel it pos got).1.map Epi.key ⊆ it.map Epi.key := by
  induction fuel generalizing it pos got with
  | zero => exact List.Subset.refl _
  | succ fuel ih =>
    rw [scan]
    dsimp only
    split_ifs with hsn hstop
    · exact List.Subset.refl _
    · exact Look.settle_subset _ it
    · exact List.Subset.trans (ih _ _ _) (Look.settle_subset _ it)

end

/-- The part of `do_epoll_wait_f` that a call with timeout 0 runs. -/
def Interest.wait (s : Interest) (env : Env) (max : Nat) : Interest × List Event :=
  let r := scan env max (s.it.length + 1) s.it 0 0
  (⟨r.1, s.cap, scan_nodup env max _ 0 0 s.nodup⟩, r.2)

/-- The arguments of one `epoll_ctl` call, and what the kernel around it answers: `user` is
`uok` of the event, `memory` says whether `kmalloc` finds room for a larger array. -/
structure Ctl where
  op : Nat
  fd : Nat
  ev : BitVec 32
  d0 : BitVec 32
  d1 : BitVec 32
  user : Bool
  memory : Bool

def Ctl.set (c : Ctl) (e : Epi) : Epi := { e with ev := c.ev, d0 := c.d0, d1 := c.d1 }

def Ctl.entry (c : Ctl) (x : Nat) : Epi := ⟨c.fd, x, c.ev, c.d0, c.d1⟩

theorem add_nodup {s : Interest} {c : Ctl} {x : Nat} (h : (c.fd, x) ∉ s.it.map Epi.key) :
    ((s.it ++ [c.entry x]).map Epi.key).Nodup := by
  rw [map_append, nodup_append]
  refine ⟨s.nodup, by simp, ?_⟩
  rintro a ha b hb rfl
  have hk : a = (c.fd, x) := by simpa [Ctl.entry, Epi.key] using hb
  exact h (hk ▸ ha)

theorem mod_key (c : Ctl) (k : Nat × Nat) (it : List Epi) :
    (it.map fun e => if e.key = k then c.set e else e).map Epi.key = it.map Epi.key := by
  rw [map_map]
  refine map_congr_left fun e _ => ?_
  by_cases he : e.key = k
  · simp only [Function.comp_apply, if_pos he]
    rfl
  · simp [he]

def Interest.ctl (s : Interest) (getf : Nat → Option Nat) (self : Nat) (c : Ctl) :
    Except Errno Interest :=
  match getf c.fd with
  | none => .error .badf
  | some x =>
    if x = self then .error .inval
    else if c.op ≠ 2 ∧ c.user = false then .error .fault
    else if c.op = 2 then
      if (c.fd, x) ∈ s.it.map Epi.key then
        .ok ⟨drop Epi.key s.it (c.fd, x), s.cap, drop_nodup Epi.key s.nodup _⟩
      else .error .noent
    else if c.op = 1 then
      if h : (c.fd, x) ∈ s.it.map Epi.key then .error .exist
      else if s.it.length = s.cap then
        if c.memory then .ok ⟨s.it ++ [c.entry x], s.cap * 2, add_nodup h⟩
        else .error .nomem
      else .ok ⟨s.it ++ [c.entry x], s.cap, add_nodup h⟩
    else if c.op = 3 then
      if (c.fd, x) ∈ s.it.map Epi.key then
        .ok ⟨s.it.map fun e => if e.key = (c.fd, x) then c.set e else e, s.cap,
          (mod_key c (c.fd, x) s.it).symm ▸ s.nodup⟩
      else .error .noent
    else .error .inval

section Look

variable (env : Env)

theorem look_events (room : Nat) (es : List Epi) :
    (look env room es).events = ((es.filter (Epi.ready env)).map (Epi.event env)).take room := by
  induction es generalizing room with
  | nil => cases room <;> rfl
  | cons e es ih =>
    cases room with
    | zero => simp [look]
    | succ room =>
      rw [look]
      split_ifs with hc hb
      · simp [Epi.ready, hc, ih]
      · simp [Epi.ready, hb, ih]
      have hc' : current env.getf e.key = true := by simpa using hc
      simp [Epi.ready, hc', hb, ih]

theorem look_dead {room : Nat} {es : List Epi} (h : (es.filter (Epi.ready env)).length < room) :
    (look env room es).dead = es.filter (fun e => gone env.getf e.key) := by
  induction es generalizing room with
  | nil => cases room <;> rfl
  | cons e es ih =>
    cases room with
    | zero => omega
    | succ room =>
      rw [look]
      split_ifs with hc hb
      · have hr : (es.filter (Epi.ready env)).length < room + 1 := by
          simpa [Epi.ready, hc] using h
        simp [gone, hc, ih hr]
      · have hr : (es.filter (Epi.ready env)).length < room + 1 := by
          simpa [Epi.ready, hb] using h
        simp [gone, hc, ih hr]
      have hc' : current env.getf e.key = true := by simpa using hc
      have hr : (es.filter (Epi.ready env)).length < room := by
        simpa [Epi.ready, hc', hb] using h
      simp [gone, hc', ih hr]

theorem look_one_subset (room : Nat) (es : List Epi) :
    (look env room es).one ⊆ es.filter (fun e => current env.getf e.key) := by
  induction es generalizing room with
  | nil => cases room <;> simp [look]
  | cons e es ih =>
    cases room with
    | zero => simp [look]
    | succ room =>
      rw [look]
      split_ifs with hc hb
      · simpa [hc] using ih (room + 1)
      · have hc' : current env.getf e.key = true := by simpa using hc
        rw [filter_cons_of_pos (by simpa using hc')]
        exact subset_cons_of_subset e (ih (room + 1))
      have hc' : current env.getf e.key = true := by simpa using hc
      rw [filter_cons_of_pos (by simpa using hc')]
      exact append_subset.2
        ⟨Epi.once_subset e _, subset_cons_of_subset e (ih room)⟩

end Look

theorem look_registered (env : Env) (room : Nat) (es : List Epi) :
    ∀ v ∈ (look env room es).events, v.key ∈ es.map Epi.key := by
  intro v hv
  rw [look_events] at hv
  obtain ⟨e, he, rfl⟩ := mem_map.1 (mem_of_mem_take hv)
  exact mem_map_of_mem (mem_filter.1 he).1

theorem scan_registered (env : Env) (max fuel : Nat) (it : List Epi) (pos got : Nat) :
    ∀ v ∈ (scan env max fuel it pos got).2, v.key ∈ it.map Epi.key := by
  induction fuel generalizing it pos got with
  | zero => simp [scan]
  | succ fuel ih =>
    have hchunk : ((it.drop pos).take chunkSize).map Epi.key ⊆ it.map Epi.key :=
      map_subset _ fun e he => mem_of_mem_drop (mem_of_mem_take he)
    rw [scan]
    dsimp only
    split_ifs with hsn hstop
    · simp
    · exact fun v hv => hchunk (look_registered env _ _ v hv)
    intro v hv
    rcases mem_append.1 hv with hv | hv
    · exact hchunk (look_registered env _ _ v hv)
    · exact Look.settle_subset _ it (ih _ _ _ v hv)

theorem ctl_cases {s s' : Interest} {getf : Nat → Option Nat} {self : Nat} {c : Ctl}
    (h : s.ctl getf self c = .ok s') :
    ∃ x, getf c.fd = some x ∧ (c.op = 2 ∧ s'.it = drop Epi.key s.it (c.fd, x) ∨
      c.op = 1 ∧ s'.it = s.it ++ [c.entry x] ∨
      c.op = 3 ∧ s'.it = s.it.map fun e => if e.key = (c.fd, x) then c.set e else e) := by
  unfold Interest.ctl at h
  cases hx : getf c.fd with
  | none => simp [hx] at h
  | some x =>
    simp only [hx] at h
    refine ⟨x, rfl, ?_⟩
    split_ifs at h with h1 h2 h3 h4 h5 h6 h7 h8 h9 h10
    · exact .inl ⟨h3, by rw [← Except.ok.inj h]⟩
    · exact .inr (.inl ⟨h5, by rw [← Except.ok.inj h]⟩)
    · exact .inr (.inl ⟨h5, by rw [← Except.ok.inj h]⟩)
    · exact .inr (.inr ⟨h9, by rw [← Except.ok.inj h]⟩)

/-- `t` comes after `s` in a history without an `EPOLL_CTL_ADD` of the pair `k`; the descriptor
table and the files may change between the calls. -/
inductive Later (k : Nat × Nat) : Interest → Interest → Prop
  | refl (s : Interest) : Later k s s
  | ctl {s t u : Interest} {getf : Nat → Option Nat} {self : Nat} {c : Ctl} : Later k s t →
      t.ctl getf self c = .ok u → ¬(c.op = 1 ∧ c.fd = k.1 ∧ getf c.fd = some k.2) → Later k s u
  | wait {s t : Interest} (env : Env) (max : Nat) : Later k s t → Later k s (t.wait env max).1

theorem Later.notMem {k : Nat × Nat} {s t : Interest} (h : Later k s t)
    (hk : k ∉ s.it.map Epi.key) : k ∉ t.it.map Epi.key := by
  induction h with
  | refl => exact hk
  | ctl _ hctl hadd ih =>
    intro hmem
    obtain ⟨x, hx, ⟨_, hit⟩ | ⟨hop, hit⟩ | ⟨_, hit⟩⟩ := ctl_cases hctl
    · rw [hit] at hmem
      obtain ⟨e, he, rfl⟩ := mem_map.1 hmem
      exact ih (mem_map_of_mem (mem_of_mem_drop Epi.key he))
    · rw [hit, map_append, mem_append] at hmem
      refine hmem.elim ih fun hnew => hadd ⟨hop, ?_⟩
      have hkey : k = (_, x) := mem_singleton.1 hnew
      rw [hkey]
      exact ⟨rfl, hx⟩
    rw [hit, mod_key] at hmem
    exact ih hmem
  | wait env max _ ih => exact fun hmem => ih (scan_subset env max _ _ 0 0 hmem)

theorem not_reported_after_del {s s' t : Interest} {getf : Nat → Option Nat} {self x : Nat}
    {c : Ctl} (hx : getf c.fd = some x) (hop : c.op = 2) (h : s.ctl getf self c = .ok s')
    (hlater : Later (c.fd, x) s' t) (env : Env) (max : Nat) :
    ∀ v ∈ (t.wait env max).2, v.key ≠ (c.fd, x) := by
  have hdel : (c.fd, x) ∉ s'.it.map Epi.key := by
    obtain ⟨y, hy, ⟨_, hit⟩ | ⟨hop', _⟩ | ⟨hop', _⟩⟩ := ctl_cases h
    · obtain rfl : x = y := Option.some.inj (hx.symm.trans hy)
      rw [hit]
      exact key_notMem_drop Epi.key s.nodup _
    · omega
    · omega
  intro v hv hkey
  exact hlater.notMem hdel (hkey ▸ scan_registered env max _ _ 0 0 v hv)

end SamaraOS.Epoll
