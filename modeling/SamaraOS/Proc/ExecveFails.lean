import SamaraOS.Proc.Execve

/-!
# A failed `execve`

The loader works in a space of its own and gives it back when it fails.  The other threads of
the caller are killed before the first thing that can fail.
-/

namespace SamaraOS.Execve

open Function List

variable (env : Env)

/-! ## What the loader touches -/

def SameSpaces (k k' : Kernel) : Prop := k'.spaces = k.spaces

def OnlyAt (pd : Nat) (k k' : Kernel) : Prop := ∀ i, i ≠ pd → k'.spaces i = k.spaces i

instance : Std.Refl SameSpaces := ⟨fun _ => rfl⟩

instance : IsTrans Kernel SameSpaces := ⟨fun _ _ _ h h' => Eq.trans h' h⟩

instance (pd : Nat) : Std.Refl (OnlyAt pd) := ⟨fun _ _ _ => rfl⟩

instance (pd : Nat) : IsTrans Kernel (OnlyAt pd) :=
  ⟨fun _ _ _ h h' i hi => (h' i hi).trans (h i hi)⟩

theorem SameSpaces.onlyAt {k k' : Kernel} (h : SameSpaces k k') (pd : Nat) : OnlyAt pd k k' :=
  fun i _ => congrFun h i

theorem alloc_same : Keeps SameSpaces alloc := by
  constructor
  intro k
  unfold alloc
  split <;> rfl

section

variable {pd : Nat}

section

variable (n : Node) (a : Args)

theorem alloc_only : Keeps (OnlyAt pd) alloc := ⟨fun k => (alloc_same.run k).onlyAt pd⟩

theorem mapAt_only (a len : UInt64) : Keeps (OnlyAt pd) (mapAt pd a len) := by
  constructor
  intro k i hi
  exact update_of_ne hi ..

theorem addRegion_only (a len : UInt64) : Keeps (OnlyAt pd) (addRegion pd a len) :=
  Keeps.bind alloc_only fun _ => mapAt_only a len

theorem segCopy_only (x y : UInt64) : Keeps (OnlyAt pd) (segCopy pd x y) :=
  Keeps.ite (.pure ()) (addRegion_only ..)

theorem loadSeg_only (p : Phdr) (va : UInt64) : Keeps (OnlyAt pd) (loadSeg pd p va) := by
  constructor
  intro k
  refine (Keeps.bind (segCopy_only _ _) fun _ => ?_).run k
  exact Keeps.bind (segCopy_only _ _) fun _ => segCopy_only _ _

theorem loadSegs_only (size bias lim : UInt64) (ps : List Phdr) : ∀ top,
    Keeps (OnlyAt pd) (loadSegs pd size bias lim ps top) := by
  induction ps with
  | nil => exact .pure
  | cons p ps ih =>
    intro top
    refine .ite (ih top) (.ite (.throw _) ?_)
    exact .bind (loadSeg_only ..) fun _ => ih _

theorem loadElf_only (bias : UInt64) : Keeps (OnlyAt pd) (loadElf pd n bias) := by
  exact .bind (loadSegs_only ..) fun _ => .pure _

theorem loadAbove_only (span : UInt64) : Keeps (OnlyAt pd) (loadAbove env pd n span) := by
  constructor
  intro k
  unfold loadAbove
  cases env.findFree k pd span with
  | none => exact Std.Refl.refl k
  | some b => exact (Keeps.bind (loadElf_only n b) fun _ => Keeps.pure _).run k

theorem loadInterp_only (path : Bytes) : Keeps (OnlyAt pd) (loadInterp env pd path) := by
  unfold loadInterp
  cases env.resolveRoot path with
  | none => exact .throw _
  | some n =>
    refine .ite (.throw _) (.ite (.throw _) ?_)
    exact loadAbove_only env n _

theorem startOf_only (img : Image) : Keeps (OnlyAt pd) (startOf env pd n img) := by
  unfold startOf
  cases elfInterp n with
  | none => exact .pure _
  | some ip => exact loadInterp_only env ip

theorem buildStack_only : Keeps (OnlyAt pd) (buildStack pd a) := by
  refine .ite (.throw _) ?_
  exact .bind (addRegion_only ..) fun _ =>
    Keeps.bind alloc_only fun _ => alloc_only

theorem fillSpace_only : Keeps (OnlyAt pd) (fillSpace env pd n a) := by
  refine .bind (loadElf_only n pieBase) fun img => ?_
  refine .bind (startOf_only env n img) fun _ => ?_
  exact .bind (buildStack_only a) fun _ => .pure _

end

end

theorem kargsBuild_same (pre argv : List Bytes) (skip : Nat) (envp : List Bytes) :
    Keeps SameSpaces (kargsBuild pre argv skip envp) := by
  unfold kargsBuild
  simp only
  cases addUp (pre.map strBytes).sum _ with
  | none => exact .throw _
  | some n =>
    exact .bind alloc_same fun _ => .pure _

theorem findProgram_same (depth : Nat) : ∀ (cur : Bytes) (a : Args),
    Keeps SameSpaces (findProgram env depth cur a) := by
  induction depth with
  | zero =>
    intro cur a
    unfold findProgram
    cases env.resolve cur with
    | none => exact .throw _
    | some n =>
      refine .ite (.throw _) (.ite (.throw _) (.ite (.throw _) (.ite ?_ (.pure _))))
      exact .throw _
  | succ depth ih =>
    intro cur a
    unfold findProgram
    cases env.resolve cur with
    | none => exact .throw _
    | some n =>
      refine .ite (.throw _) (.ite (.throw _) (.ite (.throw _) (.ite ?_ (.pure _))))
      refine .ite (.throw _) ?_
      exact .bind (kargsBuild_same ..) fun b => ih _ b

def Undoes {α : Type} (x : K α) : Prop := ∀ k e k', x k = .error e k' → SameSpaces k k'

theorem Undoes.of_keeps {α : Type} {x : K α} (h : Keeps SameSpaces x) : Undoes x := by
  intro k e k' hx
  have hk := h.run k
  rw [hx] at hk
  exact hk

theorem Undoes.bind {α β : Type} {x : K α} {f : α → K β} (hx : Keeps SameSpaces x)
    (hf : ∀ a, Undoes (f a)) : Undoes (x >>= f) := by
  intro k e k' h
  have hk := hx.run k
  change EStateM.bind x f k = _ at h
  unfold EStateM.bind at h
  cases hxk : x k with
  | ok a t =>
    rw [hxk] at h hk
    exact IsTrans.trans _ _ _ hk (hf a t e k' h)
  | error e' t =>
    rw [hxk] at h hk
    cases h
    exact hk

theorem newSpace_undoes (n : Node) (a : Args) :
    Undoes (newSpace >>= fun pd => inNewSpace env n a pd) := by
  have hbind : (newSpace >>= fun pd => inNewSpace env n a pd) =
      (alloc >>= fun _ => (takePd >>= fun pd => inNewSpace env n a pd)) := by
    rw [newSpace, bind_assoc]
  rw [hbind]
  refine .bind alloc_same fun _ => ?_
  intro k e k' h
  change EStateM.bind takePd _ k = _ at h
  unfold EStateM.bind takePd at h
  by_cases hused : (k.spaces k.nextPd).isSome = true
  · rw [if_pos hused] at h
    cases h
    exact Std.Refl.refl k
  rw [if_neg hused] at h
  have hnone : k.spaces k.nextPd = none := Option.not_isSome_iff_eq_none.1 hused
  simp only [inNewSpace] at h
  generalize hk₁ : ({ k with
    spaces := update k.spaces k.nextPd (some ⟨[], fun _ => 0⟩)
    nextPd := k.nextPd + 1 } : Kernel) = k₁ at h
  have honly : OnlyAt k.nextPd k₁ _ := (fillSpace_only env n a).run k₁
  cases hfill : fillSpace env k.nextPd n a k₁ with
  | ok r t =>
    rw [hfill] at h
    cases h
  | error e' t =>
    rw [hfill] at h honly
    cases h
    funext i
    by_cases hi : i = k.nextPd
    · rw [hi, hnone]
      exact update_self ..
    have hstep : k₁.spaces i = k.spaces i := by
      rw [← hk₁]
      exact update_of_ne hi ..
    exact (update_of_ne hi ..).trans ((honly i hi).trans hstep)

theorem loadProgram_undoes (path : Bytes) (a : Args) : Undoes (loadProgram env path a) := by
  refine .bind (findProgram_same ..) fun na => ?_
  split
  · exact newSpace_undoes env na.1 na.2
  · exact .of_keeps (.throw _)

theorem prepare_undoes (path : Bytes) (p : Proc) (argv envp : List Bytes) :
    Undoes (prepare env path p argv envp) := by
  refine .bind (kargsBuild_same ..) fun a => ?_
  intro k e k' h
  apply loadProgram_undoes env _ a k e k'
  change EStateM.bind _ _ k = _ at h
  unfold EStateM.bind at h
  split at h
  · cases h
  rename_i hx
  cases h
  exact hx

/-! ## The other threads -/

section Threads

variable {gone all : List Fallen} {t : Thread} {ts : List Thread}

theorem untrace_of_none (h : ∀ f ∈ gone, t.tracer ≠ some f.pid) : t.untrace gone = t := by
  rw [Thread.untrace, if_neg]
  simpa using h

theorem untrace_tracer {q : Nat} (h : (t.untrace gone).tracer = some q) :
    t.tracer = some q ∧ ∀ f ∈ gone, f.pid ≠ q := by
  unfold Thread.untrace at h
  split at h
  · cases h
  next hnone =>
  refine ⟨h, fun f hf heq => hnone ?_⟩
  rw [any_eq_true]
  exact ⟨f, hf, by simp [h, heq]⟩

theorem untrace_zombie (gone : List Fallen) (t : Thread) : (t.untrace gone).zombie = t.zombie := by
  unfold Thread.untrace
  split <;> rfl

theorem length_killFrom_le (gone : List Fallen) (ts : List Thread) :
    (killFrom gone ts).length ≤ ts.length := by
  induction ts generalizing gone with
  | nil => exact le_rfl
  | cons t ts ih =>
    rw [killFrom, length_append, length_cons]
    have hone : (t.untrace (gone ++ t.falls)).killed.toList.length ≤ 1 := by
      cases (t.untrace (gone ++ t.falls)).killed <;> simp
    have := ih (gone ++ t.falls)
    omega

/-- The thread is dead, and its tracer, which has yet to wait for it, stays. -/
def Thread.Kept (all : List Fallen) (t : Thread) : Prop :=
  t.zombie = true ∧ ∃ q, t.tracer = some q ∧ ∀ f ∈ all, f.pid ≠ q

theorem Thread.Kept.untrace (h : t.Kept all) (hsub : gone ⊆ all) : t.untrace gone = t := by
  obtain ⟨-, q, hq, hne⟩ := h
  refine untrace_of_none fun f hf heq => hne f (hsub hf) ?_
  rw [hq, Option.some.injEq] at heq
  exact heq.symm

theorem killFrom_of_kept (hgone : gone ⊆ all) (hfalls : ∀ t ∈ ts, t.falls ⊆ all)
    (h : ∀ t ∈ ts, t.Kept all) : killFrom gone ts = ts := by
  induction ts generalizing gone with
  | nil => rfl
  | cons t ts ih =>
    have hsub : gone ++ t.falls ⊆ all := append_subset.2 ⟨hgone, hfalls t mem_cons_self⟩
    have ht := h t mem_cons_self
    obtain ⟨hz, q, hq, -⟩ := id ht
    rw [killFrom, ht.untrace hsub, Thread.killed, hq, Option.isSome_some, if_pos rfl,
      ih hsub (fun t ht => hfalls t (mem_cons_of_mem _ ht)) fun t ht => h t (mem_cons_of_mem _ ht)]
    cases t
    cases hz
    cases hq
    rfl

theorem kept_of_killFrom (h : (killFrom gone ts).map (Thread.untrace all) = ts) :
    ∀ t ∈ ts, t.Kept all := by
  induction ts generalizing gone with
  | nil => simp
  | cons t ts ih =>
    rw [killFrom, map_append] at h
    cases hk : (t.untrace (gone ++ t.falls)).killed with
    | none =>
      -- the slot is free, so the list is too short
      rw [hk] at h
      have hlen := length_killFrom_le (gone ++ t.falls) ts
      have hlen' := congrArg length h
      simp only [Option.toList_none, map_nil, nil_append, length_map, length_cons] at hlen'
      omega
    | some t' =>
      rw [hk, Option.toList_some, map_singleton, singleton_append, List.cons.injEq] at h
      obtain ⟨hhead, hrest⟩ := h
      unfold Thread.killed at hk
      split at hk
      swap
      · cases hk
      next hsome =>
      cases hk
      obtain ⟨q, hq⟩ := Option.isSome_iff_exists.1 hsome
      have hzombie := untrace_zombie all { t.untrace (gone ++ t.falls) with zombie := true }
      rw [hhead] at hzombie
      have htracer := (untrace_tracer hq).1
      rw [← hhead] at htracer
      have hkept := (untrace_tracer htracer).2
      rw [hhead] at htracer
      exact forall_mem_cons.2 ⟨⟨hzombie, q, htracer, hkept⟩, ih hrest⟩

end Threads

theorem zeroWord_zero (ws : List UInt64) : ∀ {b : UInt64 → UInt8} {x : UInt64}, b x = 0 →
    ws.foldl zeroWord b x = 0 := by
  induction ws with
  | nil => intro b x h; exact h
  | cons a ws ih =>
    intro b x h
    apply ih
    unfold zeroWord
    split
    · rfl
    · exact h

def Zeroed (b : UInt64 → UInt8) (a : UInt64) : Prop := ∀ x, x - a < 4 → b x = 0

theorem zeroWord_of_zeroed {a : UInt64} {b : UInt64 → UInt8} (h : Zeroed b a) :
    zeroWord b a = b := by
  funext x
  unfold zeroWord
  split
  next hx => exact (h x hx).symm
  · rfl

theorem zeroWords_eq_iff (ws : List UInt64) (b : UInt64 → UInt8) :
    ws.foldl zeroWord b = b ↔ ∀ a ∈ ws, Zeroed b a := by
  constructor
  · intro h a ha x hx
    obtain ⟨before, after, rfl⟩ := append_of_mem ha
    rw [foldl_append, foldl_cons] at h
    rw [← h]
    exact zeroWord_zero _ (if_pos hx)
  intro h
  induction ws with
  | nil => rfl
  | cons a ws ih =>
    rw [foldl_cons, zeroWord_of_zeroed (h a mem_cons_self)]
    exact ih fun a' ha' => h a' (mem_cons_of_mem _ ha')

/-- The other threads are dead ones that a tracer has yet to wait for, and the end of nobody who ends
with them is felt. -/
structure Alone (k : Kernel) (p : Proc) : Prop where
  kept : ∀ t ∈ p.threads, t.Kept p.falls
  zeroed : ∀ sp, k.spaces p.pd = some sp → ∀ a ∈ p.words, Zeroed sp.bytes a
  owner : p.vforkShared = true → ∀ f ∈ p.falls, f.lends = false
  /-- `SIGCHLD` is pending already. -/
  heard : (∃ f ∈ p.falls, f.child = true) → p.hears = true → p.pending ||| sigchld = p.pending

theorem killThreads_spaces_iff (k : Kernel) (p : Proc) : (killThreads k p).1.spaces = k.spaces ↔
      ∀ sp, k.spaces p.pd = some sp → ∀ a ∈ p.words, Zeroed sp.bytes a := by
  unfold killThreads
  rw [update_eq_self_iff]
  cases hsp : k.spaces p.pd with
  | none => simp
  | some sp =>
    rw [Option.map_some, Option.some.injEq]
    have hbytes : ({ sp with bytes := p.words.foldl zeroWord sp.bytes } = sp) ↔
        p.words.foldl zeroWord sp.bytes = sp.bytes := by
      constructor
      · intro h
        exact congrArg Space.bytes h
      intro h
      rw [h]
    rw [hbytes, zeroWords_eq_iff]
    simp

theorem falls_subset {p : Proc} : ∀ t ∈ p.threads, t.falls ⊆ p.falls :=
  fun t ht _ hf => mem_flatMap.2 ⟨t, ht, hf⟩

theorem killThreads_threads_iff (p : Proc) :
    (killFrom [] p.threads).map (Thread.untrace p.falls) = p.threads ↔
      ∀ t ∈ p.threads, t.Kept p.falls := by
  refine ⟨kept_of_killFrom, fun h => ?_⟩
  rw [killFrom_of_kept (nil_subset _) falls_subset h]
  exact (map_congr_left fun t ht => (h t ht).untrace (Subset.refl _)).trans (map_id _)

theorem killThreads_proc_iff (k : Kernel) (p : Proc) : (killThreads k p).2 = p ↔
    (∀ t ∈ p.threads, t.Kept p.falls) ∧ (p.vforkShared = true → ∀ f ∈ p.falls, f.lends = false) ∧
      ((∃ f ∈ p.falls, f.child = true) → p.hears = true → p.pending ||| sigchld = p.pending) := by
  have hshared : (p.vforkShared && !p.falls.any Fallen.lends) = p.vforkShared ↔
      (p.vforkShared = true → ∀ f ∈ p.falls, f.lends = false) := by
    cases p.vforkShared <;> simp
  have hpending : (if p.falls.any Fallen.child && p.hears then p.pending ||| sigchld
      else p.pending) = p.pending ↔
      ((∃ f ∈ p.falls, f.child = true) → p.hears = true → p.pending ||| sigchld = p.pending) := by
    rw [← any_eq_true, ite_eq_right_iff, Bool.and_eq_true, and_imp]
  rw [← killThreads_threads_iff, ← hshared, ← hpending]
  constructor
  · intro h
    exact ⟨congrArg Proc.threads h, congrArg Proc.vforkShared h, congrArg Proc.pending h⟩
  rintro ⟨hthreads, hsh, hpend⟩
  change { p with threads := _, vforkShared := _, pending := _ } = p
  have hhears : Proc.hears { p with threads := killFrom [] p.threads } = p.hears := rfl
  rw [hthreads, hsh, hhears, hpend]

def withThread (t : Thread) (chld : UInt64) : Proc :=
  { isThread := false
    threads := [t]
    pd := 0
    vforkShared := false
    brkStart := 0
    brk := 0
    tlsBase := 0
    gsBase := 0
    name := []
    exe := []
    cmdline := []
    sa := fun _ => ⟨chld, 0, 0⟩
    pending := 0
    mask := 0
    ssSp := 0
    ssSize := 0
    fds := fun _ => none
    cloexec := fun _ => false }

def noFiles : Env := ⟨fun _ => none, fun _ => none, fun _ => [], fun _ _ _ => none⟩

def oneSpace : Kernel := ⟨fun i => if i = 0 then some ⟨[], fun _ => 0⟩ else none, 1, []⟩

/-- A dead thread that was the init of a pid namespace with a child of the caller in it. -/
def deadInit : Thread := ⟨true, some 7, some 16, [{ pid := 8, child := true }]⟩

end SamaraOS.Execve
