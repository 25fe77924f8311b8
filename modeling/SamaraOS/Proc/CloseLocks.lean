import SamaraOS.Proc.RecordLocks

/-!
# Descriptors and record locks

The ways in which a descriptor leaves the table of a process (`syscall.c`, `proc.c`, `uring.c`),
and what becomes of the POSIX locks that the process has on the file.  Every one of them says
which open files it took out of the table.
-/

namespace SamaraOS.CloseLocks

open SamaraOS.Flock List

def maxFds : Nat := 1024

structure World where
  fl : State
  /-- Descriptors that lead to an open file, in all tables. -/
  refs : Nat → Nat
  fds : Nat → Nat → Option File
  cloexec : Nat → Nat → Bool

namespace World

variable (w : World)

def fdSwap (sh fd : Nat) (nf : Option File) : World :=
  { w with fds := Function.update w.fds sh (Function.update (w.fds sh) fd nf) }

def setCloexec (sh fd : Nat) (on : Bool) : World :=
  { w with cloexec := Function.update w.cloexec sh (Function.update (w.cloexec sh) fd on) }

def fileRef (f : File) : World := { w with refs := Function.update w.refs f.id (w.refs f.id + 1) }

def fileClose (f : File) : World :=
  let w := { w with refs := Function.update w.refs f.id (w.refs f.id - 1) }
  if 0 < w.refs f.id then w
  else if f.isNode then { w with fl := flkRelease w.fl f }
  else w

/-- `flk_close` and `file_close`, in this order. -/
def closeLocked (env : Env) (sh : Nat) (f : File) : World :=
  ({ w with fl := flkClose env w.fl sh f } : World).fileClose f

end World

/-! ## The ways out of the table -/

section

variable (env : Env) (sh : Nat)

def close (w : World) (fd : Nat) : World × List File :=
  match w.fds sh fd with
  | none => (w, [])
  | some f => ((w.fdSwap sh fd none).closeLocked env sh f, [f])

/-- `sys_close`, for `close_range` and the ring. -/
def sysClose (w : World) (fd : Nat) : World × List File :=
  match w.fds sh fd with
  | none => (w, [])
  | some f => ((w.fdSwap sh fd none).fileClose f, [f])

/-- The loop of `close_range`; `mark` is `CLOSE_RANGE_CLOEXEC`. -/
def closeFds (mark : Bool) : List Nat → World → World × List File
  | [], w => (w, [])
  | fd :: fds, w =>
    if (w.fds sh fd).isNone then closeFds mark fds w
    else if mark then closeFds mark fds (w.setCloexec sh fd true)
    else
      let r := sysClose sh w fd
      let rest := closeFds mark fds r.1
      (rest.1, r.2 ++ rest.2)

def closeRange (w : World) (first last : Nat) (flags : BitVec 64) : World × List File :=
  if last < first ∨ flags &&& ~~~6 ≠ 0 then (w, [])
  else
    let last := if maxFds ≤ last then maxFds - 1 else last
    closeFds sh (flags &&& 4 ≠ 0) (range' first (last + 1 - first)) w

/-- `dup2` and `dup3`; `lim` is the limit of descriptors. -/
def dup2 (w : World) (fd nfd lim : Nat) (cloexec : Bool) : World × List File :=
  match w.fds sh fd with
  | none => (w, [])
  | some f =>
    if maxFds ≤ nfd ∨ lim ≤ nfd then (w, [])
    else if fd = nfd then (w, [])
    else
      let old := w.fds sh nfd
      let w := (w.fileRef f).fdSwap sh nfd (some f)
      let w := old.elim w (w.closeLocked env sh)
      (w.setCloexec sh nfd cloexec, old.toList)

def closeAll (dying : World → Nat → Bool) : List Nat → World → World × List File
  | [], w => (w, [])
  | fd :: fds, w =>
    match w.fds sh fd with
    | some f =>
      if dying w fd then
        let rest := closeAll dying fds ((w.closeLocked env sh f).fdSwap sh fd none)
        (rest.1, f :: rest.2)
      else closeAll dying fds w
    | none => closeAll dying fds w

def exec (w : World) : World × List File :=
  let r := closeAll env sh (fun w fd => w.cloexec sh fd) (range maxFds) w
  ({ r.1 with cloexec := Function.update r.1.cloexec sh fun _ => false }, r.2)

def exit (w : World) : World × List File :=
  let r := closeAll env sh (fun _ _ => true) (range maxFds) w
  ({ r.1 with fl := flkExit r.1.fl sh }, r.2)

end

inductive Op where
  | close (fd : Nat)
  | closeRange (first last : Nat) (flags : BitVec 64)
  /-- `IORING_OP_CLOSE`. -/
  | ringClose (fd : Nat)
  | dup2 (fd nfd lim : Nat) (cloexec : Bool)
  | exec
  | exit

def Op.run (env : Env) (sh : Nat) (w : World) : Op → World × List File
  | .close fd => CloseLocks.close env sh w fd
  | .closeRange first last flags => CloseLocks.closeRange sh w first last flags
  | .ringClose fd => sysClose sh w fd
  | .dup2 fd nfd lim cloexec => CloseLocks.dup2 env sh w fd nfd lim cloexec
  | .exec => CloseLocks.exec env sh w
  | .exit => CloseLocks.exit env sh w

def Unlocked (sh : Nat) (ls : List Lock) (f : File) : Prop :=
  f.isNode = true → ∀ l ∈ ls, l.toKey ≠ ⟨f.node, .posix, .table sh⟩

section

variable {env : Env} {sh : Nat} {w : World} {f g : File}

theorem not_lt_full (x : U64) : ¬ x < Span.full.s := BitVec.not_lt.2 (Span.mem_full x).1

theorem not_full_lt (x : U64) : ¬ Span.full.e < x := BitVec.not_lt.2 (Span.mem_full x).2

theorem cut_full_gone {mem : Bool} {k : Key} {ls : List Lock} {l : Lock}
    (h : l ∈ (cut mem k .full ls).1) : l.toKey ≠ k := by
  fun_induction cut mem k .full ls with
  | case1 => simp at h
  | case2 m ls hk ih =>
    rcases mem_cons.1 h with rfl | h
    · rcases hk with hk | hk | hk
      · exact hk
      · exact absurd hk (not_full_lt _)
      · exact absurd hk (not_lt_full _)
    · exact ih h
  | case3 m ls hk hs | case4 m ls hk hs | case5 m ls hk hs => exact absurd hs (not_lt_full _)
  | case6 m ls hk hs he => exact absurd he (not_full_lt _)
  | case7 m ls hk hs he ih => exact ih h

theorem flkClose_unlocked (st : State) : Unlocked sh (flkClose env st sh f).locks f := by
  intro hnode l hl
  rw [flkClose, if_pos hnode] at hl
  exact cut_full_gone hl

theorem Unlocked.flkClose {st : State} (h : Unlocked sh st.locks g) :
    Unlocked sh (flkClose env st sh f).locks g := by
  intro hnode l hl
  rw [Flock.flkClose] at hl
  split at hl
  · obtain ⟨m, hm, hpiece⟩ := cut_piece hl
    rw [hpiece.1]
    exact h hnode m hm
  · exact h hnode l hl

theorem fileClose_locks (w : World) (f : File) {l : Lock} {n : Nat}
    (hkey : l.toKey = ⟨n, .posix, .table sh⟩) : l ∈ (w.fileClose f).fl.locks ↔ l ∈ w.fl.locks := by
  have hown : l.own ≠ .file f.id := by
    rw [show l.own = l.toKey.own from rfl, hkey]
    exact nofun
  unfold World.fileClose
  simp only
  split
  · rfl
  split
  · simp [flkRelease, hown]
  · rfl

theorem unlocked_fileClose : Unlocked sh (w.fileClose f).fl.locks g ↔ Unlocked sh w.fl.locks g := by
  constructor
  · intro h hnode l hl hkey
    exact h hnode l ((fileClose_locks w f hkey).2 hl) hkey
  intro h hnode l hl hkey
  exact h hnode l ((fileClose_locks w f hkey).1 hl) hkey

theorem closeLocked_unlocked : Unlocked sh (w.closeLocked env sh f).fl.locks f := by
  rw [World.closeLocked, unlocked_fileClose]
  exact flkClose_unlocked _

theorem Unlocked.closeLocked (h : Unlocked sh w.fl.locks g) :
    Unlocked sh (w.closeLocked env sh f).fl.locks g := by
  rw [World.closeLocked, unlocked_fileClose]
  exact h.flkClose

/-! ## One operation -/

section

variable (fd : Nat) (dying : World → Nat → Bool) (fds : List Nat)

theorem close_unlocked : ∀ f ∈ (close env sh w fd).2,
    Unlocked sh (close env sh w fd).1.fl.locks f := by
  unfold close
  cases hf : w.fds sh fd with
  | none => exact nofun
  | some f =>
    intro g hg
    rw [mem_singleton.1 hg]
    exact closeLocked_unlocked

theorem dup2_unlocked (nfd lim : Nat) (cloexec : Bool) : ∀ f ∈ (dup2 env sh w fd nfd lim cloexec).2,
      Unlocked sh (dup2 env sh w fd nfd lim cloexec).1.fl.locks f := by
  unfold dup2
  cases hf : w.fds sh fd with
  | none => exact nofun
  | some f =>
    simp only
    split
    · exact nofun
    split
    · exact nofun
    cases hold : w.fds sh nfd with
    | none => exact nofun
    | some old =>
      intro g hg
      rw [mem_singleton.1 hg]
      exact closeLocked_unlocked

theorem Unlocked.closeAll : ∀ {w : World}, Unlocked sh w.fl.locks g →
      Unlocked sh (closeAll env sh dying fds w).1.fl.locks g := by
  induction fds with
  | nil => intro w h; exact h
  | cons fd fds ih =>
    intro w h
    rw [CloseLocks.closeAll]
    split
    · split
      · exact ih h.closeLocked
      · exact ih h
    · exact ih h

theorem closeAll_unlocked : ∀ (w : World), ∀ f ∈ (closeAll env sh dying fds w).2,
      Unlocked sh (closeAll env sh dying fds w).1.fl.locks f := by
  induction fds with
  | nil => intro w; exact nofun
  | cons fd fds ih =>
    intro w f hf
    rw [closeAll] at hf ⊢
    split at hf
    swap
    · exact ih _ f hf
    split at hf
    · rename_i hdying
      simp only [hdying, if_true]
      rcases mem_cons.1 hf with rfl | hf
      · apply Unlocked.closeAll
        exact closeLocked_unlocked
      · exact ih _ f hf
    rename_i hdying
    simp only [hdying]
    exact ih _ f hf

end

theorem exec_unlocked : ∀ f ∈ (exec env sh w).2, Unlocked sh (exec env sh w).1.fl.locks f := by
  unfold exec
  generalize range maxFds = fds
  exact closeAll_unlocked _ fds w

theorem exit_unlocked : ∀ f ∈ (exit env sh w).2, Unlocked sh (exit env sh w).1.fl.locks f := by
  unfold exit
  generalize range maxFds = fds
  exact closeAll_unlocked _ fds w

theorem unlocked_sysClose (w : World) (fd : Nat) :
    Unlocked sh (sysClose sh w fd).1.fl.locks g ↔ Unlocked sh w.fl.locks g := by
  unfold sysClose
  cases w.fds sh fd with
  | none => exact Iff.rfl
  | some f => exact unlocked_fileClose

theorem unlocked_closeFds (mark : Bool) (fds : List Nat) : ∀ w : World,
    Unlocked sh (closeFds sh mark fds w).1.fl.locks g ↔ Unlocked sh w.fl.locks g := by
  induction fds with
  | nil => intro w; exact Iff.rfl
  | cons fd fds ih =>
    intro w
    rw [closeFds]
    split
    · exact ih w
    split
    · exact ih _
    · exact (ih _).trans (unlocked_sysClose w fd)

theorem unlocked_closeRange (first last : Nat) (flags : BitVec 64) :
    Unlocked sh (closeRange sh w first last flags).1.fl.locks g ↔ Unlocked sh w.fl.locks g := by
  unfold closeRange
  split
  · exact Iff.rfl
  · exact unlocked_closeFds ..

theorem fds_sysClose (w : World) {fd fd' : Nat} (hne : fd' ≠ fd) :
    (sysClose sh w fd).1.fds sh fd' = w.fds sh fd' := by
  unfold sysClose
  cases w.fds sh fd with
  | none => rfl
  | some f =>
    simp only [World.fileClose]
    split
    · simp [World.fdSwap, hne]
    split <;> simp [World.fdSwap, hne]

theorem mem_sysClose (w : World) (fd : Nat) : f ∈ (sysClose sh w fd).2 ↔ w.fds sh fd = some f := by
  unfold sysClose
  cases w.fds sh fd with
  | none => simp
  | some g => simp [eq_comm]

theorem closeFds_mark (fds : List Nat) : ∀ w : World, (closeFds sh true fds w).2 = [] := by
  induction fds with
  | nil => exact fun _ => rfl
  | cons fd fds ih =>
    intro w
    rw [closeFds]
    split
    · exact ih w
    · exact ih _

theorem mem_closeFds (fds : List Nat) (hn : fds.Nodup) : ∀ w : World,
    f ∈ (closeFds sh false fds w).2 ↔ ∃ fd ∈ fds, w.fds sh fd = some f := by
  induction fds with
  | nil => simp [closeFds]
  | cons fd fds ih =>
    obtain ⟨hfd, hn⟩ := nodup_cons.1 hn
    intro w
    rw [closeFds]
    split
    next hnone =>
      rw [ih hn, exists_mem_cons_iff, Option.isNone_iff_eq_none.1 hnone]
      simp
    rw [if_neg Bool.false_ne_true]
    dsimp only
    rw [mem_append, mem_sysClose, ih hn, exists_mem_cons_iff]
    refine or_congr Iff.rfl (exists_congr fun fd' => and_congr_right fun hfd' => ?_)
    have hne : fd' ≠ fd := fun he => hfd (he ▸ hfd')
    rw [fds_sysClose w hne]

end

/-- The descriptors that the operation takes out without `flk_close`. -/
def Op.drops : Op → Nat → Prop
  | .closeRange first last flags, fd =>
    first ≤ fd ∧ fd ≤ last ∧ fd < maxFds ∧ flags &&& ~~~6 = 0 ∧ flags &&& 4 = 0
  | .ringClose fd', fd => fd = fd'
  | _, _ => False

theorem mem_closeRange {sh : Nat} {w : World} {first last : Nat} {flags : BitVec 64} {f : File} :
    f ∈ (closeRange sh w first last flags).2 ↔
      ∃ fd, (Op.closeRange first last flags).drops fd ∧ w.fds sh fd = some f := by
  unfold closeRange Op.drops
  split
  next hbad =>
    simp only [not_mem_nil, false_iff, not_exists, not_and]
    rintro fd ⟨hle, hle', -, hflags, -⟩
    rcases hbad with hlt | hne
    · omega
    · exact absurd hflags hne
  next hok =>
  rw [not_or, Nat.not_lt, not_not] at hok
  by_cases hmark : flags &&& 4 = 0
  · simp only [hmark, ne_eq, not_true_eq_false, decide_false]
    rw [mem_closeFds _ nodup_range']
    refine exists_congr fun fd => and_congr_left fun _ => ?_
    rw [mem_range'_1]
    have hflags := hok.2
    unfold maxFds
    split <;> simp only [hflags, and_true] <;> omega
  · simp only [hmark, ne_eq, not_false_eq_true, decide_true, closeFds_mark, not_mem_nil, and_false,
      false_and, exists_false]

/-- After any operation the process has no lock on a file whose descriptor it took out, exactly
if `close_range` and the ring find only descriptors of files without one. -/
theorem locks_end_iff (env : Env) (sh : Nat) (w : World) (op : Op) :
    (∀ f ∈ (op.run env sh w).2, Unlocked sh (op.run env sh w).1.fl.locks f) ↔
      ∀ fd f, op.drops fd → w.fds sh fd = some f → Unlocked sh w.fl.locks f := by
  cases op with
  | close fd => exact ⟨fun _ _ _ h => h.elim, fun _ => close_unlocked fd⟩
  | closeRange first last flags =>
    constructor
    · intro h fd f hfd hf
      exact (unlocked_closeRange first last flags).1 (h f (mem_closeRange.2 ⟨fd, hfd, hf⟩))
    intro h f hf
    obtain ⟨fd, hfd, hfile⟩ := mem_closeRange.1 hf
    exact (unlocked_closeRange first last flags).2 (h fd f hfd hfile)
  | ringClose fd =>
    constructor
    · rintro h _ f rfl hf
      exact (unlocked_sysClose w _).1 (h f ((mem_sysClose w _).2 hf))
    intro h f hf
    exact (unlocked_sysClose w fd).2 (h fd f rfl ((mem_sysClose w fd).1 hf))
  | dup2 fd nfd lim cloexec =>
    exact ⟨fun _ _ _ h => h.elim, fun _ => dup2_unlocked fd nfd lim cloexec⟩
  | exec => exact ⟨fun _ _ _ h => h.elim, fun _ => exec_unlocked⟩
  | exit => exact ⟨fun _ _ _ h => h.elim, fun _ => exit_unlocked⟩

def lockedWorld : World :=
  { fl := { boot with locks := [⟨⟨7, .posix, .table 0⟩, .write, 1, .full⟩] }
    refs := fun _ => 1
    fds := fun sh fd => if sh = 0 ∧ fd = 3 then some ⟨0, true, 7, 2, 0, 0⟩ else none
    cloexec := fun _ _ => false }

/-- `close_range` closes the descriptor, and the lock stays. -/
theorem closeRange_keeps_lock :
    let r := Op.run ⟨true, true, false, 1⟩ 0 lockedWorld (.closeRange 3 3 0)
    r.1.fds 0 3 = none ∧ r.2 = [⟨0, true, 7, 2, 0, 0⟩] ∧
      r.1.fl.locks = [⟨⟨7, .posix, .table 0⟩, .write, 1, .full⟩] := by
  refine ⟨?_, ?_, ?_⟩ <;> rfl

end SamaraOS.CloseLocks
