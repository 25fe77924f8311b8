import SamaraOS.Proc.Bpf

/-!
# Secure computing mode

`sc_check`, `sc_seccomp` and `sc_prctl` of `proc/seccomp.c` over the table of
processes.  The filters of a process form a list, the newest first; the reference
counts with which processes share them are left out.
-/

namespace SamaraOS.Seccomp

open List

def retKillProc : U32 := 0x80000000
def retTrap : U32 := 0x00030000
def retErrno : U32 := 0x00050000
def retTrace : U32 := 0x7ff00000
def retLog : U32 := 0x7ffc0000
def retAllow : U32 := 0x7fff0000

structure Regs where
  rax : U64
  rip : U64
  rdi : U64
  rsi : U64
  rdx : U64
  r10 : U64
  r8 : U64
  r9 : U64

inductive Verdict where
  | run
  | answer (rax : U64)
  | trap (nr : U32) (ip : U64) (data : U32)
  | die
  deriving DecidableEq

/-- What `sc_check` returns, which is also how severe it is. -/
def Verdict.code : Verdict → Nat
  | .run => 0
  | .answer _ => 1
  | .trap .. => 2
  | .die => 3

def leBytes (n : Nat) (v : U64) : List U8 :=
  (range n).map fun b => (v >>> (8 * b)).truncate 8

/-- `struct seccomp_data`: number, architecture, address, arguments. -/
def callData (r : Regs) : Nat → U8 :=
  let bytes := leBytes 4 r.rax ++ leBytes 4 0xC000003E ++ leBytes 8 r.rip ++
    [r.rdi, r.rsi, r.rdx, r.r10, r.r8, r.r9].flatMap (leBytes 8)
  fun i => bytes.getD i 0

def action (v : U32) : U32 := v &&& 0xffff0000

def stricter (best v : U32) : U32 := if (action v).slt (action best) then v else best

def chainValue (chain : List Program) (d : Nat → U8) : U32 :=
  chain.foldl (fun best f => stricter best (run f d)) retAllow

def verdict (r : Regs) (best : U32) : Verdict :=
  let act := action best
  let data := best &&& 0xffff
  if act = retAllow ∨ act = retLog then .run
  else if act = retErrno then .answer (-(if 4095 < data.toNat then 4095 else data.zeroExtend 64))
  else if act = retTrap then .trap (r.rax.truncate 32) r.rip data
  else if act = retKill ∨ act = retKillProc then .die
  else .answer (-38)

inductive ScMode where
  | off | strict | filter
  deriving DecidableEq

structure Proc where
  alive : Bool := false
  tgid : Nat := 0
  nnp : Bool := false
  scMode : ScMode := .off
  sf : List Program := []

def strictRuns (nr : U64) : Bool := nr == 0 || nr == 1 || nr == 60 || nr == 231 || nr == 15

def scCheck (p : Proc) (r : Regs) : Verdict :=
  if p.scMode = .strict then if strictRuns r.rax then .run else .die
  else verdict r (chainValue p.sf (callData r))

inductive Errno where
  | efault | enomem | einval
  deriving DecidableEq

structure UserArg where
  ok : Bool
  len : U16
  progOk : Bool
  insn : Nat → Insn
  memOk : Bool
  word : U32

def load (u : UserArg) : Except Errno Program :=
  if !u.ok then .error .efault
  else if u.len = 0 ∨ 4096 < u.len.toNat then .error .einval
  else if !u.progOk then .error .efault
  else if !u.memOk then .error .enomem
  else
    let f := (range u.len.toNat).map u.insn
    if valid f then .ok f else .error .einval

abbrev Pid := Nat
abbrev Table := Pid → Proc

def Table.set (t : Table) (p : Pid) (x : Proc) : Table := fun q => if q = p then x else t q

def setStrict (p : Proc) : Proc := { p with scMode := .strict }

def install (p : Proc) (f : Program) : Proc := { p with scMode := .filter, sf := f :: p.sf }

/-- `SECCOMP_FILTER_FLAG_TSYNC`: every other thread runs the caller's chain. -/
def tsync (t : Table) (p : Pid) : Table := fun q =>
  if q ≠ p ∧ (t q).alive ∧ (t q).tgid = (t p).tgid then
    { t q with sf := (t p).sf, scMode := .filter, nnp := true }
  else t q

def actionAvail (a : U32) : Bool :=
  a ∈ [retKillProc, retKill, retTrap, retErrno, retTrace, retLog, retAllow]

def scSeccomp (t : Table) (p : Pid) (op fl : U64) (u : UserArg) : Table × Except Errno Nat :=
  if op = 0 then
    if fl ≠ 0 then (t, .error .einval) else (t.set p (setStrict (t p)), .ok 0)
  else if op = 2 then
    if !u.ok then (t, .error .efault)
    else (t, if actionAvail u.word then .ok 0 else .error .einval)
  else if op ≠ 1 then (t, .error .einval)
  else if fl &&& ~~~0x1f ≠ 0 then (t, .error .einval)
  else if fl &&& 8 ≠ 0 then (t, .error .einval)
  else if (t p).scMode = .strict then (t, .error .einval)
  else match load u with
    | .error e => (t, .error e)
    | .ok f =>
      let t := t.set p (install (t p) f)
      (if fl &&& 1 ≠ 0 then tsync t p else t, .ok 0)

def ScMode.num : ScMode → Nat
  | .off => 0
  | .strict => 1
  | .filter => 2

def setNnp (p : Proc) : Proc := { p with nnp := true }

def scPrctl (t : Table) (p : Pid) (op a : U64) (u : UserArg) : Table × Except Errno Nat :=
  if op = 38 then (t.set p (setNnp (t p)), .ok 0)
  else if op = 39 then (t, .ok (t p).nnp.toNat)
  else if op = 21 then (t, .ok (t p).scMode.num)
  else if op = 22 then
    if a = 1 then scSeccomp t p 0 0 u
    else if a = 2 then scSeccomp t p 1 0 u
    else (t, .error .einval)
  else (t, .ok 0)

inductive Event where
  | seccomp (p : Pid) (op fl : U64) (u : UserArg)
  | prctl (p : Pid) (op a : U64) (u : UserArg)
  | clone (parent child : Pid) (tgid : Nat)
  | exit (p : Pid)

def step (t : Table) : Event → Table
  | .seccomp p op fl u => (scSeccomp t p op fl u).1
  | .prctl p op a u => (scPrctl t p op a u).1
  | .clone parent child tgid => t.set child { t parent with alive := true, tgid := tgid }
  | .exit p => t.set p { t p with alive := false, sf := [] }

def play (t : Table) (l : List Event) : Table := l.foldl step t

/-- A slot of the table is taken for a new process only when nobody lives in it. -/
def enabled (t : Table) : Event → Prop
  | .seccomp p .. | .prctl p .. | .exit p => (t p).alive = true
  | .clone parent child _ => (t parent).alive = true ∧ (t child).alive = false

def boot : Table := fun p => if p = 0 then { alive := true } else {}

def actionNum (v : U32) : Nat := v.toNat / 65536

theorem action_eq (v : U32) : action v = (v >>> 16) <<< 16 := by
  unfold action
  ext i hi
  simp
  interval_cases i <;> simp

theorem action_toNat (v : U32) : (action v).toNat = actionNum v * 65536 := by
  rw [action_eq]
  simp [actionNum, Nat.shiftLeft_eq, Nat.shiftRight_eq_div_pow]
  omega

def rank (v : U32) : Int :=
  if actionNum v < 0x8000 then actionNum v else (actionNum v : Int) - 0x10000

theorem actionNum_lt (v : U32) : actionNum v < 0x10000 := by
  unfold actionNum
  omega

theorem action_slt (v w : U32) : (action v).slt (action w) = decide (rank v < rank w) := by
  rw [BitVec.slt_eq_decide, BitVec.toInt_eq_toNat_cond, BitVec.toInt_eq_toNat_cond,
    action_toNat, action_toNat]
  unfold rank
  split <;> split <;> split <;> split <;> simp only [decide_eq_decide] <;> omega

theorem rank_le_allow (v : U32) : rank v ≤ rank retAllow := by
  have hv := actionNum_lt v
  have hallow : rank retAllow = 0x7fff := by decide
  rw [hallow]
  unfold rank
  split <;> omega

def severity (v : U32) : Nat :=
  if actionNum v = 0x7fff ∨ actionNum v = 0x7ffc then 0
  else if actionNum v = 5 then 1
  else if actionNum v = 3 then 2
  else if actionNum v = 0 ∨ actionNum v = 0x8000 then 3
  else 1

theorem action_eq_iff (v w : U32) : action v = action w ↔ actionNum v = actionNum w := by
  constructor
  · intro h
    have hnat := congrArg BitVec.toNat h
    rw [action_toNat, action_toNat] at hnat
    omega
  intro h
  apply BitVec.eq_of_toNat_eq
  rw [action_toNat, action_toNat, h]

theorem verdict_code (r : Regs) (v : U32) : (verdict r v).code = severity v := by
  have hnum : ∀ w, action w = w → (action v = w ↔ actionNum v = actionNum w) := by
    intro w hw
    rw [← action_eq_iff, hw]
  have hallow := hnum retAllow (by decide)
  have hlog := hnum retLog (by decide)
  have herrno := hnum retErrno (by decide)
  have htrap := hnum retTrap (by decide)
  have hkill := hnum retKill (by decide)
  have hproc := hnum retKillProc (by decide)
  unfold verdict severity
  simp only [hallow, hlog, herrno, htrap, hkill, hproc]
  rw [show actionNum retAllow = 0x7fff by decide, show actionNum retLog = 0x7ffc by decide,
    show actionNum retErrno = 5 by decide, show actionNum retTrap = 3 by decide,
    show actionNum retKill = 0 by decide, show actionNum retKillProc = 0x8000 by decide]
  split
  · rfl
  split
  · rfl
  split
  · rfl
  split <;> rfl

/-- Values that `sc_check` answers with an error, but compares as worse than `trap` or, two of
them, as better than `log`. -/
def misplaced (v : U32) : Bool :=
  0x8000 < actionNum v || actionNum v == 1 || actionNum v == 2 || actionNum v == 0x7ffd ||
    actionNum v == 0x7ffe

theorem severity_anti {v w : U32} (hv : misplaced v = false) (hw : misplaced w = false)
    (h : rank v ≤ rank w) : severity w ≤ severity v := by
  simp only [misplaced, Bool.or_eq_false_iff, decide_eq_false_iff_not, beq_eq_false_iff_ne] at hv hw
  unfold rank at h
  unfold severity
  split_ifs at h ⊢ <;> omega

theorem rank_stricter (best v : U32) : rank (stricter best v) = min (rank best) (rank v) ∧
      (stricter best v = best ∨ stricter best v = v) := by
  unfold stricter
  rw [action_slt]
  by_cases h : rank v < rank best
  · rw [if_pos (by simpa using h)]
    exact ⟨by omega, .inr rfl⟩
  rw [if_neg (by simpa using h)]
  exact ⟨by omega, .inl rfl⟩

variable {d : Nat → U8} {p p' : Proc} {q : Pid} {t : Table} {l : List Event} {u : UserArg}

theorem foldl_stricter (chain : List Program) (best : U32) :
    rank (chain.foldl (fun best f => stricter best (run f d)) best) ≤ rank best ∧
      (∀ f ∈ chain, rank (chain.foldl (fun best f => stricter best (run f d)) best) ≤
        rank (run f d)) ∧
      (chain.foldl (fun best f => stricter best (run f d)) best = best ∨
        ∃ f ∈ chain, chain.foldl (fun best f => stricter best (run f d)) best = run f d) := by
  induction chain generalizing best with
  | nil => simp
  | cons first rest ih =>
    obtain ⟨hbest, hall, hsome⟩ := ih (stricter best (run first d))
    obtain ⟨hrank, hpick⟩ := rank_stricter best (run first d)
    rw [foldl_cons]
    refine ⟨by omega, ?_, ?_⟩
    · rintro f hf
      rcases mem_cons.1 hf with rfl | hf
      · omega
      · exact hall f hf
    rcases hsome with hsome | ⟨f, hf, hsome⟩
    · rcases hpick with hpick | hpick
      · exact .inl (hsome.trans hpick)
      · exact .inr ⟨first, by simp, hsome.trans hpick⟩
    · exact .inr ⟨f, by simp [hf], hsome⟩

def WellPlaced (chain : List Program) (d : Nat → U8) : Prop :=
  ∀ f ∈ chain, misplaced (run f d) = false

theorem chainValue_placed {chain : List Program} (h : WellPlaced chain d) :
    misplaced (chainValue chain d) = false := by
  obtain ⟨-, -, hsome⟩ := foldl_stricter (d := d) chain retAllow
  unfold chainValue
  rcases hsome with hsome | ⟨f, hf, hsome⟩
  · rw [hsome]
    decide
  rw [hsome]
  exact h f hf

theorem severity_subset {chain sub : List Program} (h : WellPlaced chain d)
    (hsub : sub ⊆ chain) : severity (chainValue sub d) ≤ severity (chainValue chain d) := by
  obtain ⟨-, hall, -⟩ := foldl_stricter (d := d) chain retAllow
  obtain ⟨-, -, hsome⟩ := foldl_stricter (d := d) sub retAllow
  have hplaced : WellPlaced sub d := fun f hf => h f (hsub hf)
  apply severity_anti (chainValue_placed h) (chainValue_placed hplaced)
  rcases hsome with hsome | ⟨f, hf, hsome⟩
  · rw [show chainValue sub d = retAllow from hsome]
    exact rank_le_allow _
  rw [show chainValue sub d = run f d from hsome]
  exact hall f (hsub hf)

def documented : List U32 := [retKillProc, retKill, retTrap, retErrno, retTrace, retLog, retAllow]

theorem documented_placed : ∀ w ∈ documented, misplaced w = false := by
  intro w hw
  simp only [documented, mem_cons, not_mem_nil, or_false] at hw
  rcases hw with rfl | rfl | rfl | rfl | rfl | rfl | rfl <;> decide

theorem placed_iff (v : U32) : misplaced v = false ↔
    ∀ w ∈ documented, severity v ≤ severity (stricter w v) ∧
      severity w ≤ severity (stricter w v) := by
  constructor
  · intro hv w hw
    have hplaced : misplaced w = false := documented_placed w hw
    obtain ⟨hrank, hpick⟩ := rank_stricter w v
    have hbest : misplaced (stricter w v) = false := by
      rcases hpick with hpick | hpick <;> rw [hpick] <;> assumption
    exact ⟨severity_anti hbest hv (by omega), severity_anti hbest hplaced (by omega)⟩
  intro h
  by_contra hbad
  have htrap := (h retTrap (by decide)).2
  have hlog := (h retLog (by decide)).1
  have hlt := actionNum_lt v
  rw [show severity retTrap = 2 by decide] at htrap
  simp only [misplaced, Bool.not_eq_false, Bool.or_eq_true, decide_eq_true_eq, beq_iff_eq] at hbad
  unfold stricter at htrap hlog
  rw [action_slt, show rank retTrap = 3 by decide] at htrap
  rw [action_slt, show rank retLog = 0x7ffc by decide] at hlog
  simp only [decide_eq_true_eq] at htrap hlog
  have hlogs : severity retLog = 0 := by decide
  unfold rank at htrap hlog
  by_cases hhigh : actionNum v = 0x7ffd ∨ actionNum v = 0x7ffe
  · rw [if_neg (by split <;> omega), hlogs] at hlog
    unfold severity at hlog
    split_ifs at hlog <;> omega
  unfold severity at htrap
  split_ifs at htrap <;> omega

/-! ## A step takes nothing back -/

def blocks (p : Proc) (r : Regs) : Prop := (scCheck p r).code ≠ 0

def installs (t : Table) (p : Pid) (op fl : U64) (u : UserArg) : Option Program :=
  if op = 1 ∧ fl &&& ~~~0x1f = 0 ∧ fl &&& 8 = 0 ∧ (t p).scMode ≠ .strict then (load u).toOption
  else none

/-- Nothing is taken back: strict mode is not entered from filter mode, a new filter returns only
well placed actions, and the threads whose chain is replaced are not in strict mode and have no
filter the caller lacks. -/
structure LawfulCall (t : Table) (p : Pid) (op fl : U64) (u : UserArg) : Prop where
  strict : op = 0 → fl = 0 → (t p).scMode ≠ .filter
  placed : ∀ f, installs t p op fl u = some f → ∀ d, misplaced (run f d) = false
  siblings : installs t p op fl u ≠ none → fl &&& 1 ≠ 0 → ∀ q, q ≠ p → (t q).alive = true →
    (t q).tgid = (t p).tgid → (t q).scMode ≠ .strict ∧ (t q).sf ⊆ (t p).sf

def Lawful (t : Table) : Event → Prop
  | .seccomp p op fl u => LawfulCall t p op fl u
  | .prctl p op a u =>
    (op = 22 → a = 1 → LawfulCall t p 0 0 u) ∧ (op = 22 → a = 2 → LawfulCall t p 1 0 u)
  | .clone .. | .exit _ => True

theorem scSeccomp_cases (t : Table) (p : Pid) (op fl : U64) (u : UserArg) :
    (scSeccomp t p op fl u).1 = t ∨
      op = 0 ∧ fl = 0 ∧ (scSeccomp t p op fl u).1 = t.set p (setStrict (t p)) ∨
      ∃ f, installs t p op fl u = some f ∧ (t p).scMode ≠ .strict ∧ (scSeccomp t p op fl u).1 =
          if fl &&& 1 ≠ 0 then tsync (t.set p (install (t p) f)) p
          else t.set p (install (t p) f) := by
  unfold scSeccomp
  split
  · next hop =>
      split
      · exact .inl rfl
      · next hfl => exact .inr (.inl ⟨hop, not_not.1 hfl, rfl⟩)
  split
  · split <;> exact .inl rfl
  split
  · exact .inl rfl
  split
  · exact .inl rfl
  split
  · exact .inl rfl
  split
  · exact .inl rfl
  next hop hfl hnew hmode =>
  rw [not_not] at hop hfl hnew
  cases hload : load u with
  | error e => exact .inl rfl
  | ok f =>
    refine .inr (.inr ⟨f, ?_, hmode, rfl⟩)
    unfold installs
    rw [if_pos ⟨hop, hfl, hnew, hmode⟩, hload]
    rfl

/-- Filters return well placed actions, and a process without a mode has none. -/
structure Sound (p : Proc) : Prop where
  placed : ∀ f ∈ p.sf, ∀ d, misplaced (run f d) = false
  off : p.scMode = .off → p.sf = []

def Tighter (p p' : Proc) : Prop := ∀ r, blocks p r → blocks p' r

theorem blocks_filter (h : p.scMode ≠ .strict) (r : Regs) :
    blocks p r ↔ severity (chainValue p.sf (callData r)) ≠ 0 := by
  unfold blocks scCheck
  rw [if_neg h, verdict_code]

theorem Tighter.of_subset (h : p.scMode ≠ .strict) (h' : p'.scMode ≠ .strict)
    (hsound : Sound p') (hsub : p.sf ⊆ p'.sf) : Tighter p p' := by
  intro r hr
  rw [blocks_filter h] at hr
  rw [blocks_filter h']
  have hplaced : WellPlaced p'.sf (callData r) := fun f hf => hsound.placed f hf _
  have hle := severity_subset hplaced hsub
  omega

theorem Tighter.of_eq (hmode : p'.scMode = p.scMode) (hsf : p'.sf = p.sf) : Tighter p p' := by
  intro r hr
  unfold blocks scCheck at hr ⊢
  rwa [hmode, hsf]

theorem Tighter.setStrict (hsound : Sound p) (h : p.scMode ≠ .filter) :
    Tighter p (setStrict p) := by
  intro r hr
  cases hmode : p.scMode with
  | filter => exact absurd hmode h
  | strict =>
    have hsame : Tighter p (Seccomp.setStrict p) := Tighter.of_eq hmode.symm rfl
    exact hsame r hr
  | off =>
    rw [blocks_filter (by simp [hmode]), hsound.off hmode] at hr
    exact absurd (show severity retAllow = 0 by decide) hr

theorem Sound.install {f : Program} (h : Sound p)
    (hf : ∀ d, misplaced (run f d) = false) : Sound (install p f) := by
  refine ⟨fun g hg d => ?_, fun hoff => by cases hoff⟩
  rcases mem_cons.1 hg with rfl | hg
  · exact hf d
  · exact h.placed g hg d

structure Kept (p p' : Proc) : Prop where
  sound : Sound p'
  tighter : Tighter p p'
  alive : p'.alive = p.alive

theorem Kept.refl (h : Sound p) : Kept p p := ⟨h, fun _ hr => hr, rfl⟩

theorem Table.set_self (t : Table) (p : Pid) (x : Proc) : t.set p x p = x := if_pos rfl

theorem Table.set_ne (t : Table) {p : Pid} (x : Proc) (h : q ≠ p) : t.set p x q = t q :=
  if_neg h

section

variable (hs : ∀ q, Sound (t q))

include hs

theorem Kept.set {p : Pid} {x : Proc} (hx : Kept (t p) x) (q : Pid) : Kept (t q) (t.set p x q) := by
  by_cases hq : q = p
  · rw [hq, Table.set_self]
    exact hx
  rw [Table.set_ne t x hq]
  exact Kept.refl (hs q)

omit hs in
theorem Kept.install {f : Program} (h : Sound p) (hmode : p.scMode ≠ .strict)
    (hf : ∀ d, misplaced (run f d) = false) : Kept p (install p f) := by
  have hsound := h.install hf
  exact ⟨hsound, .of_subset hmode (by simp [Seccomp.install]) hsound
    (subset_cons_self f p.sf), rfl⟩

theorem scSeccomp_kept {p : Pid} {op fl : U64}
    (hlaw : LawfulCall t p op fl u) (q : Pid) : Kept (t q) ((scSeccomp t p op fl u).1 q) := by
  rcases scSeccomp_cases t p op fl u with hsame | ⟨hop, hfl, hset⟩ | ⟨f, hf, hmode, hset⟩
  · rw [hsame]
    exact .refl (hs q)
  · rw [hset]
    have hsound : Sound (setStrict (t p)) := ⟨(hs p).placed, fun hoff => by cases hoff⟩
    exact .set hs ⟨hsound, .setStrict (hs p) (hlaw.strict hop hfl), rfl⟩ q
  rw [hset]
  have hinst := Kept.install (hs p) hmode (hlaw.placed f hf)
  split
  · next hsync =>
      unfold tsync
      split
      · next hq =>
          obtain ⟨hne, halive, htgid⟩ := hq
          rw [Table.set_ne t _ hne] at halive
          rw [Table.set_ne t _ hne, Table.set_self] at htgid
          rw [Table.set_ne t _ hne, Table.set_self]
          have hsome : installs t p op fl u ≠ none := by rw [hf]; exact Option.some_ne_none f
          obtain ⟨hstrict, hsub⟩ := hlaw.siblings hsome hsync q hne halive htgid
          have hsound : Sound { t q with
              sf := (install (t p) f).sf, scMode := .filter, nnp := true } :=
            ⟨hinst.sound.placed, fun hoff => by cases hoff⟩
          refine ⟨hsound, ?_, rfl⟩
          apply Tighter.of_subset hstrict (by simp) hsound
          exact List.Subset.trans hsub (subset_cons_self f (t p).sf)
      · exact .set hs hinst q
  · exact .set hs hinst q

theorem scPrctl_kept {p : Pid} {op a : U64}
    (hlaw : Lawful t (.prctl p op a u)) (q : Pid) : Kept (t q) ((scPrctl t p op a u).1 q) := by
  unfold scPrctl
  split
  · have hnnp : Kept (t p) (setNnp (t p)) :=
      ⟨⟨(hs p).placed, (hs p).off⟩, .of_eq rfl rfl, rfl⟩
    exact .set hs hnnp q
  split
  · exact .refl (hs q)
  split
  · exact .refl (hs q)
  split
  · next hop =>
      split
      · next ha => exact scSeccomp_kept hs (hlaw.1 hop ha) q
      split
      · next ha => exact scSeccomp_kept hs (hlaw.2 hop ha) q
      · exact .refl (hs q)
  · exact .refl (hs q)

theorem step_sound {ev : Event} (hlaw : Lawful t ev) (q : Pid) : Sound (step t ev q) := by
  cases ev with
  | seccomp p op fl u => exact (scSeccomp_kept hs hlaw q).sound
  | prctl p op a u => exact (scPrctl_kept hs hlaw q).sound
  | clone parent child tgid =>
    change Sound (t.set child _ q)
    by_cases hq : q = child
    · rw [hq, Table.set_self]
      exact ⟨(hs parent).placed, (hs parent).off⟩
    rw [Table.set_ne t _ hq]
    exact hs q
  | exit p =>
    change Sound (t.set p _ q)
    by_cases hq : q = p
    · rw [hq, Table.set_self]
      exact ⟨fun f hf => by simp at hf, fun _ => rfl⟩
    rw [Table.set_ne t _ hq]
    exact hs q

theorem step_kept {ev : Event} (hen : enabled t ev) (hlaw : Lawful t ev)
    (halive : (t q).alive = true) (hexit : ev ≠ .exit q) : Kept (t q) (step t ev q) := by
  cases ev with
  | seccomp p op fl u => exact scSeccomp_kept hs hlaw q
  | prctl p op a u => exact scPrctl_kept hs hlaw q
  | clone parent child tgid =>
    change Kept _ (t.set child _ q)
    have hq : q ≠ child := by
      rintro rfl
      simp [hen.2] at halive
    rw [Table.set_ne t _ hq]
    exact .refl (hs q)
  | exit p =>
    change Kept _ (t.set p _ q)
    have hq : q ≠ p := by
      rintro rfl
      exact hexit rfl
    rw [Table.set_ne t _ hq]
    exact .refl (hs q)

def Goes (t : Table) : List Event → Prop
  | [] => True
  | ev :: rest => (enabled t ev ∧ Lawful t ev) ∧ Goes (step t ev) rest

omit hs in
theorem Goes.append {l' : List Event} : Goes t (l ++ l') ↔ Goes t l ∧ Goes (play t l) l' := by
  induction l generalizing t with
  | nil => simp [Goes, play]
  | cons ev rest ih => simp [Goes, play, ih, and_assoc]

theorem play_sound (h : Goes t l) (q : Pid) : Sound (play t l q) := by
  induction l generalizing t with
  | nil => exact hs q
  | cons ev rest ih => exact ih (step_sound hs h.1.2) h.2

theorem play_tighter (h : Goes t l) (halive : (t q).alive = true)
    (hexit : ∀ ev ∈ l, ev ≠ .exit q) : Tighter (t q) (play t l q) := by
  induction l generalizing t with
  | nil => exact fun _ hr => hr
  | cons ev rest ih =>
    obtain ⟨⟨hen, hlaw⟩, hrest⟩ := h
    rw [forall_mem_cons] at hexit
    have hkept := step_kept hs hen hlaw halive hexit.1
    have htail := ih (step_sound hs hlaw) hrest (hkept.alive.trans halive) hexit.2
    exact fun r hr => htail r (hkept.tighter r hr)

end

theorem boot_sound (q : Pid) : Sound (boot q) := by
  unfold boot
  split <;> exact ⟨fun f hf => by simp at hf, fun _ => rfl⟩

/-- From any point of a lawful run on, what a process may not do it may never do while it lives;
a chain of filters is at least as severe as each of them where they return well placed actions;
and those are the ones that combine with every documented action as they should. -/
theorem seccomp_monotone (before later : List Event) (hgoes : Goes boot (before ++ later)) :
    (∀ q r, (play boot before q).alive = true → (∀ ev ∈ later, ev ≠ .exit q) →
      (scCheck (play boot before q) r).code ≠ 0 →
        (scCheck (play boot (before ++ later) q) r).code ≠ 0) ∧
    (∀ q r f, f ∈ (play boot before q).sf → (verdict r (chainValue [f] (callData r))).code ≤
        (verdict r (chainValue (play boot before q).sf (callData r))).code) ∧
    (∀ (chain : List Program) (r : Regs),
      (∀ f ∈ chain, misplaced (run f (callData r)) = false) → ∀ f ∈ chain,
        (verdict r (chainValue [f] (callData r))).code ≤
          (verdict r (chainValue chain (callData r))).code) ∧
    (∀ v, misplaced v = false ↔ ∀ w ∈ documented, ∀ r : Regs,
      (verdict r v).code ≤ (verdict r (stricter w v)).code ∧
        (verdict r w).code ≤ (verdict r (stricter w v)).code) := by
  obtain ⟨hbefore, hlater⟩ := Goes.append.1 hgoes
  have hs := play_sound boot_sound hbefore
  refine ⟨?_, ?_, ?_, ?_⟩
  · intro q r halive hexit hblocks
    rw [play, foldl_append]
    exact play_tighter hs hlater halive hexit r hblocks
  · intro q r f hf
    rw [verdict_code, verdict_code]
    apply severity_subset
    · exact fun g hg => (hs q).placed g hg _
    · simpa using hf
  · intro chain r hplaced f hf
    rw [verdict_code, verdict_code]
    exact severity_subset hplaced (by simpa using hf)
  intro v
  simp only [verdict_code]
  rw [placed_iff]
  constructor
  · exact fun h w hw _ => h w hw
  · exact fun h w hw => h w hw ⟨0, 0, 0, 0, 0, 0, 0, 0⟩

def noCall : Regs := ⟨0, 0, 0, 0, 0, 0, 0, 0⟩

def always (v : U32) : UserArg := ⟨true, 1, true, fun _ => ⟨6, 0, 0, v⟩, true, 0⟩

/-- A filter that answers `read` with `v` and lets every other call run. -/
def onRead (v : U32) : UserArg where
  ok := true
  len := 4
  progOk := true
  insn i := match i with
    | 0 => ⟨0x20, 0, 0, 0⟩
    | 1 => ⟨0x15, 0, 1, 0⟩
    | 2 => ⟨6, 0, 0, v⟩
    | _ => ⟨6, 0, 0, retAllow⟩
  memOk := true
  word := 0

def codeAfter (q : Pid) (l : List Event) : Nat := (scCheck (play boot l q) noCall).code

/-- Strict mode over a filter that refuses `read`; a thread without a filter that makes its
sibling follow it; a logging filter over an unknown action, and that over one that kills. -/
theorem refusal_taken_back : (codeAfter 0 [.seccomp 0 1 0 (onRead (retErrno + 1))] = 1 ∧
      codeAfter 0 [.seccomp 0 1 0 (onRead (retErrno + 1)), .seccomp 0 0 0 (onRead 0)] = 0) ∧
    (codeAfter 1 [.clone 0 1 0, .seccomp 1 1 0 (onRead retKill)] = 3 ∧
      codeAfter 1 [.clone 0 1 0, .seccomp 1 1 0 (onRead retKill),
        .seccomp 0 1 1 (always retAllow)] = 0) ∧
    (codeAfter 0 [.seccomp 0 1 0 (onRead 0x7ffd0000)] = 1 ∧
      codeAfter 0 [.seccomp 0 1 0 (onRead 0x7ffd0000), .seccomp 0 1 0 (onRead retLog)] = 0) ∧
    (codeAfter 0 [.seccomp 0 1 0 (onRead retKill)] = 3 ∧
      codeAfter 0 [.seccomp 0 1 0 (onRead retKill), .seccomp 0 1 0 (onRead 0x90000000)] = 1) := by
  decide +kernel

theorem always_lawful (t : Table) (p : Pid) {v : U32} (hv : misplaced v = false) :
    Lawful t (.seccomp p 1 0 (always v)) := by
  have hrun : ∀ d, run [⟨6, 0, 0, v⟩] d = v := by simp [run, runFrom, exec, Insn.cls]
  refine ⟨fun hop => absurd hop (by decide), fun f hf d => ?_, fun _ hfl => absurd hfl (by decide)⟩
  unfold installs at hf
  split at hf
  · have hload : load (always v) = .ok [⟨6, 0, 0, v⟩] := by
      simp [load, always, valid, validFrom, Insn.ok, Insn.cls]
    rw [hload] at hf
    cases hf
    rw [hrun, hv]
  · cases hf

theorem refusal_stays :
    (scCheck (play boot [.seccomp 0 1 0 (always (retErrno + 1))] 0) noCall).code = 1 ∧
      (scCheck (play boot ([.seccomp 0 1 0 (always (retErrno + 1))] ++
        [.seccomp 0 1 0 (always retAllow)]) 0) noCall).code ≠ 0 := by
  have hfirst : (scCheck (play boot [.seccomp 0 1 0 (always (retErrno + 1))] 0) noCall).code = 1 := by
    decide +kernel
  refine ⟨hfirst, ?_⟩
  have hgoes : Goes boot ([.seccomp 0 1 0 (always (retErrno + 1))] ++
      [.seccomp 0 1 0 (always retAllow)]) :=
    ⟨⟨rfl, always_lawful _ _ (by decide)⟩,
      ⟨show Proc.alive _ = true by decide +kernel, always_lawful _ _ (by decide)⟩, trivial⟩
  exact (seccomp_monotone _ _ hgoes).1 0 noCall (by decide +kernel) (by simp)
    (by rw [hfirst]; decide)

end SamaraOS.Seccomp
