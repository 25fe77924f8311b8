import SamaraOS.Proc.Signals

/-!
# Signal frames

Delivery saves the registers and the mask in a frame on the user stack or on
the alternate stack.  `rt_sigreturn` takes them back from there.
-/

namespace SamaraOS.SignalFrame

open Signals (SigSet sigBit unblockable)

abbrev Word := BitVec 64

structure Regs where
  (r8 r9 r10 r11 r12 r13 r14 r15 rdi rsi rbp rbx rdx rax rcx rsp rip rflags cs ss : Word)

structure SigContext where
  (r8 r9 r10 r11 r12 r13 r14 r15 rdi rsi rbp rbx rdx rax rcx rsp rip eflags : Word)
  (cs gs fs ss : BitVec 16)
  (err trapno oldmask cr2 fpstate : Word)

def saveContext (r : Regs) (fx oldmask : Word) : SigContext :=
  { r8 := r.r8, r9 := r.r9, r10 := r.r10, r11 := r.r11
    r12 := r.r12, r13 := r.r13, r14 := r.r14, r15 := r.r15
    rdi := r.rdi, rsi := r.rsi, rbp := r.rbp, rbx := r.rbx
    rdx := r.rdx, rax := r.rax, rcx := r.rcx, rsp := r.rsp
    rip := r.rip, eflags := r.rflags
    cs := r.cs.setWidth 16, gs := 0, fs := 0, ss := r.ss.setWidth 16
    err := 0, trapno := 0, oldmask, cr2 := 0, fpstate := fx }

structure Frame where
  pretcode : Word
  sc : SigContext
  sigmask : SigSet

structure Sa where
  handler : Word
  flags : BitVec 32
  restorer : Word
  mask : SigSet

structure Task where
  regs : Regs
  (pending mask savedMask : SigSet)
  inSigsuspend : Bool
  (ssSp ssSize : Word)
  sa : Nat → Sa
  dead : Bool

def Sa.has (sa : Sa) (flag : BitVec 32) : Bool := sa.flags &&& flag ≠ 0

/-- A call that a signal has ended is made again, apart from `rt_sigsuspend` and `pause`. -/
def restart (r : Regs) : Option Nat → Regs
  | none => r
  | some nr => if nr = 130 ∨ nr = 34 then r else { r with rax := nr, rip := r.rip - 2 }

def Task.onAlt (t : Task) (sp : Word) : Prop := t.ssSize ≠ 0 ∧ sp - t.ssSp ≤ t.ssSize

instance (t : Task) (sp : Word) : Decidable (t.onAlt sp) := inferInstanceAs (Decidable (_ ∧ _))

/-- The end of the frame. -/
def Task.top (t : Task) (sa : Sa) : Word :=
  let sp := t.regs.rsp - 128
  if sa.has 0x08000000 ∧ t.ssSize ≠ 0 ∧ ¬ t.onAlt sp then t.ssSp + t.ssSize else sp

def fxOf (sp : Word) : Word := (sp - 512) &&& ~~~15

def baseOf (sp : Word) : Word := ((fxOf sp - (8 + 304 + 128)) &&& ~~~15) - 8

/-- `pages` says whether every page is or can be made writable. -/
def userWritable (pages : Word → Word → Bool) (lo len : Word) : Bool :=
  !(lo < 0x10000 || 0x800000000000 < lo + len || lo + len < lo) && pages lo len

/-- `proc_send_signal` of `SIGSEGV` to itself. -/
def segv (t : Task) : Task :=
  let h := (t.sa 11).handler
  if h = 1 then t
  else if 1 < h ∨ Signals.has t.mask 11 then { t with pending := t.pending ||| sigBit 11 }
  else { t with dead := true }

/-- The registers that delivery saves. -/
def savedRegs (sys : Option Nat) (t : Task) (sa : Sa) : Regs :=
  if sa.has 0x10000000 then restart t.regs sys else t.regs

def savedSet (t : Task) : SigSet := if t.inSigsuspend then t.savedMask else t.mask

/-- The handler's part of `proc_deliver_signal`, with the frame it writes.  `sys` is a system
call that returns `EINTR`. -/
def deliverSignal (pages : Word → Word → Bool) (sys : Option Nat) (t : Task) (sig : Nat) :
    Task × Option (Word × Frame) :=
  let sa := t.sa sig
  let r := savedRegs sys t sa
  let oldmask := savedSet t
  let sp := t.top sa
  let base := baseOf sp
  let t := { t with regs := r, inSigsuspend := false }
  if userWritable pages base (sp - base) then
    ({ t with
        mask := (if sa.has 0x40000000 then t.mask else t.mask ||| sigBit sig) ||| sa.mask
        sa := if sa.has 0x80000000 then
          Function.update t.sa sig { sa with handler := 0, flags := 0 } else t.sa
        regs := { r with
          rsp := base, rip := sa.handler, rdi := sig, rsi := base + 8 + 304, rdx := base + 8
          rax := 0, rflags := r.rflags &&& ~~~0x400, cs := 0x2B, ss := 0x23 } },
      some (base, ⟨if sa.has 0x04000000 then sa.restorer else 0,
        saveContext r (fxOf sp) oldmask, oldmask⟩))
  else (segv t, none)

/-- `mem` is the frame that is read at an address. -/
def sigreturn (mem : Word → Frame) (t : Task) : Option Task :=
  let frame := t.regs.rsp - 8
  let sc := (mem frame).sc
  if frame < 0x10000 ∨ 0x800000000000 < frame + 8 + 304 + 128 then none
  else some { t with
    mask := (mem frame).sigmask &&& ~~~unblockable
    regs :=
      { r8 := sc.r8, r9 := sc.r9, r10 := sc.r10, r11 := sc.r11
        r12 := sc.r12, r13 := sc.r13, r14 := sc.r14, r15 := sc.r15
        rdi := sc.rdi, rsi := sc.rsi, rbp := sc.rbp, rbx := sc.rbx
        rdx := sc.rdx, rcx := sc.rcx, rax := sc.rax
        rip := sc.rip, rsp := sc.rsp
        rflags := (sc.eflags &&& 0x0DD5) ||| 0x202
        cs := 0x2B, ss := 0x23 } }

variable {pages : Word → Word → Bool} {sys : Option Nat} {t t' : Task} {sig : Nat} {base : Word}
  {f : Frame}

theorem deliverSignal_some (h : deliverSignal pages sys t sig = (t', some (base, f))) :
    userWritable pages base (t.top (t.sa sig) - base) = true ∧ base = baseOf (t.top (t.sa sig)) ∧
      f.sc = saveContext (savedRegs sys t (t.sa sig)) (fxOf (t.top (t.sa sig))) (savedSet t) ∧
      f.sigmask = savedSet t := by
  unfold deliverSignal at h
  dsimp only at h
  split at h
  · next hw =>
    cases h
    exact ⟨hw, rfl, rfl, rfl⟩
  · cases h

/-- The place of the frame can be written. -/
def Task.roomFor (t : Task) (pages : Word → Word → Bool) (sig : Nat) : Bool :=
  let sp := t.top (t.sa sig)
  userWritable pages (baseOf sp) (sp - baseOf sp)

theorem deliverSignal_isSome : (deliverSignal pages sys t sig).2.isSome ↔ t.roomFor pages sig := by
  unfold deliverSignal Task.roomFor
  dsimp only
  split
  · next hw => exact iff_of_true rfl hw
  · next hw => exact iff_of_false Bool.false_ne_true hw

theorem and_not_15 (x : Word) : (x &&& ~~~15#64).toNat = x.toNat / 16 * 16 := by
  have hsum : (x &&& ~~~15#64) + (x &&& 15#64) = x := by
    have hor : ~~~15#64 ||| 15#64 = BitVec.allOnes 64 := by decide
    rw [BitVec.add_eq_or_of_and_eq_zero, ← BitVec.and_or_distrib_left, hor, BitVec.and_allOnes]
    rw [BitVec.and_assoc, BitVec.and_comm x (15#64), ← BitVec.and_assoc (~~~15#64)]
    simp
  have hmod : (x &&& 15#64).toNat = x.toNat % 16 := Nat.and_two_pow_sub_one_eq_mod x.toNat 4
  bv_omega

/-- A frame that is written ends in user memory. -/
theorem written_range {top : Word} (h : userWritable pages base (top - base) = true) :
    0x10000 ≤ base ∧ top ≤ 0x800000000000 ∧ base ≤ top := by
  simp only [userWritable, Bool.and_eq_true, Bool.not_eq_true', Bool.or_eq_false_iff,
    decide_eq_false_iff_not] at h
  refine ⟨?_, ?_, ?_⟩ <;> bv_omega

theorem base_add_le {top : Word} (h : userWritable pages (baseOf top) (top - baseOf top) = true) :
    baseOf top + 8 + 304 + 128 ≤ 0x800000000000 := by
  obtain ⟨h1, h2, h3⟩ := written_range h
  have hfx := and_not_15 (top - 512)
  have hbase := and_not_15 (fxOf top - (8 + 304 + 128))
  unfold baseOf fxOf at *
  bv_omega

/-! ## Where the frame is -/

/-- A frame that ends at `top` is below the red zone, or on an alternate stack that is not in
use. -/
def Spares (t : Task) (top : Word) : Prop :=
  128 ≤ t.regs.rsp ∧ top ≤ t.regs.rsp - 128 ∨ top = t.ssSp + t.ssSize ∧ ¬ t.onAlt t.regs.rsp

/-- The live part of an alternate stack is overwritten exactly when the red zone reaches out of
it. -/
theorem spares_iff (pages : Word → Word → Bool) (sys : Option Nat) (t : Task) (sig : Nat) :
    (∀ t' base f, deliverSignal pages sys t sig = (t', some (base, f)) →
      Spares t (t.top (t.sa sig))) ↔
      ¬ (t.roomFor pages sig ∧ (t.sa sig).has 0x08000000 ∧
        (t.onAlt t.regs.rsp ∧ ¬ t.onAlt (t.regs.rsp - 128)) ∧
        ¬ (128 ≤ t.regs.rsp ∧ t.ssSp + t.ssSize ≤ t.regs.rsp - 128)) := by
  constructor
  · rintro hall ⟨hroom, hon, ⟨hlive, hout⟩, hnot⟩
    obtain ⟨⟨base, f⟩, hf⟩ := Option.isSome_iff_exists.1 (deliverSignal_isSome.2 hroom)
    have hsp := hall _ base f (Prod.ext rfl hf)
    rw [Spares, Task.top, if_pos ⟨hon, hlive.1, hout⟩] at hsp
    exact hsp.elim hnot fun h => h.2 hlive
  intro hbad t' base f h
  by_contra hsp
  obtain ⟨hw, -⟩ := deliverSignal_some h
  obtain ⟨-, hle, -⟩ := written_range hw
  rw [Spares, not_or] at hsp
  by_cases hif : (t.sa sig).has 0x08000000 ∧ t.ssSize ≠ 0 ∧ ¬ t.onAlt (t.regs.rsp - 128)
  · have heq : t.top (t.sa sig) = t.ssSp + t.ssSize := if_pos hif
    have hlive : t.onAlt t.regs.rsp := by
      by_contra hno
      exact hsp.2 ⟨heq, hno⟩
    exact hbad ⟨deliverSignal_isSome.1 (by rw [h]; rfl), hif.1, ⟨hlive, hif.2.2⟩, heq ▸ hsp.1⟩
  · have heq : t.top (t.sa sig) = t.regs.rsp - 128 := if_neg hif
    rw [heq] at hsp hle
    exact hsp.1 ⟨by bv_omega, BitVec.le_refl _⟩

/-- A handler that runs on an alternate stack of 2048 bytes at `0x100000`. -/
def deep (rsp rflags : Word) : Task :=
  { regs := ⟨0, 0, 0, 0, 0, 0, 0, 0, 0, 0, 0, 0, 0, 0, 0, rsp, 0, rflags, 0x2B, 0x23⟩
    pending := 0, mask := 0, savedMask := 0, inSigsuspend := false
    ssSp := 0x100000, ssSize := 2048
    sa := fun _ => ⟨0x400000, 0x08000000, 0, 0⟩
    dead := false }

theorem deep_overwritten :
    (deliverSignal (fun _ _ => true) none (deep 0x100064 0x202) 10).2.isSome ∧
    ¬ Spares (deep 0x100064 0x202) ((deep 0x100064 0x202).top ⟨0x400000, 0x08000000, 0, 0⟩) := by
  unfold Spares
  decide

/-! ## Back from the handler -/

/-- The flags that user code can change. -/
def userFlags : Word := 0x244DD5

def Restored (r : Regs) (mask : SigSet) (t : Task) : Prop :=
  { t.regs with rflags := r.rflags, cs := r.cs, ss := r.ss } = r ∧
    t.regs.rflags &&& userFlags = r.rflags &&& userFlags ∧ t.mask = mask

def Tame (r : Regs) : Prop :=
  r.cs = 0x2B ∧ r.ss = 0x23 ∧ r.rflags &&& 0x3000 = 0 ∧ r.rflags &&& 0x200 = 0x200

theorem and_not_eq_self {x u : SigSet} : x &&& ~~~u = x ↔ x &&& u = 0 := by
  constructor
  · intro h
    rw [← h, BitVec.and_assoc]
    simp
  · intro h
    have hx : x &&& ~~~u ||| x &&& u = x := by
      rw [← BitVec.and_or_distrib_left, BitVec.or_comm, BitVec.or_not_self, BitVec.and_allOnes]
    rw [h] at hx
    exact BitVec.or_zero.symm.trans hx

theorem flags_restored (x : Word) :
    (x &&& 0x0DD5 ||| 0x202) &&& userFlags = x &&& userFlags ↔ x &&& 0x244000 = 0 := by
  have hr : (x &&& 0x0DD5 ||| 0x202) &&& userFlags = x &&& userFlags &&& ~~~0x244000 := by
    rw [BitVec.and_or_distrib_right, BitVec.and_assoc, BitVec.and_assoc]
    exact BitVec.or_zero
  rw [hr, and_not_eq_self, BitVec.and_assoc]
  rfl

theorem sigreturn_tame {mem : Word → Frame} (h : sigreturn mem t = some t') : Tame t'.regs := by
  unfold sigreturn at h
  dsimp only at h
  split at h
  · cases h
  cases h
  refine ⟨rfl, rfl, ?_, ?_⟩ <;> simp [BitVec.and_or_distrib_right, BitVec.and_assoc]

end SamaraOS.SignalFrame
