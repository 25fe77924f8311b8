import Mathlib

/-!
# Classic BPF programs

The check of `valid` and the interpreter `run` of `proc/seccomp.c`.  A program is
the list of its instructions.  Every instruction moves the program counter up, so
the length of the program is enough fuel, and a program that passes the check
ends at one of its instructions, without a bad load, store or division.
-/

namespace SamaraOS.Seccomp

abbrev U8 := BitVec 8
abbrev U16 := BitVec 16
abbrev U32 := BitVec 32
abbrev U64 := BitVec 64

structure Insn where
  code : U16
  jt : U8
  jf : U8
  k : U32
  deriving DecidableEq

abbrev Program := List Insn

namespace Insn

inductive Class where
  | ld | ldx | st | stx | alu | jmp | ret | misc
  deriving DecidableEq

def cls (i : Insn) : Class :=
  match (i.code &&& 7).toNat with
  | 0 => .ld
  | 1 => .ldx
  | 2 => .st
  | 3 => .stx
  | 4 => .alu
  | 5 => .jmp
  | 6 => .ret
  | _ => .misc

def mode (i : Insn) : U16 := i.code &&& 0xe0

def op (i : Insn) : U16 := i.code &&& 0xf0

def fromX (i : Insn) : Bool := i.code &&& 8 != 0

def ok (n pc : Nat) (i : Insn) : Bool :=
  match i.cls with
  | .ld =>
    !(i.mode == 0x40 || i.mode == 0xa0) && !(i.mode == 0x20 && 64 ≤ i.k.toNat) &&
      !(i.mode == 0x60 && 16 ≤ i.k.toNat)
  | .ldx => !(i.mode == 0x60 && 16 ≤ i.k.toNat)
  | .st | .stx => i.k.toNat < 16
  | .alu =>
    !(i.op == 0x30 && !i.fromX && i.k == 0) && !(i.op == 0x90 && !i.fromX && i.k == 0)
  | .jmp =>
    if i.op = 0 then i.k.toNat < n - pc - 1
    else pc + 1 + i.jt.toNat < n && pc + 1 + i.jf.toNat < n
  | .ret | .misc => true

end Insn

def validFrom (n : Nat) : Nat → Program → Bool
  | _, [] => true
  | pc, i :: rest => i.ok n pc && validFrom n (pc + 1) rest

def valid (f : Program) : Bool :=
  validFrom f.length 0 f && f.getLast?.any (·.cls = .ret)

def retKill : U32 := 0

structure Machine where
  a : U32
  x : U32
  m : Nat → U32

inductive Effect where
  | halt (v : U32)
  | go (skip : Nat) (s : Machine)

def loadAbs (d : Nat → U8) (k sz : Nat) : U32 :=
  (List.range sz).foldl (fun v b => v ||| (d (k + b)).zeroExtend 32 <<< (8 * b)) 0

def absSize (i : Insn) : Nat :=
  if i.code &&& 0x18 = 0 then 4 else if i.code &&& 0x18 = 0x08 then 2 else 1

def ld (i : Insn) (d : Nat → U8) (s : Machine) : Effect :=
  if i.mode = 0x20 then
    if 64 < (i.k + BitVec.ofNat 32 (absSize i)).toNat then .halt retKill
    else .go 0 { s with a := loadAbs d i.k.toNat (absSize i) }
  else if i.mode = 0 then .go 0 { s with a := i.k }
  else if i.mode = 0x60 then .go 0 { s with a := s.m (i.k.toNat % 16) }
  else if i.mode = 0x80 then .go 0 { s with a := 64 }
  else .halt retKill

def ldx (i : Insn) (s : Machine) : Effect :=
  if i.mode = 0 then .go 0 { s with x := i.k }
  else if i.mode = 0x60 then .go 0 { s with x := s.m (i.k.toNat % 16) }
  else if i.mode = 0x80 then .go 0 { s with x := 64 }
  else .halt retKill

def store (s : Machine) (k : U32) (v : U32) : Machine :=
  { s with m := fun j => if j = k.toNat % 16 then v else s.m j }

def operand (i : Insn) (s : Machine) : U32 := if i.fromX then s.x else i.k

def alu (op : U16) (a v : U32) : Option U32 :=
  if op = 0x00 then some (a + v)
  else if op = 0x10 then some (a - v)
  else if op = 0x20 then some (a * v)
  else if op = 0x30 then if v = 0 then none else some (a / v)
  else if op = 0x40 then some (a ||| v)
  else if op = 0x50 then some (a &&& v)
  else if op = 0x60 then some (a <<< (v.toNat % 32))
  else if op = 0x70 then some (a >>> (v.toNat % 32))
  else if op = 0x80 then some (-a)
  else if op = 0x90 then if v = 0 then none else some (a % v)
  else if op = 0xa0 then some (a ^^^ v)
  else none

def jump (i : Insn) (s : Machine) : Option Nat :=
  let v := operand i s
  let pick (b : Bool) := some (if b then i.jt.toNat else i.jf.toNat)
  if i.op = 0x00 then some i.k.toNat
  else if i.op = 0x10 then pick (s.a == v)
  else if i.op = 0x20 then pick (v < s.a)
  else if i.op = 0x30 then pick (v ≤ s.a)
  else if i.op = 0x40 then pick (s.a &&& v != 0)
  else none

def exec (i : Insn) (d : Nat → U8) (s : Machine) : Effect :=
  match i.cls with
  | .ld => ld i d s
  | .ldx => ldx i s
  | .st => .go 0 (store s i.k s.a)
  | .stx => .go 0 (store s i.k s.x)
  | .alu =>
    match alu i.op s.a (operand i s) with
    | some a => .go 0 { s with a := a }
    | none => .halt retKill
  | .jmp =>
    match jump i s with
    | some skip => .go skip s
    | none => .halt retKill
  | .ret => .halt (if i.code &&& 0x18 = 0x10 then s.a else i.k)
  | .misc =>
    .go 0 (if i.code &&& 0xf8 = 0 then { s with x := s.a } else { s with a := s.x })

def runFrom (f : Program) (d : Nat → U8) : Nat → Nat → Machine → U32
  | 0, _, _ => retKill
  | fuel + 1, pc, s =>
    match f[pc]? with
    | none => retKill
    | some i =>
      match exec i d s with
      | .halt v => v
      | .go skip s => runFrom f d fuel (pc + skip + 1) s

def run (f : Program) (d : Nat → U8) : U32 := runFrom f d f.length 0 ⟨0, 0, fun _ => 0⟩

variable {pc skip : Nat} {f : Program} {i : Insn} {s : Machine}

theorem validFrom_ok {n j : Nat} (h : validFrom n pc f = true)
    (hj : f[j]? = some i) : i.ok n (pc + j) = true := by
  induction f generalizing pc j with
  | nil => simp at hj
  | cons first rest ih =>
    simp only [validFrom, Bool.and_eq_true] at h
    cases j with
    | zero =>
      simp only [List.getElem?_cons_zero, Option.some.injEq] at hj
      rw [← hj]
      exact h.1
    | succ j =>
      have hrest := ih h.2 hj
      rwa [Nat.add_right_comm, Nat.add_assoc] at hrest

theorem jump_lands {n : Nat} (hcls : i.cls = .jmp)
    (hok : i.ok n pc = true) (hjump : jump i s = some skip) : pc + skip + 1 < n := by
  have hpick : ∀ b : Bool, i.op ≠ 0 → some (if b then i.jt.toNat else i.jf.toNat) = some skip →
      pc + skip + 1 < n := by
    intro b hop hb
    simp only [Insn.ok, hcls, hop, if_false, Bool.and_eq_true, decide_eq_true_eq] at hok
    cases b <;> simp at hb <;> omega
  unfold jump at hjump
  by_cases hop : i.op = 0
  · simp only [Insn.ok, hcls, hop, if_true, decide_eq_true_eq] at hok
    simp only [hop, if_true, Option.some.injEq] at hjump
    omega
  rw [if_neg hop] at hjump
  split at hjump
  · exact hpick _ hop hjump
  split at hjump
  · exact hpick _ hop hjump
  split at hjump
  · exact hpick _ hop hjump
  split at hjump
  · exact hpick _ hop hjump
  · cases hjump

theorem exec_skip {d : Nat → U8} {s' : Machine} (h : exec i d s = .go skip s') : i.cls = .jmp ∧
    jump i s = some skip ∨ skip = 0 := by
  unfold exec at h
  split at h
  · unfold ld at h
    split at h
    · split at h <;> cases h
      exact .inr rfl
    split at h
    · cases h
      exact .inr rfl
    split at h
    · cases h
      exact .inr rfl
    split at h <;> cases h
    exact .inr rfl
  · unfold ldx at h
    split at h
    · cases h
      exact .inr rfl
    split at h
    · cases h
      exact .inr rfl
    split at h <;> cases h
    exact .inr rfl
  · cases h
    exact .inr rfl
  · cases h
    exact .inr rfl
  · split at h <;> cases h
    exact .inr rfl
  · next hcls =>
      split at h <;> cases h
      next hjump => exact .inl ⟨hcls, hjump⟩
  · cases h
  cases h
  exact .inr rfl

theorem valid_lands {d : Nat → U8} {s' : Machine} (hvalid : valid f = true) (hi : f[pc]? = some i)
    (hexec : exec i d s = .go skip s') : pc + skip + 1 < f.length := by
  simp only [valid, Bool.and_eq_true] at hvalid
  obtain ⟨hall, hlast⟩ := hvalid
  have hok : i.ok f.length pc = true := by
    have := validFrom_ok hall hi
    rwa [Nat.zero_add] at this
  have hlt : pc < f.length := (List.getElem?_eq_some_iff.1 hi).1
  rcases exec_skip hexec with ⟨hcls, hjump⟩ | rfl
  · exact jump_lands hcls hok hjump
  -- The last instruction returns, so this one is not it.
  by_contra hend
  have hpc : pc = f.length - 1 := by omega
  rw [hpc, ← List.getLast?_eq_getElem?] at hi
  rw [hi, Option.any_some, decide_eq_true_eq] at hlast
  unfold exec at hexec
  rw [hlast] at hexec
  cases hexec

/-! ## What a checked program does -/

namespace Insn

def undefined (i : Insn) : Bool :=
  match i.cls with
  | .ld => i.mode ∉ [0x20, 0x00, 0x60, 0x80]
  | .ldx => i.mode ∉ [0x00, 0x60, 0x80]
  | .alu => i.op ∉ [0x00, 0x10, 0x20, 0x30, 0x40, 0x50, 0x60, 0x70, 0x80, 0x90, 0xa0]
  | .jmp => i.op ∉ [0x00, 0x10, 0x20, 0x30, 0x40]
  | .st | .stx | .ret | .misc => false

def scratch (i : Insn) : Bool :=
  match i.cls with
  | .ld | .ldx => i.mode == 0x60
  | .st | .stx => true
  | .alu | .jmp | .ret | .misc => false

def loads (i : Insn) : Bool := i.cls = .ld && i.mode == 0x20

def divides (i : Insn) : Bool := i.cls = .alu && (i.op == 0x30 || i.op == 0x90)

end Insn

def Killed (i : Insn) (s : Machine) : Prop :=
  i.undefined = true ∨ i.loads = true ∧ 64 < i.k.toNat + absSize i ∨
    i.divides = true ∧ operand i s = 0

/-- The run comes to an end with `v`.  It fetches inside the program, its scratch words, loads
and divisions are good, and it ends at a return, or is killed for a reason that `kill` allows. -/
def Guarded (kill : Insn → Machine → Prop) (f : Program) (d : Nat → U8) (v : U32) :
    Nat → Nat → Machine → Prop
  | 0, _, _ => False
  | fuel + 1, pc, s =>
    ∃ i, f[pc]? = some i ∧ (i.scratch = true → i.k.toNat < 16) ∧ match exec i d s with
      | .halt r => r = v ∧ (i.cls = .ret ∨ r = retKill ∧ kill i s)
      | .go skip s' =>
        (i.loads = true → i.k.toNat + absSize i ≤ 64) ∧
          (i.divides = true → operand i s ≠ 0) ∧
          Guarded kill f d v fuel (pc + skip + 1) s'

section Step

variable {d : Nat → U8} {n : Nat} {v : U32} {s' : Machine}

theorem absSize_le (i : Insn) : absSize i ≤ 4 := by
  unfold absSize
  split_ifs <;> omega

theorem ok_scratch (hok : i.ok n pc = true) (h : i.scratch = true) : i.k.toNat < 16 := by
  unfold Insn.ok at hok
  unfold Insn.scratch at h
  cases hc : i.cls <;> simp_all

theorem ok_loads (hok : i.ok n pc = true) (h : i.loads = true) :
    (i.k + BitVec.ofNat 32 (absSize i)).toNat = i.k.toNat + absSize i := by
  simp only [Insn.loads, Bool.and_eq_true, decide_eq_true_eq, beq_iff_eq] at h
  have hk : i.k.toNat < 64 := by
    simp only [Insn.ok, h.1, h.2] at hok
    simp at hok
    omega
  have hsize := absSize_le i
  rw [BitVec.toNat_add, BitVec.toNat_ofNat]
  omega

theorem alu_none {op : U16} {a w : U32} (h : alu op a w = none) : (op = 0x30 ∨ op = 0x90) ∧ w = 0 ∨
      op ∉ [0x00, 0x10, 0x20, 0x30, 0x40, 0x50, 0x60, 0x70, 0x80, 0x90, 0xa0] := by
  by_contra hne
  rw [not_or, not_not] at hne
  obtain ⟨hzero, hop⟩ := hne
  simp only [List.mem_cons, List.not_mem_nil, or_false] at hop
  rcases hop with rfl | rfl | rfl | rfl | rfl | rfl | rfl | rfl | rfl | rfl | rfl
  case inr.inr.inr.inl => exact hzero ⟨.inl rfl, by simpa [alu] using h⟩
  case inr.inr.inr.inr.inr.inr.inr.inr.inr.inl => exact hzero ⟨.inr rfl, by simpa [alu] using h⟩
  all_goals simp [alu] at h

theorem jump_none (h : jump i s = none) : i.op ∉ [0x00, 0x10, 0x20, 0x30, 0x40] := by
  unfold jump at h
  split_ifs at h with h0 h1 h2 h3 h4
  simp only [List.mem_cons, List.not_mem_nil, or_false, not_or]
  exact ⟨h0, h1, h2, h3, h4⟩

theorem exec_halt (hok : i.ok n pc = true) (h : exec i d s = .halt v) :
    i.cls = .ret ∨ v = retKill ∧ Killed i s := by
  unfold exec at h
  cases hc : i.cls with
  | ld =>
    simp only [hc, ld] at h
    split_ifs at h with hm hk h0 h6 h8
    · rw [ok_loads hok (by simp [Insn.loads, hc, hm])] at hk
      exact .inr ⟨(Effect.halt.inj h).symm, .inr (.inl ⟨by simp [Insn.loads, hc, hm], hk⟩)⟩
    · exact .inr ⟨(Effect.halt.inj h).symm, .inl (by grind [Insn.undefined])⟩
  | ldx =>
    simp only [hc, ldx] at h
    split_ifs at h with h0 h6 h8
    exact .inr ⟨(Effect.halt.inj h).symm, .inl (by grind [Insn.undefined])⟩
  | alu =>
    simp only [hc] at h
    split at h
    · cases h
    next hnone =>
    refine .inr ⟨(Effect.halt.inj h).symm, ?_⟩
    rcases alu_none hnone with ⟨hop, h0⟩ | hun
    · exact .inr (.inr ⟨by grind [Insn.divides], h0⟩)
    · exact .inl (by grind [Insn.undefined])
  | jmp =>
    simp only [hc] at h
    split at h
    · cases h
    next hnone =>
    have hun := jump_none hnone
    exact .inr ⟨(Effect.halt.inj h).symm, .inl (by grind [Insn.undefined])⟩
  | ret => exact .inl rfl
  | st | stx | misc =>
    simp only [hc] at h
    cases h

theorem exec_go (hok : i.ok n pc = true) (h : exec i d s = .go skip s') :
    (i.loads = true → i.k.toNat + absSize i ≤ 64) ∧ (i.divides = true → operand i s ≠ 0) := by
  constructor
  · intro hl
    have hsum := ok_loads hok hl
    simp only [Insn.loads, Bool.and_eq_true, decide_eq_true_eq, beq_iff_eq] at hl
    simp only [exec, hl.1, ld, hl.2, if_true] at h
    split_ifs at h
    omega
  intro hd h0
  simp only [Insn.divides, Bool.and_eq_true, decide_eq_true_eq, Bool.or_eq_true,
    beq_iff_eq] at hd
  have hnone : alu i.op s.a (operand i s) = none := by
    rcases hd.2 with hop | hop <;> simp [alu, hop, h0]
  simp only [exec, hd.1, hnone] at h
  cases h

end Step

theorem runFrom_guarded (hvalid : valid f = true) (d : Nat → U8) {fuel : Nat}
    (s : Machine) (hpc : pc < f.length) (hfuel : f.length ≤ pc + fuel) :
    Guarded Killed f d (runFrom f d fuel pc s) fuel pc s := by
  induction fuel generalizing pc s with
  | zero => omega
  | succ fuel ih =>
    have hat : f[pc]? = some f[pc] := List.getElem?_eq_getElem hpc
    have hok : f[pc].ok f.length pc = true := by
      simp only [valid, Bool.and_eq_true] at hvalid
      have := validFrom_ok hvalid.1 hat
      rwa [Nat.zero_add] at this
    refine ⟨f[pc], hat, ok_scratch hok, ?_⟩
    cases hexec : exec f[pc] d s with
    | halt v =>
      simp only [runFrom, hat, hexec]
      exact ⟨trivial, exec_halt hok hexec⟩
    | go skip s' =>
      have hlands := valid_lands hvalid hat hexec
      obtain ⟨hload, hdiv⟩ := exec_go hok hexec
      simp only [runFrom, hat, hexec]
      exact ⟨hload, hdiv, ih s' hlands (by omega)⟩

/-- A filter that passed the check ends, at a return or killed, and never beyond its last
instruction. -/
theorem run_guarded (f : Program) (hvalid : valid f = true) (d : Nat → U8) :
    Guarded Killed f d (run f d) f.length 0 ⟨0, 0, fun _ => 0⟩ := by
  have hpos : 0 < f.length := by
    rcases f with _ | ⟨i, f⟩
    · simp [valid] at hvalid
    · simp
  exact runFrom_guarded hvalid d _ hpos (by omega)

theorem run_guarded_jump :
    Guarded Killed [⟨0x15, 0, 1, 0⟩, ⟨0x20, 0, 0, 60⟩, ⟨0x06, 0, 0, 7⟩] (fun _ => 0) 7 3 0
      ⟨0, 0, fun _ => 0⟩ :=
  run_guarded _ (by decide) _

/-- Not only undefined instructions are killed: a load of four bytes at 61 is, too. -/
theorem run_killed_load :
    valid [⟨0x20, 0, 0, 61⟩, ⟨0x06, 0, 0, 0⟩] = true ∧
      ¬ Guarded (fun i _ => i.undefined = true) [⟨0x20, 0, 0, 61⟩, ⟨0x06, 0, 0, 0⟩] (fun _ => 0)
        (run [⟨0x20, 0, 0, 61⟩, ⟨0x06, 0, 0, 0⟩] (fun _ => 0)) 2 0 ⟨0, 0, fun _ => 0⟩ := by
  refine ⟨by decide, ?_⟩
  rintro ⟨i, hi, -, hkill⟩
  obtain rfl := Option.some.inj hi
  exact absurd hkill.2 (by decide)

end SamaraOS.Seccomp
