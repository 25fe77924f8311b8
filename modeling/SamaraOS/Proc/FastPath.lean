import SamaraOS.Proc.FileRange

/-!
# The path without the big lock

When `node_nb_rw` does not leave a call to the path under the big lock, it should do what
that path does.  It does so under a condition on the file and the request, given here for
writes and reads, and under no other.
-/

namespace SamaraOS.File

open Option List

def Agrees (env : Env) (f : OpenFile) (req : Req) : Prop :=
  ∃ k, ∀ fuel, k ≤ fuel →
    match nbRw env fuel f req with
    | .slow g => g = f
    | .spin => False
    | .ret r d => slowRw env f req = .ret r d

section

variable (env : Env) {f : OpenFile} {req : Req} {d : Done}

theorem agrees_slow (h : ∀ fuel, nbRw env (fuel + 1) f req = .slow f) :
    Agrees env f req := by
  refine ⟨1, fun fuel hk => ?_⟩
  obtain ⟨fuel, rfl⟩ := Nat.exists_eq_add_of_le' hk
  rw [h]

theorem agrees_ret {r : Int}
    (h : ∀ fuel, nbRw env (fuel + 1) f req = .ret r d) :
    Agrees env f req ↔ slowRw env f req = .ret r d := by
  constructor
  · rintro ⟨k, hk⟩
    have := hk (k + 1) (Nat.le_succ k)
    rwa [h] at this
  intro hslow
  refine ⟨1, fun fuel hk => ?_⟩
  obtain ⟨fuel, rfl⟩ := Nat.exists_eq_add_of_le' hk
  rw [h]
  exact hslow

/-! ## Writes -/

section

variable {buf : List Byte} {pos : Option Nat}

theorem nbRw_append_spins (h : WritesFast env f buf.length none) (ha : f.append = true)
    (hoff : f.off ≠ f.node.size) (fuel : Nat) : nbRw env fuel f (.write buf none) = .spin := by
  have hspan := h.span
  have hbound := h.bound
  have hmount := h.rootAppend rfl ha
  simp only [OpenFile.writeOff, ha, if_true, getD_none] at hspan hbound
  have hclaim : claim env f true buf.length fuel = none := by
    induction fuel with
    | zero => rfl
    | succ fuel ih =>
      simp only [claim, ha, Bool.and_self, if_true, hmount, Bool.and_false, Bool.false_eq_true,
        if_false, hspan, hoff, ih]
      rw [if_neg (by omega)]
  unfold nbRw
  simp [Req.pos, h.alone, hclaim]

theorem nodeWriteAt_inside (hfit : f.node.Fits) (hfile : f.node.isFile = true) {off : Nat}
    (hcap : off + buf.length < f.node.cap) :
    nodeWriteAt env f.node off buf =
      match mntGrow env f.node (off + buf.length) with
      | some e => .ret e f.node
      | none => .ret (intOf buf.length)
        { f.node with bytes := splice 0 f.node.bytes off buf } := by
  have hlt := hfit.cap
  have hroom := hfit.room
  have hreserve : nodeReserve env f.node (max (off + buf.length) f.node.size) = .ret 0 f.node := by
    unfold nodeReserve
    rw [wrap32_of_lt (by omega), if_pos (by omega)]
  unfold nodeWriteAt
  rw [if_neg (by simp [hfile]), wrap32_of_lt (by omega), wrap32_of_lt (by omega), hreserve]
  cases mntGrow env f.node (off + buf.length) with
  | some e => rfl
  | none => exact putBytes_eq hcap (by omega) hlt

structure WriteMatches (env : Env) (f : OpenFile) (n : Nat) (pos : Option Nat) : Prop where
  counts : n < 2 ^ 31
  grows : mntGrow env f.node (f.slowOff pos + n) = none
  atEnd : f.append = true → if pos.isSome then n = 0 ∨ pos = some f.node.size else f.off = f.node.size
  filled : n = 0 → f.slowOff pos ≤ f.node.size

theorem slowOff_eq {n : Nat} (h : WriteMatches env f n pos) : n = 0 ∨ f.slowOff pos = f.writeOff pos := by
  have hend := h.atEnd
  unfold OpenFile.slowOff OpenFile.writeOff
  cases pos with
  | none => exact .inr rfl
  | some off =>
    by_cases ha : f.append = true
    · simp only [ha, isSome_some, if_true, some.injEq, forall_const] at hend ⊢
      exact hend.imp_right Eq.symm
    · simp [ha]

theorem slowRw_write_ret (hfit : f.node.Fits) (hoff : f.slowOff pos < 2 ^ 32)
    (h : slowRw env f (.write buf pos) = .ret buf.length d) :
    buf.length < 2 ^ 31 ∧ mntGrow env f.node (f.slowOff pos + buf.length) = none ∧
      d.file.node.bytes = splice 0 f.node.bytes (f.slowOff pos) buf := by
  rw [slowRw_write_eq, wrap32_of_lt hoff] at h
  rcases nodeWriteAt_cases env hfit (buf.take (wrap32 buf.length)) hoff
    with hr | hr | ⟨r, nd', hr, ⟨hneg, -⟩ | ⟨hret, hsplice, hsize⟩⟩
  · rw [hr] at h
    cases h
  · rw [hr] at h
    cases h
  · rw [hr] at h
    injection h with h1 h2
    omega
  rw [hr] at h
  injection h with h1 h2
  have hint := intOf_lt (buf.take (wrap32 buf.length)).length
  have hn : buf.length < 2 ^ 31 := by omega
  have htake : buf.take (wrap32 buf.length) = buf := by
    rw [wrap32_of_lt (by omega), take_length]
  rw [htake] at hr hsplice
  rw [hsplice, length_splice] at hsize
  refine ⟨hn, ?_, ?_⟩
  · by_contra hsome
    obtain ⟨e, he⟩ := ne_none_iff_exists'.1 hsome
    have hneg := (mntGrow_some env he).1
    unfold nodeWriteAt at hr
    simp only [wrap32_of_lt (by omega : f.slowOff pos + buf.length < 2 ^ 32), he] at hr
    split at hr <;> injection hr <;> omega
  rw [← h2]
  exact hsplice

section

variable (hfit : f.node.Fits) (h : WritesFast env f buf.length pos)

include hfit h

theorem slowRw_write_matches (hm : WriteMatches env f buf.length pos) :
    slowRw env f (.write buf pos) = .ret buf.length ⟨{ f with
          node := f.node.copyIn (f.writeOff pos) buf
          off := if pos.isSome then f.off else f.writeOff pos + buf.length }, []⟩ := by
  obtain ⟨hfile, -⟩ := leavesAlone_write env h.alone
  have hcap := h.cap
  have hlt := hfit.cap
  have hn := hm.counts
  have hroom : f.slowOff pos + buf.length < f.node.cap := by
    have := hfit.room
    rcases slowOff_eq env hm with hz | heq
    · have := hm.filled hz
      omega
    · omega
  have hnode : ({ f.node with bytes := splice 0 f.node.bytes (f.slowOff pos) buf } : Node)
      = f.node.copyIn (f.writeOff pos) buf := by
    unfold Node.copyIn
    split
    next hnil =>
      subst hnil
      rw [splice_nil 0 (hm.filled rfl)]
    next hne =>
    rw [(slowOff_eq env hm).resolve_left fun hz => hne (eq_nil_of_length_eq_zero hz)]
  rw [slowRw_write_eq, wrap32_of_lt (by omega), wrap32_of_lt (by omega), take_length,
    nodeWriteAt_inside env hfit hfile hroom, hm.grows, hnode, intOf_of_lt hn]
  simp only [Int.toNat_natCast]
  congr 3
  cases pos with
  | some off => rfl
  | none =>
    have heq : f.slowOff none = f.writeOff none := rfl
    simp only [isSome_none, Bool.false_eq_true, if_false, heq]
    split <;> omega

theorem agrees_write_iff : Agrees env f (.write buf pos) ↔ WriteMatches env f buf.length pos := by
  have hcap := h.cap
  have hlt := hfit.cap
  have hroom := hfit.room
  by_cases hspin : pos = none ∧ f.append = true ∧ f.off ≠ f.node.size
  · obtain ⟨rfl, ha, hoff⟩ := hspin
    refine iff_of_false ?_ fun hm => hoff (by simpa using hm.atEnd ha)
    rintro ⟨k, hk⟩
    have := hk k le_rfl
    rwa [nbRw_append_spins env h ha hoff] at this
  have happend : pos = none → f.append = true → f.off = f.node.size := by
    intro hp ha
    by_contra hoff
    exact hspin ⟨hp, ha, hoff⟩
  rw [agrees_ret env fun fuel => nbRw_write_fast env h hfit happend fuel]
  refine ⟨fun hslow => ?_, slowRw_write_matches env hfit h⟩
  have hoff : f.slowOff pos < 2 ^ 32 := by
    unfold OpenFile.slowOff
    by_cases ha : f.append = true
    · rw [if_pos ha]
      omega
    simp only [OpenFile.writeOff, if_neg ha] at hcap ⊢
    omega
  obtain ⟨hn, hgrows, hbytes⟩ := slowRw_write_ret env hfit hoff hslow
  have hlen := congrArg List.length hbytes
  rw [length_splice] at hlen
  simp only [Node.copyIn] at hlen
  refine ⟨hn, hgrows, fun ha => ?_, fun hz => ?_⟩
  · cases pos with
    | none => simpa using happend rfl ha
    | some off =>
      simp only [isSome_some, if_true, some.injEq]
      by_cases hnil : buf = []
      · exact .inl (by simp [hnil])
      simp only [hnil, if_false, length_splice, OpenFile.writeOff, getD_some,
        OpenFile.slowOff, ha, if_true, Node.size] at hlen ⊢
      omega
  have hnil := eq_nil_of_length_eq_zero hz
  simp only [hnil, if_true, length_nil] at hlen
  unfold Node.size
  omega

end

end

/-! ## Reads -/

def OpenFile.readOff (f : OpenFile) (pos : Option Nat) : Nat := pos.getD f.off

def OpenFile.avail (f : OpenFile) (n : Nat) (pos : Option Nat) : Nat :=
  min (f.node.size - f.readOff pos) n

structure ReadsFast (env : Env) (f : OpenFile) (n : Nat) (pos : Option Nat) : Prop where
  alone : leavesAlone env f false = false
  bound : pos = none → f.off + f.avail n none ≤ 0xFFFFF000

def ReadMatches (f : OpenFile) (n : Nat) (pos : Option Nat) : Prop :=
  f.avail (wrap32 n) pos = f.avail n pos ∧ f.avail n pos < 2 ^ 31

theorem readLoop_eq {nd : Node} {off k fuel : Nat} {out : List Byte} (hhere : nd.here = true)
    (hpc : nd.pc = false) (hlazy : nd.lazy = false) (hroom : nd.cap = 0 ∨ nd.size < nd.cap)
    (hk : off + k ≤ nd.size) (hle : out.length ≤ k)
    (hout : out = (nd.bytes.drop off).take out.length) (hfuel : k ≤ out.length + fuel) :
    readLoop nd off k fuel out = ((nd.bytes.drop off).take k, false) := by
  induction fuel generalizing out with
  | zero =>
    obtain rfl : out.length = k := by omega
    rw [readLoop, ← hout]
  | succ fuel ih =>
    rw [readLoop]
    by_cases hend : k ≤ out.length
    · obtain rfl : out.length = k := by omega
      rw [if_pos le_rfl, ← hout]
    have hlim : off + k ≤ if nd.cap = 0 then nd.size else nd.cap - 1 := by
      split <;> omega
    rw [if_neg hend, if_neg (by simp [hhere, hpc, hlazy])]
    rw [if_neg (by omega), Nat.min_eq_left (by omega)]
    generalize hc : min (k - out.length) 2048 = c
    have hlen : ((nd.bytes.drop (off + out.length)).take c).length = c := by
      rw [length_take, length_drop]
      unfold Node.size at hk
      omega
    have hnext : (out ++ (nd.bytes.drop (off + out.length)).take c).length = out.length + c := by
      rw [length_append, hlen]
    refine ih (by omega) ?_ (by omega)
    rw [hnext, take_add, ← hout, drop_drop]

theorem leavesAlone_read (h : leavesAlone env f false = false) :
    f.node.pc = false ∧ f.node.lazy = false := by
  simp only [leavesAlone, Bool.false_and, Bool.or_false, Bool.or_eq_false_iff] at h
  tauto

section

variable {n : Nat} {pos : Option Nat}

theorem span_read (off : Nat) : span env f false n off = some (min (f.node.size - off) n) := by
  simp only [span, Bool.false_eq_true, if_false, some.injEq]
  split
  next h => simp [Nat.sub_eq_zero_of_le h]
  · rfl

theorem nbRw_read_slow (h : ¬ReadsFast env f n pos) (fuel : Nat) :
    nbRw env (fuel + 1) f (.read n pos) = .slow f := by
  unfold nbRw
  simp only [Req.pos]
  split
  · rfl
  next halone =>
  have halone : leavesAlone env f false = false := by simpa using halone
  cases pos with
  | some off => exact absurd ⟨halone, by simp⟩ h
  | none =>
    have hfar : 0xFFFFF000 < f.off + min (f.node.size - f.off) n := by
      by_contra hle
      exact h ⟨halone, fun _ => Nat.le_of_not_lt hle⟩
    simp only [claim, Bool.false_and, Bool.false_eq_true, if_false, span_read]
    rw [if_pos hfar]

theorem nbRw_read_fast (h : ReadsFast env f n pos) (hfit : f.node.Fits) (fuel : Nat) :
    nbRw env (fuel + 1) f (.read n pos) = .ret (f.avail n pos)
      ⟨{ f with off := if pos.isSome then f.off else f.readOff pos + f.avail n pos },
        (f.node.bytes.drop (f.readOff pos)).take (f.avail n pos)⟩ := by
  obtain ⟨hpc, hlazy⟩ := leavesAlone_read env h.alone
  have hread : readLoop f.node (f.readOff pos) (f.avail n pos) (f.avail n pos + 1) []
      = ((f.node.bytes.drop (f.readOff pos)).take (f.avail n pos), false) := by
    by_cases hzero : f.avail n pos = 0
    · rw [hzero, readLoop, if_pos (by simp), take_zero]
    have hsize : f.readOff pos + f.avail n pos ≤ f.node.size := by
      unfold OpenFile.avail at hzero ⊢
      omega
    have hhere : f.node.here = true := by
      by_contra hnot
      have hnil := (hfit.here (by simpa using hnot)).1
      simp [OpenFile.avail, Node.size, hnil] at hzero
    exact readLoop_eq hhere hpc hlazy hfit.room hsize (Nat.zero_le _) rfl (by simp)
  have hlen : ((f.node.bytes.drop (f.readOff pos)).take (f.avail n pos)).length
      = f.avail n pos := by
    rw [length_take, length_drop]
    unfold OpenFile.avail Node.size
    omega
  have hcopy : nbCopy f (.read n pos) (f.readOff pos) (f.avail n pos) = .ret (f.avail n pos)
      ⟨{ f with off := if pos.isSome then f.off else f.readOff pos + f.avail n pos },
        (f.node.bytes.drop (f.readOff pos)).take (f.avail n pos)⟩ := by
    unfold nbCopy
    simp only [hread, hlen, Req.pos, Nat.sub_self, Nat.sub_zero, Bool.false_and,
      Bool.false_eq_true, if_false]
  unfold nbRw
  simp only [h.alone, Req.pos]
  cases pos with
  | some off =>
    simp only [span_read]
    exact hcopy
  | none =>
    have hbound := h.bound rfl
    have hclaim : claim env f false n (fuel + 1) = some (some (f.off, f.avail n none)) := by
      simp only [claim, Bool.false_and, Bool.false_eq_true, if_false, span_read, if_true]
      exact if_neg (Nat.not_lt.2 hbound)
    simp only [hclaim]
    exact hcopy

theorem fileRead_eq (hfit : f.node.Fits) : fileRead f n = .ret (intOf (f.avail (wrap32 n) none))
      ⟨{ f with off := f.off + f.avail (wrap32 n) none },
        (f.node.bytes.drop f.off).take (f.avail (wrap32 n) none)⟩ := by
  have hsize := hfit.size
  unfold fileRead
  split
  next hend =>
    have hzero : f.avail (wrap32 n) none = 0 := by
      simp [OpenFile.avail, OpenFile.readOff, Nat.sub_eq_zero_of_le hend]
    rw [hzero]
    rfl
  rw [wrap32_of_lt (by omega : f.node.size - f.off < 2 ^ 32)]
  rfl

theorem slowRw_read (hfit : f.node.Fits) :
    slowRw env f (.read n pos) = .ret (intOf (f.avail (wrap32 n) pos))
      ⟨{ f with off := if pos.isSome then f.off else f.readOff pos + f.avail (wrap32 n) pos },
        (f.node.bytes.drop (f.readOff pos)).take (f.avail (wrap32 n) pos)⟩ := by
  have hfile : fileRead { f with off := pos.getD f.off } n = _ := fileRead_eq hfit
  unfold slowRw
  simp only [Req.pos]
  rw [hfile]
  cases pos <;> rfl

theorem agrees_read_iff (hfit : f.node.Fits) (h : ReadsFast env f n pos) :
    Agrees env f (.read n pos) ↔ ReadMatches f n pos := by
  rw [agrees_ret env fun fuel => nbRw_read_fast env h hfit fuel, slowRw_read env hfit]
  constructor
  · intro heq
    injection heq with hret hdone
    have hint := intOf_lt (f.avail (wrap32 n) pos)
    have hlt : f.avail n pos < 2 ^ 31 := by omega
    have hle : f.avail (wrap32 n) pos ≤ f.avail n pos := by
      unfold OpenFile.avail wrap32
      omega
    rw [intOf_of_lt (by omega)] at hret
    exact ⟨by exact_mod_cast hret, hlt⟩
  rintro ⟨heq, hlt⟩
  rw [heq, intOf_of_lt hlt]

end

end

def Taken (env : Env) (f : OpenFile) : Req → Prop
  | .read n pos => ReadsFast env f n pos
  | .write buf pos => WritesFast env f buf.length pos

def Matches (env : Env) (f : OpenFile) : Req → Prop
  | .read n pos => ReadMatches f n pos
  | .write buf pos => WriteMatches env f buf.length pos

theorem Taken.fits {env : Env} {f : OpenFile} {req : Req} (h : Taken env f req)
    (hfit : f.node.lazy = false → f.node.Fits) : f.node.Fits := by
  cases req with
  | read n pos => exact hfit (leavesAlone_read env h.alone).2
  | write buf pos => exact hfit (leavesAlone_write env h.alone).2.2.1

/-- An append to a file whose offset was left at the start. -/
theorem append_spins :
    ¬Agrees calm { emptied 64 with append := true, node := { bytes := [1], cap := 64 } }
      (.write [2] none) := by
  have hfast : WritesFast calm
      { emptied 64 with append := true, node := { bytes := [1], cap := 64 } } 1 none :=
    ⟨rfl, fun _ _ => rfl, by simp [calm], by decide, by decide⟩
  rintro ⟨k, hk⟩
  have := hk k le_rfl
  rwa [nbRw_append_spins calm hfast rfl (by decide)] at this

end SamaraOS.File
