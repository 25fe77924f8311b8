import SamaraOS.Proc.Memfd

/-!
# Bytes behind the end of a memory file

A shrink leaves the frames as they are, and growing again shows what was there.  The buffer of
the node is cleared from the old end on as it grows, but not by a write that goes to the frames.
-/

namespace SamaraOS.Seals

variable {m m' : Memfd} {cut : Nat → Prop} {len off : UInt64} {i room : Nat}
  {buf : List UInt8} {op : Op}

/-- The bytes that a call stores. -/
def Op.hits (m : Memfd) (i : Nat) : Op → Prop
  | .write writable append off buf room =>
    let off := if append then m.size else off
    writable ∧ m.has 24 = false ∧ off.toNat ≤ i ∧ i < off.toNat + min buf.length room
  | .writeFast off buf room =>
    m.data.isSome ∧ (m.seals = 0 ∧ off.toNat + buf.length < room) ∧ off.toNat ≤ i ∧
      i < off.toNat + buf.length
  | .store pd va off _ =>
    ∃ p ∈ m.ptes.find? fun p => p.pd = pd && p.va = va,
      (p.rw && p.shared && decide (off < pageSize)) ∧ i = p.page * pageSize + off
  | _ => False

/-- Behind the end at some shrink and not stored to since. -/
def cutAfter (m : Memfd) (op : Op) (cut : Nat → Prop) (i : Nat) : Prop :=
  ¬ op.hits m i ∧ (cut i ∨ (next m op).size < m.size ∧ (next m op).size.toNat ≤ i)

def Cut : Memfd → (Nat → Prop) → List Op → Nat → Prop
  | _, cut, [] => cut
  | m, cut, op :: ops => Cut (next m op) (cutAfter m op cut) ops

/-- Through a mapping or `shm_rw`, and through the buffer. -/
def ReadsZero (m : Memfd) (i : Nat) : Prop :=
  m.frames i = 0 ∧ (i < m.size.toNat → ∀ d ∈ m.data, d i = 0)

/-! ## The condition -/

def cutAt (m : Memfd) (len : UInt64) : UInt64 :=
  if 0x100000 < len ∧ m.data.isNone then len else low32 len

def Bare (m : Memfd) (len : UInt64) : Prop := len < m.size → ∀ i, len.toNat ≤ i → m.frames i = 0

def Fresh (m : Memfd) (cut : Nat → Prop) (junk : Nat → UInt8) : Prop :=
  m.data = none → ∀ i, cut i → i < m.size.toNat → junk i = 0

def Careful (m : Memfd) (cut : Nat → Prop) : Op → Prop
  | .write _ append off _ _ =>
    append = false → ∀ d ∈ m.data, ∀ i, cut i → m.size.toNat ≤ i → i < off.toNat → d i = 0
  | .ftruncate len junk _ => Bare m (cutAt m len) ∧ Fresh m cut junk
  | .fallocate .. => False
  | _ => True

def CarefulRun : Memfd → (Nat → Prop) → List Op → Prop
  | _, _, [] => True
  | m, cut, op :: ops => Careful m cut op ∧ CarefulRun (next m op) (cutAfter m op cut) ops

/-! ## One call -/

theorem overwrite_other {f : Nat → UInt8} {off : Nat} (h : ¬ (off ≤ i ∧ i < off + buf.length)) : overwrite f off buf i = f i := by
  unfold overwrite
  split
  next hle =>
    rw [List.getElem?_eq_none (by omega)]
    rfl
  · rfl

theorem grown_not_lt {e : UInt64} : ¬ (if m.size < e then e else m.size) < m.size := by
  rw [UInt64.not_lt]
  split
  next hlt => exact UInt64.le_of_lt hlt
  · exact UInt64.le_refl _

theorem grown_lt {n : Nat} (hold : ¬ i < m.size.toNat)
    (h : i < (if m.size < off + n.toUInt64 then off + n.toUInt64 else m.size).toNat) :
    i < off.toNat + n := by
  split at h
  · refine Nat.lt_of_lt_of_le h ?_
    exact Nat.le_trans (Nat.mod_le _ _) (Nat.add_le_add_left (Nat.mod_le _ _) _)
  · exact absurd h hold

/-- What a call leaves alone: the frames where it does not store, the size unless it is cut, and
the zeros of the buffer. -/
structure Leaves (m m' : Memfd) (cut : Nat → Prop) (i : Nat) : Prop where
  frames : m'.frames i = m.frames i
  size : m'.size < m.size → m'.size.toNat ≤ i → m.frames i = 0
  data : cut i → ReadsZero m i → i < m'.size.toNat → ∀ d ∈ m'.data, d i = 0

theorem Leaves.of_eq (hf : m'.frames i = m.frames i) (hs : m'.size = m.size)
    (hd : m'.data = m.data) : Leaves m m' cut i where
  frames := hf
  size h := absurd h (by rw [hs]; exact UInt64.lt_irrefl _)
  data _ hz hi := by
    rw [hs] at hi
    rw [hd]
    exact hz.2 hi

theorem Leaves.refl : Leaves m m cut i := .of_eq rfl rfl rfl

theorem nodeTruncate_leaves {junk : Nat → UInt8} (mem : Bool) (hbare : Bare m (low32 len))
    (hfresh : Fresh m cut junk) : Leaves m (finalState (nodeTruncate len junk mem m)) cut i := by
  simp only [nodeTruncate]
  split
  · exact .refl
  refine ⟨rfl, fun hlt hi => hbare hlt i hi, fun hc hz hi d' hd' => ?_⟩
  obtain ⟨d, hd, rfl⟩ := Option.map_eq_some_iff.1 hd'
  -- the byte that is cleared at the new end is not below it
  change i < (low32 len).toNat at hi
  rw [show zeroFrom d _ _ i = d i from if_neg fun h => Nat.not_lt.2 h.1 hi]
  split at hd
  · cases hd
    by_cases hge : m.size.toNat ≤ i
    · exact if_pos ⟨hge, hi⟩
    rw [show zeroFrom _ _ _ i = _ from if_neg fun h => hge h.1]
    cases hm : m.data with
    | none => exact hfresh hm i hc (by omega)
    | some d => exact hz.2 (by omega) d hm
  next hle => exact hz.2 (Nat.lt_of_lt_of_le hi (UInt64.not_lt.1 hle)) d hd

theorem write_leaves {writable append : Bool}
    (hc : Careful m cut (.write writable append off buf room))
    (hit : ¬ (Op.write writable append off buf room).hits m i) :
    Leaves m (next m (.write writable append off buf room)) cut i := by
  simp only [Op.hits] at hit
  simp only [next, Op.call, doWrite]
  split
  swap
  · exact .refl
  next hw =>
  have hgap : ∀ d ∈ m.data, cut i → m.size.toNat ≤ i →
      i < (if append then m.size else off).toNat → d i = 0 := by
    intro d hd hci hle hlt
    cases append with
    | true => exact absurd hlt (Nat.not_lt.2 hle)
    | false => exact hc rfl d hd i hci hle hlt
  simp only [write]
  generalize (if append then m.size else off) = off at hit hgap ⊢
  split
  · exact .refl
  next hseal =>
  rw [Bool.not_eq_true] at hseal
  split
  · exact .refl
  split
  next hroom =>
    refine .of_eq (overwrite_other fun h => hit ⟨hw, hseal, h.1, ?_⟩) rfl rfl
    rw [Nat.min_comm, ← List.length_take]
    exact h.2
  next hroom =>
  have hmiss : ¬ (off.toNat ≤ i ∧ i < off.toNat + buf.length) := fun h =>
    hit ⟨hw, hseal, h.1, by omega⟩
  refine ⟨overwrite_other hmiss, fun h => absurd h grown_not_lt, fun hci hz hi d hd => ?_⟩
  by_cases hold : i < m.size.toNat
  · exact hz.2 hold d hd
  refine hgap d hd hci (by omega) ?_
  have := grown_lt hold hi
  omega

theorem writeFast_leaves (hit : ¬ (Op.writeFast off buf room).hits m i) :
    Leaves m (next m (.writeFast off buf room)) cut i := by
  simp only [next, Op.call, writeFast]
  split
  swap
  · exact .refl
  next d hd =>
  split
  swap
  · exact .refl
  next hc =>
  have hmiss : ¬ (off.toNat ≤ i ∧ i < off.toNat + buf.length) := fun h =>
    hit ⟨by rw [hd]; rfl, hc, h⟩
  refine ⟨rfl, fun h => absurd h grown_not_lt, fun _ hz hi d' hd' => ?_⟩
  cases hd'
  rw [overwrite_other hmiss]
  unfold zeroFrom
  split
  · rfl
  next hgap =>
  refine hz.2 (Nat.not_le.1 fun hle => ?_) d hd
  have := grown_lt (Nat.not_lt.2 hle) hi
  omega

theorem store_leaves {pd va off : Nat} {b : UInt8} (hit : ¬ (Op.store pd va off b).hits m i) :
    Leaves m (next m (.store pd va off b)) cut i := by
  simp only [next, Op.call, store]
  split
  next p hp =>
    split
    next hc =>
      refine .of_eq (overwrite_other fun h => hit ⟨p, hp, hc, ?_⟩) rfl rfl
      simp only [List.length_singleton] at h
      omega
    · exact .refl
  · exact .refl

theorem next_leaves (hc : Careful m cut op) (hit : ¬ op.hits m i) :
    Leaves m (next m op) cut i := by
  cases op with
  | write => exact write_leaves hc hit
  | writeFast => exact writeFast_leaves hit
  | store => exact store_leaves hit
  | ftruncate len junk mem =>
    obtain ⟨hbare, hfresh⟩ := hc
    simp only [next, Op.call, ftruncate]
    unfold cutAt at hbare
    split
    · exact .refl
    split
    next hbig =>
      rw [if_pos hbig] at hbare
      refine ⟨rfl, fun hlt hi => hbare hlt i hi, fun _ _ _ d hd => ?_⟩
      rw [Option.isNone_iff_eq_none.1 hbig.2] at hd
      cases hd
    next hbig =>
    rw [if_neg hbig] at hbare
    exact nodeTruncate_leaves mem hbare hfresh
  | fallocate => exact hc.elim
  | munmap | mprotect | fork => exact .of_eq rfl rfl rfl
  | addSeals =>
    simp only [next, Op.call, addSeals]
    split
    · exact .refl
    · exact .of_eq rfl rfl rfl
  | mmap =>
    simp only [next, Op.call, mmap]
    split
    · exact .of_eq rfl rfl rfl
    · split <;> exact .of_eq rfl rfl rfl

theorem next_readsZero (hc : Careful m cut op) (h : ∀ i, cut i → ReadsZero m i)
    (hi : cutAfter m op cut i) : ReadsZero (next m op) i := by
  have hl := next_leaves hc hi.1
  rcases hi.2 with hcut | ⟨hlt, hle⟩
  · exact ⟨hl.frames.trans (h i hcut).1, hl.data hcut (h i hcut)⟩
  · exact ⟨hl.frames.trans (hl.size hlt hle), fun h => absurd h (Nat.not_lt.2 hle)⟩

/-! ## Runs -/

theorem run_readsZero {ops : List Op} (hrun : CarefulRun m cut ops)
    (h : ∀ i, cut i → ReadsZero m i) : ∀ i, Cut m cut ops i → ReadsZero (ops.foldl next m) i := by
  induction ops generalizing m cut with
  | nil => exact h
  | cons op ops ih => exact ih hrun.2 fun i => next_readsZero hrun.1 h

/-- Every byte behind the end of a shrunken file reads as zero until it is written again, if the
frames hold nothing there at the shrink. -/
theorem truncated_reads_zero (m : Memfd) (ops : List Op)
    (h : CarefulRun m (fun _ => False) ops) :
    ∀ i, Cut m (fun _ => False) ops i → ReadsZero (ops.foldl next m) i :=
  run_readsZero h fun _ => False.elim

theorem truncated_reads_zero_grown :
    ReadsZero ([.write true false 0 [7, 0] 2, .ftruncate 1 (fun _ => 5) true,
      .ftruncate 3 (fun _ => 5) true].foldl next (create 2)) 1 := by
  refine truncated_reads_zero (create 2) _ ?_ 1
    ⟨id, .inl ⟨id, .inr ⟨by decide, by decide⟩⟩⟩
  refine ⟨?_, ⟨?_, ?_⟩, ⟨?_, ?_⟩, trivial⟩
  · rintro - d ⟨⟩
  · rintro - i hi
    match i, hi with
    | 1, _ => rfl
    | _ + 2, _ => rfl
  · rintro - i ⟨-, h | ⟨h, -⟩⟩
    · exact h.elim
    · exact absurd h (by decide)
  · exact fun h => absurd h (by decide)
  rintro - i ⟨-, ⟨-, h | ⟨h, -⟩⟩ | ⟨-, h⟩⟩ hi
  · exact h.elim
  · exact absurd h (by decide)
  · exact absurd hi (Nat.not_lt.2 h)

/-- A byte that was cut off is back when the file grows again. -/
theorem truncated_byte_back :
    ∃ ops i, Cut (create 2) (fun _ => False) ops i ∧ i < (ops.foldl next (create 2)).size.toNat ∧
      (ops.foldl next (create 2)).frames i = 7 := by
  refine ⟨[.write true false 0 [7] 1, .ftruncate 0 (fun _ => 0) true,
    .ftruncate 1 (fun _ => 0) true], 0, ⟨id, .inl ⟨id, .inr ?_⟩⟩, ?_, ?_⟩
  all_goals decide

end SamaraOS.Seals
