import SamaraOS.Proc.Memfd

/-!
# What the seals of a memory file keep

`F_ADD_SEALS` does not look for writable mappings and `mprotect` does not look at the seals.
A write and `fallocate` may grow a file with `F_SEAL_GROW`, and a length of more than 32 bits
passes the check for `F_SEAL_SHRINK` and is cut afterwards.  A run without these steps keeps
every seal.
-/

namespace SamaraOS.Seals

open Option

structure Holds (m m' : Memfd) : Prop where
  seals : ∀ s, m.has s → m'.has s
  frames : m.has sealWrite → m'.frames = m.frames
  contents : m.has sealWrite → ∀ i, i < m.size.toNat → i < m'.size.toNat → view m' i = view m i
  shrink : m.has sealShrink → m.size ≤ m'.size
  grow : m.has sealGrow → m'.size ≤ m.size

/-- `F_SEAL_WRITE` is not taken while there is a writable shared mapping. -/
def Refuses (m : Memfd) : Op → Prop
  | .addSeals arg =>
    arg.toUInt8 &&& sealWrite ≠ 0 → WritableShared m → Seals.addSeals arg m = .error .eperm m
  | _ => True

def HoldsRun : Memfd → List Op → Prop
  | _, [] => True
  | m, op :: ops => Refuses m op ∧ Holds m (next m op) ∧ HoldsRun (next m op) ops

def CutSafe (m : Memfd) (len : UInt64) : Prop :=
  (m.has sealShrink → m.size ≤ low32 len) ∧ (m.has sealGrow → low32 len ≤ m.size) ∧
    (m.has sealWrite → m.data.isSome ∨ m.size = 0 ∨ low32 len ≤ m.size)

def Respects (m : Memfd) : Op → Prop
  | .addSeals arg =>
    m.has sealSeal = false → arg.toUInt8 &&& sealWrite ≠ 0 → ¬ WritableShared m
  | .write writable append off buf _ =>
    writable → m.has 24 = false → buf ≠ [] → m.has sealGrow →
      (if append then m.size else off) + buf.length.toUInt64 ≤ m.size
  | .ftruncate len _ _ =>
    truncRefused m len = false → ¬ (0x100000 < len ∧ m.data.isNone) → CutSafe m len
  | .fallocate writable mode off len _ _ =>
    mode = 0 ∨ fallocCheck writable mode off len = .ok () →
      (mode &&& 1 = 0 → m.size < off + len → CutSafe m (off + len)) ∧
      (mode &&& (2 ||| 16) ≠ 0 → m.has sealWrite → m.data.isNone ∨ m.size ≤ off)
  | .mprotect pd lo hi rw =>
    rw → m.has sealWrite → ∀ p ∈ m.ptes, p.within pd lo hi → p.shared = false
  | _ => True

def RespectsRun : Memfd → List Op → Prop
  | _, [] => True
  | m, op :: ops => Respects m op ∧ RespectsRun (next m op) ops

def Inv (m : Memfd) : Prop := m.has sealWrite → ¬ WritableShared m

theorem has_or (s a b : UInt8) : (s ||| a) &&& b = (s &&& b) ||| (a &&& b) := by
  apply UInt8.toNat_inj.1
  simp only [UInt8.toNat_and, UInt8.toNat_or, Nat.and_or_distrib_right]

variable {m : Memfd} {len off : UInt64} {op : Op}

theorem Memfd.has_write (h : m.has sealWrite) : m.has 24 := by
  have hmask : m.seals &&& sealWrite = (m.seals &&& 24) &&& sealWrite := by
    rw [UInt8.and_assoc]
    rfl
  simp only [Memfd.has, bne_iff_ne, ne_eq] at h ⊢
  intro h0
  rw [hmask, h0] at h
  exact h UInt8.zero_and

theorem view_zeroFrom {d : Nat → UInt8} {lo hi i : Nat} (h : i < lo) : zeroFrom d lo hi i = d i :=
  if_neg (by omega)

theorem Holds.refl (m : Memfd) : Holds m m where
  seals _ h := h
  frames _ := rfl
  contents _ _ _ _ := rfl
  shrink _ := UInt64.le_refl _
  grow _ := UInt64.le_refl _

theorem Holds.of_ptes (m : Memfd) (ptes : List Pte) : Holds m { m with ptes := ptes } where
  seals _ h := h
  frames _ := rfl
  contents _ _ _ _ := rfl
  shrink _ := UInt64.le_refl _
  grow _ := UInt64.le_refl _

theorem Holds.of_frames (f : Nat → UInt8) (h : m.has sealWrite = false) :
    Holds m { m with frames := f } where
  seals _ h := h
  frames hw := by simp [h] at hw
  contents hw := by simp [h] at hw
  shrink _ := UInt64.le_refl _
  grow _ := UInt64.le_refl _

/-! ## Descriptors -/

theorem addSeals_holds (arg : UInt64) (m : Memfd) : Holds m (next m (.addSeals arg)) := by
  simp only [next, Op.call, addSeals]
  split
  · exact .refl m
  refine ⟨?_, fun _ => rfl, fun _ _ _ _ => rfl, fun _ => UInt64.le_refl _,
    fun _ => UInt64.le_refl _⟩
  intro s hs
  simp only [Memfd.has, finalState, bne_iff_ne, ne_eq] at hs ⊢
  rw [has_or, UInt8.or_eq_zero_iff]
  exact fun h => hs h.1

theorem write_holds {writable append : Bool} {buf : List UInt8}
    {room : Nat} (h : Respects m (.write writable append off buf room)) :
    Holds m (next m (.write writable append off buf room)) := by
  simp only [next, Op.call, doWrite]
  split
  swap
  · exact .refl m
  next hw =>
  simp only [Respects] at h
  simp only [Seals.write]
  generalize (if append then m.size else off) = off at h ⊢
  split
  · exact .refl m
  next h24 =>
  have hnw : m.has sealWrite = false := by
    cases hm : m.has sealWrite with
    | false => rfl
    | true => exact absurd (Memfd.has_write hm) h24
  split
  · exact .refl m
  next hbuf =>
  split
  · exact .of_frames _ hnw
  have hgrow := h hw (by simpa using h24) hbuf
  refine ⟨fun _ h => h, fun hw => by simp [hnw] at hw, fun hw => by simp [hnw] at hw,
    fun _ => ?_, fun hg => ?_⟩
  · simp only [finalState]
    split
    next hlt => exact UInt64.le_of_lt hlt
    · exact UInt64.le_refl _
  rw [if_neg (UInt64.not_lt.2 (hgrow hg))]
  exact UInt64.le_refl _

theorem writeFast_holds (m : Memfd) (off : UInt64) (buf : List UInt8) (room : Nat) :
    Holds m (next m (.writeFast off buf room)) := by
  simp only [next, Op.call, writeFast]
  split
  swap
  · exact .refl m
  next d hd =>
  split
  next hc =>
    have hnone : ∀ s, m.has s = false := by
      intro s
      simp [Memfd.has, hc.1]
    constructor <;> intros <;> simp_all
  · exact .refl m

theorem nodeTruncate_holds (h : CutSafe m len) (junk : Nat → UInt8)
    (mem : Bool) : Holds m (finalState (nodeTruncate len junk mem m)) := by
  obtain ⟨hshrink, hgrow, hwrite⟩ := h
  simp only [nodeTruncate]
  split
  · exact .refl m
  refine ⟨fun _ h => h, fun _ => rfl, fun hw i hi hi' => ?_, hshrink, hgrow⟩
  -- behind the new end the buffer may change, below it only a buffer that is new differs
  simp only [finalState, view] at hi' ⊢
  cases hd : m.data with
  | some d =>
    split
    · simp only [map_some, getD_some]
      rw [view_zeroFrom hi', view_zeroFrom hi]
    simp only [map_some, getD_some]
    rw [view_zeroFrom hi']
  | none =>
    rcases hwrite hw with hsome | hzero | hle
    · simp [hd] at hsome
    · rw [hzero] at hi
      exact absurd hi (Nat.not_lt_zero i)
    rw [if_neg (UInt64.not_lt.2 hle)]
    rfl

theorem ftruncate_holds {junk : Nat → UInt8} {mem : Bool}
    (h : Respects m (.ftruncate len junk mem)) : Holds m (next m (.ftruncate len junk mem)) := by
  simp only [next, Op.call, ftruncate]
  split
  · exact .refl m
  next href =>
  have href : truncRefused m len = false := by simpa using href
  split
  swap
  next hbig => exact nodeTruncate_holds (h href hbig) junk mem
  next hbig =>
  simp only [truncRefused, Bool.or_eq_false_iff, Bool.and_eq_false_iff,
    decide_eq_false_iff_not] at href
  refine ⟨fun _ h => h, fun _ => rfl, fun _ _ _ _ => rfl, fun hs => ?_, fun hg => ?_⟩
  · rcases href.1 with hno | hle
    · simp [hs] at hno
    · exact UInt64.not_lt.1 hle
  rcases href.2 with hno | hle
  · simp [hg] at hno
  · exact UInt64.not_lt.1 hle

theorem extend_holds {e : UInt64} (h : m.size < e → CutSafe m e) (junk : Nat → UInt8)
    (mem : Bool) : Holds m (finalState (extend e junk mem m)) := by
  simp only [extend]
  split
  next hlt => exact nodeTruncate_holds (h hlt) junk mem
  · exact .refl m

theorem punch_holds {mode : UInt64}
    (h : mode &&& (2 ||| 16) ≠ 0 → m.has sealWrite → m.data.isNone ∨ m.size ≤ off) :
    Holds m (punch mode off len m) := by
  simp only [punch]
  split
  swap
  · exact .refl m
  next hmode =>
  refine ⟨fun _ h => h, fun _ => rfl, fun hw i hi _ => ?_, fun _ => UInt64.le_refl _,
    fun _ => UInt64.le_refl _⟩
  simp only [view]
  cases hd : m.data with
  | none => rfl
  | some d =>
    rcases h hmode hw with hnone | hoff
    · simp [hd] at hnone
    -- the hole starts behind the end
    have hmin : min off m.size = m.size := by
      rw [UInt64.min_def]
      split
      next hle => exact UInt64.le_antisymm hle hoff
      · rfl
    simp only [map_some, getD_some, hmin]
    exact view_zeroFrom hi

section

variable (mode off len : UInt64) (m : Memfd)

theorem punch_has (s : UInt8) : (punch mode off len m).has s = m.has s := by
  simp only [punch]
  split <;> rfl

theorem punch_size : (punch mode off len m).size = m.size := by
  simp only [punch]
  split <;> rfl

theorem punch_isSome : (punch mode off len m).data.isSome = m.data.isSome := by
  simp only [punch]
  split
  · simp only [isSome_map]
  · rfl

end

theorem CutSafe.punch {e : UInt64} (h : CutSafe m e) (mode off len : UInt64) :
    CutSafe (punch mode off len m) e := by
  simpa only [CutSafe, punch_has, punch_size, punch_isSome] using h

theorem Holds.trans_same_size {m' m'' : Memfd} (h : Holds m m') (h' : Holds m' m'')
    (hsize : m'.size = m.size) : Holds m m'' where
  seals s hs := h'.seals s (h.seals s hs)
  frames hw := (h'.frames (h.seals _ hw)).trans (h.frames hw)
  contents hw i hi hi'' :=
    (h'.contents (h.seals _ hw) i (hsize ▸ hi) hi'').trans (h.contents hw i hi (hsize ▸ hi))
  shrink hs := hsize ▸ h'.shrink (h.seals _ hs)
  grow hg := hsize ▸ h'.grow (h.seals _ hg)

theorem fallocate_holds {writable : Bool} {mode : UInt64}
    {junk : Nat → UInt8} {mem : Bool} (h : Respects m (.fallocate writable mode off len junk mem)) :
    Holds m (next m (.fallocate writable mode off len junk mem)) := by
  simp only [next, Op.call, fallocate]
  split
  next h0 => exact extend_holds ((h (.inl h0)).1 (by rw [h0]; rfl)) junk mem
  split
  · exact .refl m
  next hok =>
  obtain ⟨hcut, hhole⟩ := h (.inr hok)
  have hpunch : Holds m (punch mode off len m) := punch_holds hhole
  split
  next hkeep =>
    refine hpunch.trans_same_size (extend_holds ?_ junk mem) (punch_size ..)
    intro hlt
    rw [punch_size] at hlt
    exact (hcut hkeep hlt).punch mode off len
  · exact hpunch

theorem store_holds (hinv : Inv m) (pd va off : Nat) (b : UInt8) :
    Holds m (next m (.store pd va off b)) := by
  simp only [next, Op.call, store]
  split
  swap
  · exact .refl m
  next p hp =>
  split
  next hc =>
    apply Holds.of_frames
    cases hw : m.has sealWrite with
    | false => rfl
    | true =>
      simp only [Bool.and_eq_true] at hc
      exact absurd ⟨p, List.mem_of_find?_eq_some hp, hc.1.2, hc.1.1⟩ (hinv hw)
  · exact .refl m

theorem mmap_holds (m : Memfd) (pd va first n : Nat) (shared rw mem : Bool) :
    Holds m (next m (.mmap pd va first n shared rw mem)) := by
  simp only [next, Op.call, mmap]
  split
  · exact .of_ptes m _
  · split <;> exact .of_ptes m _

theorem next_holds (hinv : Inv m) (h : Respects m op) : Holds m (next m op) := by
  cases op with
  | addSeals arg => exact addSeals_holds arg m
  | write writable append off buf room => exact write_holds h
  | writeFast off buf room => exact writeFast_holds m off buf room
  | ftruncate len junk mem => exact ftruncate_holds h
  | fallocate writable mode off len junk mem => exact fallocate_holds h
  | mmap pd va first n shared rw mem => exact mmap_holds m pd va first n shared rw mem
  | munmap pd lo hi | mprotect pd lo hi rw | fork pd npd => exact .of_ptes m _
  | store pd va off b => exact store_holds hinv pd va off b

/-! ## No writable mapping of a sealed file -/

structure SameMaps (m m' : Memfd) : Prop where
  seals : m'.seals = m.seals
  ptes : m'.ptes = m.ptes

theorem SameMaps.inv {m' : Memfd} (h : SameMaps m m') (hinv : Inv m) : Inv m' := by
  simpa only [Inv, Memfd.has, WritableShared, h.seals, h.ptes] using hinv

section

variable (m : Memfd) (off len : UInt64) (junk : Nat → UInt8) (writable mem : Bool)

theorem nodeTruncate_sameMaps : SameMaps m (finalState (nodeTruncate len junk mem m)) := by
  simp only [nodeTruncate]
  split <;> exact ⟨rfl, rfl⟩

theorem extend_sameMaps (e : UInt64) (junk : Nat → UInt8) (mem : Bool) :
    SameMaps m (finalState (extend e junk mem m)) := by
  simp only [extend]
  split
  · exact nodeTruncate_sameMaps m e junk mem
  · exact ⟨rfl, rfl⟩

theorem write_sameMaps (append : Bool) (off : UInt64) (buf : List UInt8) (room : Nat) :
    SameMaps m (next m (.write writable append off buf room)) := by
  simp only [next, Op.call, doWrite]
  split
  · simp only [Seals.write]
    split
    · exact ⟨rfl, rfl⟩
    split
    · exact ⟨rfl, rfl⟩
    · split <;> exact ⟨rfl, rfl⟩
  · exact ⟨rfl, rfl⟩

theorem writeFast_sameMaps (buf : List UInt8) (room : Nat) :
    SameMaps m (next m (.writeFast off buf room)) := by
  simp only [next, Op.call, writeFast]
  split
  · split <;> exact ⟨rfl, rfl⟩
  · exact ⟨rfl, rfl⟩

theorem ftruncate_sameMaps : SameMaps m (next m (.ftruncate len junk mem)) := by
  simp only [next, Op.call, ftruncate]
  split
  · exact ⟨rfl, rfl⟩
  split
  · exact ⟨rfl, rfl⟩
  · exact nodeTruncate_sameMaps m len junk mem

theorem fallocate_sameMaps (mode off len : UInt64) (junk : Nat → UInt8) (mem : Bool) :
    SameMaps m (next m (.fallocate writable mode off len junk mem)) := by
  simp only [next, Op.call, fallocate]
  split
  · exact extend_sameMaps m _ junk mem
  split
  · exact ⟨rfl, rfl⟩
  have hpunch : SameMaps m (punch mode off len m) := by
    simp only [punch]
    split <;> exact ⟨rfl, rfl⟩
  split
  · have hext := extend_sameMaps (punch mode off len m) (off + len) junk mem
    exact ⟨hext.seals.trans hpunch.seals, hext.ptes.trans hpunch.ptes⟩
  · exact hpunch

theorem store_sameMaps (pd va off : Nat) (b : UInt8) :
    SameMaps m (next m (.store pd va off b)) := by
  simp only [next, Op.call, store]
  split
  · split <;> exact ⟨rfl, rfl⟩
  · exact ⟨rfl, rfl⟩

end

section

variable (hinv : Inv m)

include hinv

theorem addSeals_inv {arg : UInt64} (h : Respects m (.addSeals arg)) :
    Inv (next m (.addSeals arg)) := by
  simp only [next, Op.call, addSeals]
  split
  · exact hinv
  next hseal =>
  intro hw
  simp only [Memfd.has, finalState, bne_iff_ne, ne_eq] at hw
  rw [has_or, UInt8.or_eq_zero_iff] at hw
  by_cases hold : m.seals &&& sealWrite = 0
  · exact h (by simpa using hseal) fun hno => hw ⟨hold, hno⟩
  · exact hinv (by simpa [Memfd.has] using hold)

theorem freeRange_inv (pd lo hi : Nat) : Inv (freeRange pd lo hi m) := by
  intro hw hws
  obtain ⟨p, hp, hsh⟩ := hws
  exact hinv hw ⟨p, List.mem_of_mem_filter hp, hsh⟩

theorem mmap_inv (pd va first n : Nat) (shared rw mem : Bool) :
    Inv (next m (.mmap pd va first n shared rw mem)) := by
  have hfree := freeRange_inv hinv pd va (va + n * pageSize)
  simp only [next, Op.call, mmap]
  split
  · exact hfree
  next hseal =>
  split
  · exact hfree
  intro hw hws
  obtain ⟨p, hp, hsh, hrw⟩ := hws
  simp only [finalState, List.mem_append, List.mem_map] at hp
  rcases hp with ⟨k, -, rfl⟩ | hold
  · have hw : (freeRange pd va (va + n * pageSize) m).has sealWrite := hw
    simp_all
  · exact hfree hw ⟨p, hold, hsh, hrw⟩

theorem mprotect_inv {pd lo hi : Nat} {rw : Bool} (h : Respects m (.mprotect pd lo hi rw)) :
    Inv (next m (.mprotect pd lo hi rw)) := by
  intro hw hws
  obtain ⟨p', hp', hsh, hrw⟩ := hws
  obtain ⟨p, hp, rfl⟩ := List.mem_map.1 hp'
  by_cases hin : p.within pd lo hi
  · rw [if_pos hin] at hsh hrw
    have hno : p.shared = false := h hrw hw p hp hin
    exact absurd hsh (by simp [hno])
  rw [if_neg hin] at hsh hrw
  exact hinv hw ⟨p, hp, hsh, hrw⟩

theorem fork_inv (pd npd : Nat) : Inv (next m (.fork pd npd)) := by
  intro hw hws
  obtain ⟨p', hp', hsh, hrw⟩ := hws
  simp only [next, Op.call, fork, finalState, List.mem_append, List.mem_map, List.mem_filter] at hp'
  rcases hp' with ⟨p, ⟨hp, -⟩, rfl⟩ | hold
  · exact hinv hw ⟨p, hp, hsh, hrw⟩
  · exact hinv hw ⟨p', hold, hsh, hrw⟩

theorem next_inv (h : Respects m op) : Inv (next m op) := by
  cases op with
  | addSeals arg => exact addSeals_inv hinv h
  | write writable append off buf room =>
    exact (write_sameMaps m writable append off buf room).inv hinv
  | writeFast off buf room => exact (writeFast_sameMaps m off buf room).inv hinv
  | ftruncate len junk mem => exact (ftruncate_sameMaps m len junk mem).inv hinv
  | fallocate writable mode off len junk mem =>
    exact (fallocate_sameMaps m writable mode off len junk mem).inv hinv
  | mmap pd va first n shared rw mem => exact mmap_inv hinv pd va first n shared rw mem
  | munmap pd lo hi => exact freeRange_inv hinv pd lo hi
  | mprotect pd lo hi rw => exact mprotect_inv hinv h
  | fork pd npd => exact fork_inv hinv pd npd
  | store pd va off b => exact (store_sameMaps m pd va off b).inv hinv

end

theorem next_refuses (h : Respects m op) : Refuses m op := by
  cases op with
  | addSeals arg =>
    intro hmask hws
    have hseal : m.has sealSeal = true := by
      cases hs : m.has sealSeal with
      | false => exact absurd hws (h hs hmask)
      | true => rfl
    simp only [addSeals, hseal, if_true]
  | _ => trivial

theorem holdsRun (hinv : Inv m) {ops : List Op} (h : RespectsRun m ops) : HoldsRun m ops := by
  induction ops generalizing m with
  | nil => trivial
  | cons op ops ih =>
    obtain ⟨hop, hops⟩ := h
    exact ⟨next_refuses hop, next_holds hinv hop, ih (next_inv hinv hop) hops⟩

/-- In every run of a new memory file without a step that goes past a seal, every step keeps
every seal. -/
theorem seals_hold (flags : UInt64) (ops : List Op) (h : RespectsRun (create flags) ops) :
    HoldsRun (create flags) ops := by
  apply holdsRun _ h
  intro _ hws
  obtain ⟨p, hp, -⟩ := hws
  cases hp

/-- A file that is mapped for reading, sealed, and then left alone by every call. -/
theorem seals_hold_mapped : HoldsRun (create 2) [.mmap 1 0x10000 0 1 true false true, .addSeals 14,
      .write true false 0 [7] 1, .ftruncate 9 (fun _ => 0) true, .store 1 0x10000 0 7] := by
  apply seals_hold
  refine ⟨trivial, fun _ _ hws => ?_, fun _ h24 => ?_, fun href => ?_, trivial, trivial⟩
  · obtain ⟨p, hp, -, hrw⟩ := hws
    rw [List.mem_singleton.1 hp] at hrw
    cases hrw
  · exact absurd h24 (by decide)
  · exact absurd href (by decide)

/-- The write seal is taken while a page is mapped for writing, and a store then changes it; a
write makes a file longer in spite of the seal. -/
theorem seals_broken :
    let mapped := next (create 2) (.mmap 1 0x10000 0 1 true true true)
    let locked := next mapped (.addSeals 8)
    let short := next (create 2) (.addSeals 4)
    WritableShared mapped ∧ locked.has sealWrite ∧
      (next locked (.store 1 0x10000 0 7)).frames 0 ≠ locked.frames 0 ∧
      short.has sealGrow ∧ short.size < (next short (.write true false 0 [7] 1)).size := by
  refine ⟨⟨⟨1, 0x10000, 0, true, true⟩, List.mem_cons_self, rfl, rfl⟩, ?_⟩
  decide

end SamaraOS.Seals
