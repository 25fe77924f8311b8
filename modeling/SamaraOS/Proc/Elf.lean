import Mathlib

/-!
# ELF files (`proc.c`)

A file is what lies in memory from its first byte on, at every 64-bit offset, and a size: what
`elf_ok`, `elf_interp` and `load_elf` find past the end of the file may be anything.  Each of them
gives its result and what it did, in order.  Which allocations fail, and which ranges are mapped
already, is left to the environment.
-/

namespace SamaraOS.Elf

open List

def add64 (a b : Nat) : Nat := (a + b) % 2 ^ 64

theorem add64_of_lt {a b : Nat} (h : a + b < 2 ^ 64) : add64 a b = a + b := Nat.mod_eq_of_lt h

theorem add64_of_ge {a b : Nat} (ha : a < 2 ^ 64) (hb : b < 2 ^ 64) (h : 2 ^ 64 ≤ a + b) :
    add64 a b = a + b - 2 ^ 64 := by
  unfold add64
  omega

def userBase : Nat := 0x10000

def userMmapBase : Nat := 0x7f0000000000

def userStackTop : Nat := 0x7ffffffff000

def userStackMax : Nat := 8 * 1024 * 1024

structure File where
  mem : Nat → UInt8
  size : Nat

def File.word (f : File) (off : Nat) : Nat → Nat
  | 0 => 0
  | n + 1 => (f.mem (off % 2 ^ 64)).toNat + 256 * f.word (off + 1) n

def ehdrSize : Nat := 64

def phdrSize : Nat := 56

def File.type (f : File) : Nat := f.word 16 2

def File.machine (f : File) : Nat := f.word 18 2

def File.phoff (f : File) : Nat := f.word 32 8

def File.phnum (f : File) : Nat := f.word 56 2

def ptLoad : Nat := 1

def ptDynamic : Nat := 2

def ptInterp : Nat := 3

def ptPhdr : Nat := 6

structure Phdr where
  type : Nat
  flags : Nat
  offset : Nat
  vaddr : Nat
  filesz : Nat
  memsz : Nat

def File.phAt (f : File) (i : Nat) : Nat := add64 f.phoff (phdrSize * i)

def File.ph (f : File) (i : Nat) : Phdr where
  type := f.word (f.phAt i) 4
  flags := f.word (f.phAt i + 4) 4
  offset := f.word (f.phAt i + 8) 8
  vaddr := f.word (f.phAt i + 16) 8
  filesz := f.word (f.phAt i + 32) 8
  memsz := f.word (f.phAt i + 40) 8

inductive Access where
  /-- Bytes of the file. -/
  | read (off len : Nat)
  | alloc (va len : Nat)
  /-- `vmm_copy_to`. -/
  | copy (va len : Nat)
  /-- `pc_map`. -/
  | cache (va off len : Nat)
  /-- `vmm_set_writable`. -/
  | protect (va len : Nat)
  deriving DecidableEq

def elfOk (f : File) : Bool × List Access :=
  if f.size < ehdrSize then (false, [])
  else
    (f.mem 0 == 0x7F && f.mem 1 == 0x45 && f.mem 2 == 0x4C && f.mem 3 == 0x46 && f.mem 4 == 2 &&
      f.machine == 62 && decide (add64 f.phoff (f.phnum * phdrSize) ≤ f.size) &&
      (f.type == 2 || f.type == 3), [.read 0 ehdrSize])

def interpFrom (f : File) : List Nat → Option Nat × List Access
  | [] => (none, [])
  | i :: is =>
    let p := f.ph i
    if p.type = ptInterp ∧ add64 p.offset p.filesz ≤ f.size then
      (some p.offset, [.read (f.phAt i) phdrSize])
    else
      let r := interpFrom f is
      (r.1, .read (f.phAt i) phdrSize :: r.2)

def elfInterp (f : File) : Option Nat × List Access := interpFrom f (range f.phnum)

structure Env where
  allocOk : Nat → Nat → Bool
  unmapped : Nat → Nat → Bool
  cacheOk : Nat → Nat → Bool

def dynFrom (f : File) (base cnt : Nat) : Nat → Nat → Bool × List Access
  | 0, _ => (false, [])
  | fuel + 1, k =>
    if k + 1 < cnt then
      let d := f.word (add64 base (8 * k)) 8
      let first := Access.read (add64 base (8 * k)) 8
      if d = 0 then (false, [first])
      else
        let flags := f.word (add64 base (8 * (k + 1))) 8
        let hit := d = 22 || (d = 30 && flags / 4 % 2 = 1)
        let r := dynFrom f base cnt fuel (k + 2)
        (hit || r.1, first ::
          (if d = 30 then [.read (add64 base (8 * (k + 1))) 8] else []) ++ r.2)
    else (false, [])

def textrelFrom (f : File) : List Nat → Bool × List Access
  | [] => (false, [])
  | i :: is =>
    let p := f.ph i
    let here := if p.type ≠ ptDynamic ∨ f.size < add64 p.offset p.filesz then (false, [])
      else dynFrom f p.offset (p.filesz / 8) (p.filesz / 8) 0
    let r := textrelFrom f is
    (here.1 || r.1, .read (f.phAt i) phdrSize :: here.2 ++ r.2)

def pageDown (a : Nat) : Nat := a / 4096 * 4096

def pageUp (a : Nat) : Nat := pageDown (add64 a 0xFFF)

def copyPart (src : Option Nat) (lo hi : Nat) : List Access :=
  if lo < hi then (src.elim [] fun off => [.read off (hi - lo)]) ++ [.copy lo (hi - lo)] else []

def segCopy (env : Env) (p : Phdr) (va x y : Nat) : Bool × List Access :=
  if y ≤ x then (true, [])
  else if !env.allocOk x (y - x) then (false, [.alloc x (y - x)])
  else
    let fe := add64 va p.filesz
    (true, [.alloc x (y - x), .protect x (y - x)] ++
      copyPart (some (add64 p.offset (max x va - va))) (max x va) (min y fe) ++
      copyPart none (max x fe) (min y (add64 va p.memsz)))

def cachePages (env : Env) (p : Phdr) (va : Nat) : Nat × Nat :=
  let cs := pageUp va
  let ce := pageDown (add64 va p.filesz)
  if p.offset % 4096 ≠ va % 4096 ∨ ce ≤ cs ∨ !env.unmapped cs (ce - cs) then
    (pageDown va, pageDown va)
  else (cs, ce)

def segment (env : Env) (p : Phdr) (va : Nat) : Bool × List Access :=
  let c := cachePages env p va
  let a := segCopy env p va (pageDown va) c.1
  if !a.1 then (false, a.2)
  else
    let m : List Access := if c.1 < c.2 then
      [.cache c.1 (add64 p.offset (c.1 - va)) (c.2 - c.1)] else []
    if c.1 < c.2 ∧ !env.cacheOk c.1 (c.2 - c.1) then (false, a.2 ++ m)
    else
      let b := segCopy env p va c.2 (pageUp (add64 va p.memsz))
      (b.1, a.2 ++ m ++ b.2)

def enoexec : Int := -8

def enomem : Int := -12

structure Image where
  top : Nat
  phdr : Nat

def loadFrom (env : Env) (f : File) (bias lim : Nat) :
    List Nat → Image → (Int × Image) × List Access
  | [], img => ((0, img), [])
  | i :: is, img =>
    let p := f.ph i
    let va := add64 p.vaddr bias
    let img := if p.type = ptPhdr then { img with phdr := va } else img
    let head := Access.read (f.phAt i) phdrSize
    if p.type ≠ ptLoad ∨ p.memsz = 0 then
      let r := loadFrom env f bias lim is img
      (r.1, head :: r.2)
    else if va < userBase ∨ lim < add64 va p.memsz ∨ p.memsz < p.filesz ∨
        f.size < add64 p.offset p.filesz then ((enoexec, img), [head])
    else
      let g := segment env p va
      if !g.1 then ((enomem, img), head :: g.2)
      else
        let r := loadFrom env f bias lim is
          ⟨max (add64 va p.memsz) img.top,
            if img.phdr = 0 ∧ p.offset = 0 then add64 va f.phoff else img.phdr⟩
        (r.1, head :: g.2 ++ r.2)

/-- One of the two loops at the end, for segments that are writable or not. -/
def protectAll (f : File) (bias : Nat) (w : Bool) : List Access :=
  (range f.phnum).flatMap fun i =>
    let p := f.ph i
    .read (f.phAt i) phdrSize ::
      if p.type = ptLoad ∧ (p.flags / 2 % 2 == 1) = w then [.protect (add64 p.vaddr bias) p.memsz]
      else []

def limit (bias : Nat) : Nat :=
  if userMmapBase ≤ bias then userStackTop - userStackMax else userMmapBase

def File.bias (f : File) (bias : Nat) : Nat := if f.type ≠ 3 then 0 else bias

def loadElf (env : Env) (f : File) (bias : Nat) : (Int × Image) × List Access :=
  let b := f.bias bias
  let t := textrelFrom f (range f.phnum)
  let r := loadFrom env f b (limit bias) (range f.phnum) ⟨0, 0⟩
  if r.1.1 < 0 then (r.1, t.2 ++ r.2)
  else (r.1, t.2 ++ r.2 ++ (if t.1 then [] else protectAll f b false) ++ protectAll f b true)

/-! ## Safety -/

def Access.Safe (size lim : Nat) : Access → Prop
  | .read off len => off + len ≤ size
  | .alloc va len | .copy va len => userBase ≤ va ∧ va + len ≤ lim
  | .cache va off len => userBase ≤ va ∧ va + len ≤ lim ∧ off + len ≤ size
  | .protect _ _ => True

/-- The words of a dynamic section that are looked at: up to the first zero tag, and the value of a
tag 30. -/
def DynInside (f : File) (base cnt : Nat) : Prop :=
  ∀ n, 2 * n + 1 < cnt → (∀ m < n, f.word (add64 base (16 * m)) 8 ≠ 0) →
    add64 base (16 * n) + 8 ≤ f.size ∧
      (f.word (add64 base (16 * n)) 8 = 30 → add64 base (16 * n + 8) + 8 ≤ f.size)

/-- A dynamic section that is looked at ends in the file, or its end wraps and its tags stop
before. -/
def File.DynOk (f : File) (p : Phdr) : Prop :=
  p.type = ptDynamic → add64 p.offset p.filesz ≤ f.size →
    p.offset + p.filesz < 2 ^ 64 ∨ DynInside f p.offset (p.filesz / 8)

/-- The checks of `load_elf`. -/
structure Passes (p : Phdr) (va size lim : Nat) : Prop where
  base : userBase ≤ va
  top : add64 va p.memsz ≤ lim
  file : p.filesz ≤ p.memsz
  data : add64 p.offset p.filesz ≤ size

theorem Passes.not_fails {p : Phdr} {va size lim : Nat} (hp : Passes p va size lim) :
    ¬ (va < userBase ∨ lim < add64 va p.memsz ∨ p.memsz < p.filesz ∨
      size < add64 p.offset p.filesz) := by
  simp only [not_or, Nat.not_lt]
  exact ⟨hp.base, hp.top, hp.file, hp.data⟩

/-- The sums of a segment that passes do not wrap.  Or the end of its memory does, and then the
whole pages of the file that are mapped lie in the user range and in the file, and so does what is
copied if the wrapped end is in the page where the segment begins. -/
def Sound (p : Phdr) (va size lim : Nat) : Prop :=
  (va + p.memsz < 2 ^ 64 ∧ p.offset + p.filesz < 2 ^ 64) ∨
  (2 ^ 64 ≤ va + p.memsz ∧
    (p.offset % 4096 = va % 4096 → pageUp va < pageDown (add64 va p.filesz) →
      va ≤ pageUp va ∧ pageDown (add64 va p.filesz) ≤ lim ∧
        p.offset + (pageDown (add64 va p.filesz) - va) ≤ size) ∧
    (pageDown va < pageUp (add64 va p.memsz) → va + p.filesz < 2 ^ 64 → 0 < p.filesz →
      p.offset + min (pageDown va + 4096 - va) p.filesz ≤ size))

instance (p : Phdr) (va size lim : Nat) : Decidable (Sound p va size lim) := by
  unfold Sound
  infer_instance

/-- The segments that the loop comes to; it stops at one that does not pass. -/
def LoadsOk (f : File) (bias lim : Nat) : List Nat → Prop
  | [] => True
  | i :: is =>
    let p := f.ph i
    let va := add64 p.vaddr bias
    if p.type ≠ ptLoad ∨ p.memsz = 0 then LoadsOk f bias lim is
    else Passes p va f.size lim → Sound p va f.size lim ∧ LoadsOk f bias lim is

structure File.Within (f : File) (bias : Nat) : Prop where
  table : f.phnum = 0 ∨ f.phoff + f.phnum * phdrSize < 2 ^ 64
  dynamic : ∀ i < f.phnum, f.DynOk (f.ph i)
  loads : LoadsOk f (f.bias bias) (limit bias) (range f.phnum)

def AllSafe (size lim : Nat) (as : List Access) : Prop := ∀ a ∈ as, a.Safe size lim

section Lists

variable {size lim : Nat} {a : Access} {as bs : List Access}

@[simp] theorem allSafe_nil : AllSafe size lim [] := fun _ h => by cases h

@[simp] theorem allSafe_cons :
    AllSafe size lim (a :: as) ↔ a.Safe size lim ∧ AllSafe size lim as := forall_mem_cons

@[simp] theorem allSafe_append :
    AllSafe size lim (as ++ bs) ↔ AllSafe size lim as ∧ AllSafe size lim bs :=
  forall_mem_append

end Lists

theorem limit_le (bias : Nat) : limit bias ≤ 0x7fffff7ff000 := by
  unfold limit userMmapBase userStackTop userStackMax
  split <;> omega

theorem limit_page (bias : Nat) : limit bias % 4096 = 0 := by
  unfold limit userMmapBase userStackTop userStackMax
  split <;> omega

section Headers

variable {f : File} {bias lim : Nat} {is : List Nat}

theorem word_lt (f : File) (off n : Nat) : f.word off n < 2 ^ (8 * n) := by
  induction n generalizing off with
  | zero => simp [File.word]
  | succ n ih =>
    have hrest := ih (off + 1)
    have hbyte := (f.mem (off % 2 ^ 64)).toNat_lt
    rw [File.word, Nat.mul_succ, Nat.pow_add]
    omega

theorem elfOk_safe (f : File) (lim : Nat) : AllSafe f.size lim (elfOk f).2 := by
  unfold elfOk
  split
  · exact allSafe_nil
  rename_i h
  simp only [allSafe_cons, allSafe_nil, and_true, Access.Safe]
  omega

theorem elfOk_table (h : (elfOk f).1 = true) : add64 f.phoff (f.phnum * phdrSize) ≤ f.size := by
  unfold elfOk at h
  split at h
  · cases h
  simp only [Bool.and_eq_true, decide_eq_true_eq] at h
  exact h.1.2

theorem headers_safe_iff (hok : (elfOk f).1 = true) (hsize : f.size < 2 ^ 63) :
    (∀ i ∈ range f.phnum, (Access.read (f.phAt i) phdrSize).Safe f.size lim) ↔
      f.phnum = 0 ∨ f.phoff + f.phnum * phdrSize < 2 ^ 64 := by
  have hle := elfOk_table hok
  have hoff : f.phoff < 2 ^ 64 := word_lt f 32 8
  have hnum : f.phnum < 2 ^ 16 := word_lt f 56 2
  simp only [Access.Safe, File.phAt, phdrSize, mem_range] at hle ⊢
  constructor
  · intro h
    by_contra hc
    rw [not_or, Nat.not_lt] at hc
    have hfirst := h 0 (by omega)
    rw [add64_of_lt (by omega)] at hfirst
    omega
  rintro (h0 | hlt) i hi
  · omega
  rw [add64_of_lt hlt] at hle
  rw [add64_of_lt (by omega)]
  omega

theorem interpFrom_safe
    (hhead : ∀ i ∈ is, (Access.read (f.phAt i) phdrSize).Safe f.size lim) :
    AllSafe f.size lim (interpFrom f is).2 := by
  induction is with
  | nil => exact allSafe_nil
  | cons i is ih =>
    rw [forall_mem_cons] at hhead
    rw [interpFrom]
    dsimp only
    split
    · exact allSafe_cons.2 ⟨hhead.1, allSafe_nil⟩
    · exact allSafe_cons.2 ⟨hhead.1, ih hhead.2⟩

theorem dynFrom_safe_iff {base cnt fuel k : Nat} (hk : k % 2 = 0) (hfuel : cnt ≤ k + fuel) :
    AllSafe f.size lim (dynFrom f base cnt fuel k).2 ↔
      ∀ n, k + 2 * n + 1 < cnt → (∀ m < n, f.word (add64 base (8 * (k + 2 * m))) 8 ≠ 0) →
        add64 base (8 * (k + 2 * n)) + 8 ≤ f.size ∧
          (f.word (add64 base (8 * (k + 2 * n))) 8 = 30 →
            add64 base (8 * (k + 2 * n + 1)) + 8 ≤ f.size) := by
  induction fuel generalizing k with
  | zero => exact iff_of_true allSafe_nil fun n hn => by omega
  | succ fuel ih =>
    rw [dynFrom]
    split
    swap
    · exact iff_of_true allSafe_nil fun n hn => by omega
    next hlt =>
    dsimp only
    -- the first round, and the others from two words on
    have hsplit : ∀ P : Nat → Prop, (∀ n, P n) ↔ P 0 ∧ ∀ n, P (n + 1) := fun P =>
      ⟨fun h => ⟨h 0, fun n => h (n + 1)⟩, fun h n => by cases n with
        | zero => exact h.1
        | succ n => exact h.2 n⟩
    rw [hsplit]
    simp only [Nat.mul_zero, Nat.add_zero, hlt, Nat.not_lt_zero, false_imp_iff, implies_true,
      true_imp_iff]
    split
    next h0 =>
      rw [allSafe_cons, h0]
      refine ⟨fun h => ⟨⟨h.1, fun h30 => by cases h30⟩, fun n _ hne => ?_⟩, fun h =>
        ⟨h.1.1, allSafe_nil⟩⟩
      exact absurd h0 (by simpa using hne 0 (Nat.succ_pos n))
    next h0 =>
    rw [cons_append, allSafe_cons, allSafe_append, ih (by omega) (by omega), and_assoc]
    refine and_congr Iff.rfl (and_congr ?_ ?_)
    · split
      next h30 => simp [h30, Access.Safe]
      next h30 => simp [h30]
    refine forall_congr' fun n => ?_
    have hshift : ∀ n, k + 2 + 2 * n = k + 2 * (n + 1) := fun n => by omega
    have hprev : (∀ m < n + 1, f.word (add64 base (8 * (k + 2 * m))) 8 ≠ 0) ↔
        ∀ m < n, f.word (add64 base (8 * (k + 2 + 2 * m))) 8 ≠ 0 := by
      constructor
      · intro h m hm
        rw [hshift]
        exact h (m + 1) (by omega)
      intro h m hm
      cases m with
      | zero => exact h0
      | succ m =>
        rw [← hshift]
        exact h m (by omega)
    rw [hprev, hshift]

theorem dynSection_safe_iff {base cnt : Nat} :
    AllSafe f.size lim (dynFrom f base cnt cnt 0).2 ↔ DynInside f base cnt := by
  rw [dynFrom_safe_iff (by omega) (by omega), DynInside]
  refine forall_congr' fun n => ?_
  have hsum : ∀ m, 8 * (2 * m) = 16 * m := fun m => by omega
  simp only [Nat.zero_add, Nat.mul_add, hsum, Nat.mul_one]

theorem dynInside_of_lt {base filesz : Nat} (hlt : base + filesz < 2 ^ 64)
    (hle : base + filesz ≤ f.size) : DynInside f base (filesz / 8) := by
  intro n hn _
  rw [add64_of_lt (by omega), add64_of_lt (by omega)]
  omega

theorem dynOk_iff (f : File) (p : Phdr) :
    AllSafe f.size lim (if p.type ≠ ptDynamic ∨ f.size < add64 p.offset p.filesz then (false, [])
      else dynFrom f p.offset (p.filesz / 8) (p.filesz / 8) 0).2 ↔ f.DynOk p := by
  unfold File.DynOk
  split
  next hc =>
    refine iff_of_true allSafe_nil fun hty hle => ?_
    rcases hc with hne | hlt
    · exact absurd hty hne
    · omega
  next hc =>
  rw [not_or, not_not, Nat.not_lt] at hc
  rw [dynSection_safe_iff]
  refine ⟨fun h _ _ => .inr h, fun h => ?_⟩
  rcases h hc.1 hc.2 with hlt | hin
  · refine dynInside_of_lt hlt ?_
    have hle := hc.2
    rwa [add64_of_lt hlt] at hle
  · exact hin

theorem textrelFrom_safe_iff : AllSafe f.size lim (textrelFrom f is).2 ↔
    (∀ i ∈ is, (Access.read (f.phAt i) phdrSize).Safe f.size lim) ∧ ∀ i ∈ is, f.DynOk (f.ph i) := by
  induction is with
  | nil => simp [textrelFrom]
  | cons i is ih =>
    rw [textrelFrom]
    dsimp only
    rw [cons_append, allSafe_cons, allSafe_append, ih, forall_mem_cons, forall_mem_cons]
    rw [dynOk_iff]
    tauto

theorem protectAll_safe {w : Bool}
    (hhead : ∀ i ∈ range f.phnum, (Access.read (f.phAt i) phdrSize).Safe f.size lim) :
    AllSafe f.size lim (protectAll f bias w) := by
  intro a ha
  obtain ⟨i, hi, ha⟩ := mem_flatMap.1 ha
  rcases mem_cons.1 ha with rfl | ha
  · exact hhead i hi
  split at ha
  · rw [mem_singleton.1 ha]
    trivial
  · cases ha

end Headers

section Segments

variable {p : Phdr} {va size lim : Nat}

/-- The fields of a header and an address are words. -/
structure Words (p : Phdr) (va : Nat) : Prop where
  offset : p.offset < 2 ^ 64
  filesz : p.filesz < 2 ^ 64
  memsz : p.memsz < 2 ^ 64
  va : va < 2 ^ 64

theorem copyPart_safe {src : Option Nat} {lo hi : Nat} (hlo : userBase ≤ lo) (hhi : hi ≤ lim)
    (hsrc : ∀ off, src = some off → lo < hi → off + (hi - lo) ≤ size) :
    AllSafe size lim (copyPart src lo hi) := by
  unfold copyPart
  split
  swap
  · exact allSafe_nil
  rename_i hlt
  have hcopy : (Access.copy lo (hi - lo)).Safe size lim := by
    simp only [Access.Safe]
    omega
  cases src with
  | none => exact allSafe_cons.2 ⟨hcopy, allSafe_nil⟩
  | some off =>
    exact allSafe_cons.2 ⟨hsrc off rfl hlt, allSafe_cons.2 ⟨hcopy, allSafe_nil⟩⟩

theorem segCopy_nil (env : Env) {x y : Nat} (h : y ≤ x) : segCopy env p va x y = (true, []) := by
  rw [segCopy, if_pos h]

theorem segCopy_safe (env : Env) {x y : Nat} (hx : userBase ≤ x) (hy : y ≤ lim)
    (hread : max x va < min y (add64 va p.filesz) →
      add64 p.offset (max x va - va) + (min y (add64 va p.filesz) - max x va) ≤ size) :
    AllSafe size lim (segCopy env p va x y).2 := by
  unfold segCopy
  split
  · exact allSafe_nil
  have halloc : (Access.alloc x (y - x)).Safe size lim := by
    simp only [Access.Safe]
    omega
  split
  · exact allSafe_cons.2 ⟨halloc, allSafe_nil⟩
  refine allSafe_append.2 ⟨allSafe_append.2 ⟨?_, ?_⟩, ?_⟩
  · exact allSafe_cons.2 ⟨halloc, allSafe_cons.2 ⟨trivial, allSafe_nil⟩⟩
  · refine copyPart_safe (by omega) (by omega) ?_
    rintro off ⟨⟩
    exact hread
  · exact copyPart_safe (by omega) (by omega) (by rintro _ ⟨⟩)

/-- Every allocation is answered. -/
def Env.Roomy (env : Env) : Prop :=
  (∀ a n, env.allocOk a n = true) ∧ ∀ a n, env.cacheOk a n = true

theorem segCopy_roomy {env : Env} (he : env.Roomy) (x y : Nat) : (segCopy env p va x y).1 = true := by
  unfold segCopy
  split
  · rfl
  · rw [he.1]
    rfl

theorem segCopy_reads {env : Env} (he : env.Roomy) {x y : Nat} (hxy : x < y)
    (h : AllSafe size lim (segCopy env p va x y).2)
    (hlt : max x va < min y (add64 va p.filesz)) :
    add64 p.offset (max x va - va) + (min y (add64 va p.filesz) - max x va) ≤ size := by
  rw [segCopy, if_neg (by omega), he.1] at h
  simp only [Bool.not_true, Bool.false_eq_true, if_false, allSafe_append] at h
  have hcopy := h.1.2
  rw [copyPart, if_pos hlt] at hcopy
  exact hcopy (.read _ _) (by simp)

theorem pageUp_eq {a : Nat} (h : a + 4095 < 2 ^ 64) : pageUp a = (a + 4095) / 4096 * 4096 := by
  rw [pageUp, pageDown, add64_of_lt h]

theorem pageDown_step {a b : Nat} (h : pageDown a < pageDown b) :
    pageDown a + 4096 ≤ pageDown b := by
  unfold pageDown at *
  omega

theorem pageUp_wrapped {a : Nat} (ha : a < 2 ^ 64) (h : 2 ^ 64 ≤ a + 4095) : pageUp a = 0 := by
  rw [pageUp, pageDown, add64_of_ge ha (by decide) h]
  omega

/-- The pages from the cache are none, or whole pages. -/
theorem cachePages_cases (env : Env) (p : Phdr) (va : Nat) :
    cachePages env p va = (pageDown va, pageDown va) ∨
      p.offset % 4096 = va % 4096 ∧ pageUp va < pageDown (add64 va p.filesz) ∧
        cachePages env p va = (pageUp va, pageDown (add64 va p.filesz)) := by
  unfold cachePages
  dsimp only
  split
  · exact .inl rfl
  next hc =>
  simp only [not_or, not_not, Nat.not_le] at hc
  exact .inr ⟨hc.1, hc.2.1, rfl⟩

theorem segment_safe (env : Env)
    (hcut : AllSafe size lim (segCopy env p va (pageDown va) (pageUp (add64 va p.memsz))).2)
    (hcache : p.offset % 4096 = va % 4096 → pageUp va < pageDown (add64 va p.filesz) →
      AllSafe size lim (segCopy env p va (pageDown va) (pageUp va)).2 ∧
      (Access.cache (pageUp va) (add64 p.offset (pageUp va - va))
        (pageDown (add64 va p.filesz) - pageUp va)).Safe size lim ∧
      AllSafe size lim (segCopy env p va (pageDown (add64 va p.filesz))
        (pageUp (add64 va p.memsz))).2) : AllSafe size lim (segment env p va).2 := by
  unfold segment
  dsimp only
  rcases cachePages_cases env p va with hc | ⟨hoff, hlt, hc⟩
  · rw [hc, segCopy_nil env le_rfl]
    simpa using hcut
  obtain ⟨hfirst, hmid, hlast⟩ := hcache hoff hlt
  rw [hc]
  simp only [hlt, if_true, true_and]
  split
  · exact hfirst
  split
  · exact allSafe_append.2 ⟨hfirst, allSafe_cons.2 ⟨hmid, allSafe_nil⟩⟩
  · exact allSafe_append.2
      ⟨allSafe_append.2 ⟨hfirst, allSafe_cons.2 ⟨hmid, allSafe_nil⟩⟩, hlast⟩

theorem segment_roomy {env : Env} (he : env.Roomy) : (segment env p va).1 = true := by
  unfold segment
  dsimp only
  rw [segCopy_roomy he, segCopy_roomy he, he.2]
  simp

/-- Every allocation is answered, and every range is unmapped before or none is. -/
def roomy (b : Bool) : Env := ⟨fun _ _ => true, fun _ _ => b, fun _ _ => true⟩

theorem roomy_roomy {b : Bool} : (roomy b).Roomy := ⟨fun _ _ => rfl, fun _ _ => rfl⟩

variable (hp : Passes p va size lim) (hsmall : lim ≤ 0x7fffff7ff000) (hpage : lim % 4096 = 0)

include hp hsmall hpage

theorem segment_safe_plain (env : Env) (hmem : va + p.memsz < 2 ^ 64)
    (hoff : p.offset + p.filesz < 2 ^ 64) : AllSafe size lim (segment env p va).2 := by
  obtain ⟨hbase, htop, hfile, hdata⟩ := hp
  rw [add64_of_lt hmem] at htop
  rw [add64_of_lt hoff] at hdata
  have hfe : add64 va p.filesz = va + p.filesz := add64_of_lt (by omega)
  have hend : pageUp (add64 va p.memsz) ≤ lim := by
    rw [add64_of_lt hmem, pageUp_eq (by omega)]
    omega
  have hup := pageUp_eq (a := va) (by omega)
  have hread : ∀ x y, max x va < min y (add64 va p.filesz) →
      add64 p.offset (max x va - va) + (min y (add64 va p.filesz) - max x va) ≤ size := by
    intro x y hlt
    rw [hfe] at hlt ⊢
    rw [add64_of_lt (by omega)]
    omega
  have hdown : userBase ≤ pageDown va := by
    unfold userBase pageDown at *
    omega
  refine segment_safe env (segCopy_safe env hdown hend (hread _ _)) fun _ hlt => ?_
  rw [hfe] at hlt ⊢
  have hce : pageDown (va + p.filesz) ≤ va + p.filesz := Nat.div_mul_le_self _ _
  refine ⟨segCopy_safe env hdown (by omega) (hread _ _), ⟨?_, ?_, ?_⟩,
    segCopy_safe env ?_ hend (hread _ _)⟩
  · unfold userBase at *
    omega
  · omega
  · rw [add64_of_lt (by omega)]
    omega
  · unfold userBase at *
    omega

variable (hw : Words p va) (hsize : size < 2 ^ 63)

include hw

theorem wrapped_end (hmem : 2 ^ 64 ≤ va + p.memsz) :
    add64 va p.memsz < va ∧ pageUp (add64 va p.memsz) ≤ lim ∧
      pageUp (add64 va p.memsz) ≤ pageDown va + 4096 := by
  have htop := hp.top
  have hms := hw.memsz
  rw [add64_of_ge hw.va hms hmem] at htop ⊢
  rw [pageUp_eq (by omega)]
  unfold pageDown
  omega

include hsize

theorem segment_safe_wrapped (env : Env) (hmem : 2 ^ 64 ≤ va + p.memsz)
    (hcache : p.offset % 4096 = va % 4096 → pageUp va < pageDown (add64 va p.filesz) →
      va ≤ pageUp va ∧ pageDown (add64 va p.filesz) ≤ lim ∧
        p.offset + (pageDown (add64 va p.filesz) - va) ≤ size)
    (hcopy : pageDown va < pageUp (add64 va p.memsz) → va + p.filesz < 2 ^ 64 → 0 < p.filesz →
      p.offset + min (pageDown va + 4096 - va) p.filesz ≤ size) :
    AllSafe size lim (segment env p va).2 := by
  obtain ⟨hend, hlim, hsame⟩ := wrapped_end hp hsmall hpage hw hmem
  have hbase := hp.base
  have hfile := hp.file
  have hdown : userBase ≤ pageDown va := by
    unfold userBase pageDown at *
    omega
  have hle : pageDown va ≤ va := Nat.div_mul_le_self _ _
  have hmax : max (pageDown va) va = va := max_eq_right hle
  have hoff0 : add64 p.offset 0 = p.offset := add64_of_lt (by have := hw.offset; omega)
  -- the end of the file bytes wraps below the start of the segment if it wraps
  have hfe : va + p.filesz < 2 ^ 64 ∧ add64 va p.filesz = va + p.filesz ∨
      add64 va p.filesz < va := by
    rcases Nat.lt_or_ge (va + p.filesz) (2 ^ 64) with hlt | hge
    · exact .inl ⟨hlt, add64_of_lt hlt⟩
    · rw [add64_of_ge hw.va hw.filesz hge]
      have := hw.filesz
      exact .inr (by omega)
  refine segment_safe env (segCopy_safe env hdown hlim fun hlt => ?_) fun hoff hlt => ?_
  · rw [hmax] at hlt ⊢
    rw [Nat.sub_self, hoff0]
    rcases hfe with ⟨hsum, heq⟩ | hbelow
    · rw [heq] at hlt ⊢
      have := hcopy (by omega) hsum (by omega)
      omega
    · omega
  obtain ⟨hva, hce, hdata⟩ := hcache hoff hlt
  have hfe' : add64 va p.filesz = va + p.filesz := by
    rcases hfe with ⟨-, heq⟩ | hbelow
    · exact heq
    · have : pageDown (add64 va p.filesz) ≤ add64 va p.filesz := Nat.div_mul_le_self _ _
      omega
  have hcefe : pageDown (add64 va p.filesz) ≤ add64 va p.filesz := Nat.div_mul_le_self _ _
  have hup : pageUp va ≤ pageDown va + 4096 := by
    rcases Nat.lt_or_ge (va + 4095) (2 ^ 64) with hlt | hge
    · rw [pageUp_eq hlt]
      unfold pageDown
      omega
    · rw [pageUp_wrapped hw.va hge]
      omega
  have hlast : pageUp (add64 va p.memsz) ≤ pageDown (add64 va p.filesz) := by
    have : pageUp va + 4096 ≤ pageDown (add64 va p.filesz) := pageDown_step hlt
    omega
  refine ⟨segCopy_safe env hdown (by omega) fun hlt' => ?_, ⟨by omega, by omega, ?_⟩, ?_⟩
  · rw [hmax] at hlt' ⊢
    rw [Nat.sub_self, hoff0]
    omega
  · rw [add64_of_lt (by omega)]
    omega
  · rw [segCopy_nil env hlast]
    exact allSafe_nil

theorem segment_needs (h : ∀ env : Env, env.Roomy → AllSafe size lim (segment env p va).2) :
    Sound p va size lim := by
  have hbase := hp.base
  have hfile := hp.file
  have hle : pageDown va ≤ va := Nat.div_mul_le_self _ _
  have hmax : max (pageDown va) va = va := max_eq_right hle
  have hoff := hw.offset
  have hoff0 : add64 p.offset 0 = p.offset := add64_of_lt (by omega)
  -- an answer that leaves everything to the copy, and one that takes the pages from the cache
  have hcut : AllSafe size lim (segCopy (roomy false) p va (pageDown va)
      (pageUp (add64 va p.memsz))).2 := by
    have hseg := h (roomy false) ⟨fun _ _ => rfl, fun _ _ => rfl⟩
    have hc : cachePages (roomy false) p va = (pageDown va, pageDown va) := by
      unfold cachePages
      exact if_pos (.inr (.inr rfl))
    rw [segment] at hseg
    simpa [hc, segCopy_nil, segCopy_roomy roomy_roomy] using hseg
  have hreads : pageDown va < pageUp (add64 va p.memsz) → va + p.filesz < 2 ^ 64 →
      0 < p.filesz → va < pageUp (add64 va p.memsz) →
      p.offset + (min (pageUp (add64 va p.memsz)) (va + p.filesz) - va) ≤ size := by
    intro hlt hsum hpos hva
    have hr := segCopy_reads roomy_roomy hlt hcut
    rw [hmax, add64_of_lt hsum, Nat.sub_self, hoff0] at hr
    exact hr (by omega)
  rcases Nat.lt_or_ge (va + p.memsz) (2 ^ 64) with hmem | hmem
  · refine .inl ⟨hmem, ?_⟩
    by_contra hwrap
    have htop := hp.top
    have hup : va + p.memsz ≤ pageUp (add64 va p.memsz) := by
      rw [add64_of_lt hmem] at htop ⊢
      rw [pageUp_eq (by omega)]
      omega
    have := hreads (by omega) (by omega) (by omega) (by omega)
    omega
  obtain ⟨hend, hlim, hsame⟩ := wrapped_end hp hsmall hpage hw hmem
  refine .inr ⟨hmem, fun haligned hlt => ?_, fun hlt hsum hpos => ?_⟩
  · have hc : cachePages (roomy true) p va = (pageUp va, pageDown (add64 va p.filesz)) := by
      unfold cachePages
      exact if_neg (by simp [haligned, hlt, roomy])
    have hseg := h (roomy true) ⟨fun _ _ => rfl, fun _ _ => rfl⟩
    rw [segment] at hseg
    simp only [hc, segCopy_roomy roomy_roomy, roomy_roomy.2, hlt, if_true, true_and, Bool.not_true,
      Bool.false_eq_true, if_false, allSafe_append] at hseg
    have hfirst := hseg.1.1
    obtain ⟨hcs, hce, hdata⟩ : (Access.cache (pageUp va) (add64 p.offset (pageUp va - va))
        (pageDown (add64 va p.filesz) - pageUp va)).Safe size lim := hseg.1.2 _ (by simp)
    have hva : va + 4095 < 2 ^ 64 := by
      by_contra hge
      rw [pageUp_wrapped hw.va (by omega)] at hcs
      cases hcs
    have hup := pageUp_eq hva
    have hge : va ≤ pageUp va := by omega
    refine ⟨hge, by omega, ?_⟩
    rcases Nat.eq_or_lt_of_le hge with heq | hgt
    · rw [← heq, Nat.sub_self, hoff0] at hdata
      exact hdata
    have hfe : pageDown (add64 va p.filesz) ≤ add64 va p.filesz := Nat.div_mul_le_self _ _
    have hr := segCopy_reads roomy_roomy (by omega) hfirst (by omega)
    rw [hmax, Nat.sub_self, hoff0, min_eq_left (by omega)] at hr
    rw [add64_of_lt (by omega)] at hdata
    omega
  · have hpages : pageDown va + 4096 ≤ pageUp (add64 va p.memsz) := pageDown_step hlt
    have hva : va < pageDown va + 4096 := by
      unfold pageDown
      omega
    have := hreads hlt hsum hpos (by omega)
    omega

end Segments

section Loads

variable {f : File} {bias lim : Nat} {is : List Nat}

theorem words_ph (f : File) (i bias : Nat) : Words (f.ph i) (add64 (f.ph i).vaddr bias) :=
  ⟨word_lt f _ 8, word_lt f _ 8, word_lt f _ 8, Nat.mod_lt _ (by decide)⟩

variable (hsize : f.size < 2 ^ 63) (hsmall : lim ≤ 0x7fffff7ff000) (hpage : lim % 4096 = 0)

include hsize hsmall hpage

theorem loadFrom_safe (env : Env) (img : Image)
    (hhead : ∀ i ∈ is, (Access.read (f.phAt i) phdrSize).Safe f.size lim)
    (hloads : LoadsOk f bias lim is) : AllSafe f.size lim (loadFrom env f bias lim is img).2 := by
  induction is generalizing img with
  | nil => exact allSafe_nil
  | cons i is ih =>
    have hread := hhead i mem_cons_self
    rw [loadFrom]
    rw [LoadsOk] at hloads
    dsimp only at hloads ⊢
    split
    next hskip =>
      rw [if_pos hskip] at hloads
      exact allSafe_cons.2 ⟨hread, ih _ (fun j hj => hhead j (mem_cons_of_mem _ hj)) hloads⟩
    next hskip =>
    rw [if_neg hskip] at hloads
    split
    · exact allSafe_cons.2 ⟨hread, allSafe_nil⟩
    next hpass =>
    simp only [not_or, Nat.not_lt] at hpass
    have hp : Passes (f.ph i) (add64 (f.ph i).vaddr bias) f.size lim :=
      ⟨hpass.1, hpass.2.1, hpass.2.2.1, hpass.2.2.2⟩
    obtain ⟨hsound, hrest⟩ := hloads hp
    have hseg : AllSafe f.size lim (segment env (f.ph i) (add64 (f.ph i).vaddr bias)).2 := by
      rcases hsound with ⟨hmem, hoff⟩ | ⟨hmem, hcache, hcopy⟩
      · exact segment_safe_plain hp hsmall hpage env hmem hoff
      · exact segment_safe_wrapped hp hsmall hpage (words_ph f i bias) hsize env hmem hcache hcopy
    split
    · exact allSafe_cons.2 ⟨hread, hseg⟩
    · rw [cons_append]
      exact allSafe_cons.2 ⟨hread, allSafe_append.2
        ⟨hseg, ih _ (fun j hj => hhead j (mem_cons_of_mem _ hj)) hrest⟩⟩

theorem loadFrom_needs
    (h : ∀ env : Env, env.Roomy → ∃ img, AllSafe f.size lim (loadFrom env f bias lim is img).2) :
    LoadsOk f bias lim is := by
  induction is with
  | nil => trivial
  | cons i is ih =>
    rw [LoadsOk]
    split
    next hskip =>
      refine ih fun env he => ?_
      obtain ⟨img, henv⟩ := h env he
      rw [loadFrom] at henv
      dsimp only at henv
      rw [if_pos hskip] at henv
      exact ⟨_, (allSafe_cons.1 henv).2⟩
    next hskip =>
    intro hp
    have hpass := hp.not_fails
    have hstep : ∀ env : Env, env.Roomy →
        AllSafe f.size lim (segment env (f.ph i) (add64 (f.ph i).vaddr bias)).2 ∧
          ∃ img, AllSafe f.size lim (loadFrom env f bias lim is img).2 := by
      intro env he
      obtain ⟨img, henv⟩ := h env he
      rw [loadFrom] at henv
      dsimp only at henv
      rw [if_neg hskip, if_neg hpass, segment_roomy he, Bool.not_true,
        if_neg Bool.false_ne_true, cons_append, allSafe_cons, allSafe_append] at henv
      exact ⟨henv.2.1, _, henv.2.2⟩
    exact ⟨segment_needs hp hsmall hpage (words_ph f i bias) hsize fun env he =>
      (hstep env he).1, ih fun env he => (hstep env he).2⟩

end Loads

/-- A file is loaded with all its reads inside it and all its mappings in the user range, whatever
the allocator answers, exactly if it is refused or its table, its dynamic sections and the segments
that the loop comes to are right. -/
theorem elf_safe_iff (f : File) (bias : Nat) (hsize : f.size < 2 ^ 63) :
    (AllSafe f.size (limit bias) (elfOk f).2 ∧ ((elfOk f).1 = true → ∀ env,
      AllSafe f.size (limit bias) (elfInterp f).2 ∧
        AllSafe f.size (limit bias) (loadElf env f bias).2)) ↔
      ((elfOk f).1 = true → f.Within bias) := by
  rw [and_iff_right (elfOk_safe f _)]
  refine imp_congr_right fun hok => ⟨fun h => ?_, fun h env => ?_⟩
  · have hparts : ∀ env, AllSafe f.size (limit bias) (textrelFrom f (range f.phnum)).2 ∧
        AllSafe f.size (limit bias)
          (loadFrom env f (f.bias bias) (limit bias) (range f.phnum) ⟨0, 0⟩).2 := by
      intro env
      have henv := (h env).2
      unfold loadElf at henv
      dsimp only at henv
      split at henv
      · exact allSafe_append.1 henv
      · exact allSafe_append.1 (allSafe_append.1 (allSafe_append.1 henv).1).1
    obtain ⟨hhead, hdyn⟩ := textrelFrom_safe_iff.1 (hparts (roomy true)).1
    exact ⟨(headers_safe_iff hok hsize).1 hhead, fun i hi => hdyn i (mem_range.2 hi),
      loadFrom_needs hsize (limit_le bias) (limit_page bias) fun env _ => ⟨_, (hparts env).2⟩⟩
  have hhead : ∀ i ∈ range f.phnum,
      (Access.read (f.phAt i) phdrSize).Safe f.size (limit bias) :=
    (headers_safe_iff hok hsize).2 h.table
  have htext : AllSafe f.size (limit bias) (textrelFrom f (range f.phnum)).2 :=
    textrelFrom_safe_iff.2 ⟨hhead, fun i hi => h.dynamic i (mem_range.1 hi)⟩
  have hload := loadFrom_safe hsize (limit_le bias) (limit_page bias) env ⟨0, 0⟩ hhead h.loads
  refine ⟨interpFrom_safe hhead, ?_⟩
  unfold loadElf
  dsimp only
  split
  · exact allSafe_append.2 ⟨htext, hload⟩
  refine allSafe_append.2 ⟨allSafe_append.2 ⟨allSafe_append.2 ⟨htext, hload⟩, ?_⟩, ?_⟩
  · split
    · exact allSafe_nil
    · exact protectAll_safe hhead
  · exact protectAll_safe hhead

def exec (size : Nat) (bytes : List (Nat × UInt8)) : File where
  mem k := (([(0, 0x7F), (1, 0x45), (2, 0x4C), (3, 0x46), (4, 2), (16, 2), (18, 62), (56, 1)] ++
    bytes).lookup k).getD 0
  size := size

theorem within_one {f : File} {bias : Nat} (hnum : f.phnum = 1)
    (htable : f.phoff + f.phnum * phdrSize < 2 ^ 64) (hdyn : (f.ph 0).type ≠ ptDynamic)
    (hsound : Sound (f.ph 0) (add64 (f.ph 0).vaddr (f.bias bias)) f.size (limit bias)) :
    f.Within bias := by
  refine ⟨.inr htable, fun i hi hty => ?_, ?_⟩
  · obtain rfl : i = 0 := by omega
    exact absurd hty hdyn
  rw [hnum, range_one, LoadsOk, LoadsOk]
  split
  · trivial
  · exact fun _ => ⟨hsound, trivial⟩

/-- A segment of two pages of file bytes and one page of zeros at 4 MiB.  And a segment whose end
wraps, with less than a page of file bytes, of which nothing is mapped. -/
theorem elf_safe_static :
    (let f := exec 0x3000 [(32, 64), (64, 1), (82, 0x40), (97, 0x20), (105, 0x30)]
     (elfOk f).1 = true ∧ (loadElf (roomy true) f 0).1.1 = 0 ∧
       Access.cache 0x400000 0 0x2000 ∈ (loadElf (roomy true) f 0).2 ∧
       ∀ env, AllSafe f.size (limit 0) (loadElf env f 0).2) ∧
    (let f := exec 0x3000 ([(32, 64), (64, 1), (81, 0xD0), (96, 0x20), (105, 0x40)] ++
       (range 6).map fun k => (82 + k, 0xFF))
     (elfOk f).1 = true ∧ ∀ env, AllSafe f.size (limit 0) (loadElf env f 0).2) := by
  constructor
  · intro f
    have hok : (elfOk f).1 = true := by decide +kernel
    have hin : f.Within 0 := within_one (by decide +kernel) (by decide +kernel) (by decide +kernel)
      (by decide +kernel)
    have hsafe := ((elf_safe_iff f 0 (by decide)).2 fun _ => hin).2 hok
    exact ⟨hok, by decide +kernel, by decide +kernel, fun env => (hsafe env).2⟩
  · intro f
    have hok : (elfOk f).1 = true := by decide +kernel
    have hin : f.Within 0 := within_one (by decide +kernel) (by decide +kernel) (by decide +kernel)
      (by decide +kernel)
    have hsafe := ((elf_safe_iff f 0 (by decide)).2 fun _ => hin).2 hok
    exact ⟨hok, fun env => (hsafe env).2⟩

/-- A table of headers whose end wraps lies before the file.  A segment whose end wraps puts pages
of the file at the top of the address space. -/
theorem elf_unsafe :
    (let f := exec 64 ([(32, 0xC8)] ++ (range 7).map fun k => (33 + k, 0xFF))
     (elfOk f).1 = true ∧
       ∃ a ∈ (elfInterp f).2, ¬ a.Safe f.size (limit 0)) ∧
    (let f := exec 0x3000 ([(32, 64), (64, 1), (81, 0xD0), (97, 0x20), (105, 0x40)] ++
       (range 6).map fun k => (82 + k, 0xFF))
     (elfOk f).1 = true ∧
       ∃ a ∈ (loadElf (roomy true) f 0).2, ¬ a.Safe f.size (limit 0)) := by
  refine ⟨⟨by decide +kernel, .read 18446744073709551560 56, by decide +kernel, ?_⟩,
    ⟨by decide +kernel, .cache 18446744073709539328 0 0x2000, by decide +kernel, ?_⟩⟩
  · intro h
    have h : 18446744073709551560 + 56 ≤ 64 := h
    omega
  rintro ⟨-, h, -⟩
  have h : 18446744073709539328 + 0x2000 ≤ limit 0 := h
  have := limit_le 0
  omega

end SamaraOS.Elf
