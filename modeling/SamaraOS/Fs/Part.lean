import Mathlib

/-!
# Partitions (`part.c`, `ata.c`)

What a read of one sector of the disk gives is any function, so the tables may hold any bytes and
any read may fail.  A sector is a function on all offsets: an entry of the GPT can lie across the
end of the buffer, and what is read there is any byte as well.  A transfer is the list of commands
that the drive gets; the drive fails any of them.
-/

namespace SamaraOS.Partitions

open List

abbrev Sector := Nat → UInt8

abbrev Disk := Nat → Option Sector

def add32 (a b : Nat) : Nat := (a + b) % 2 ^ 32

def r32 (b : Sector) (o : Nat) : Nat :=
  (b o).toNat + (b (o + 1)).toNat * 2 ^ 8 + (b (o + 2)).toNat * 2 ^ 16 + (b (o + 3)).toNat * 2 ^ 24

theorem r32_lt (b : Sector) (o : Nat) : r32 b o < 2 ^ 32 := by
  have h₀ := (b o).toNat_lt
  have h₁ := (b (o + 1)).toNat_lt
  have h₂ := (b (o + 2)).toNat_lt
  have h₃ := (b (o + 3)).toNat_lt
  unfold r32
  omega

theorem add32_of_lt {a b : Nat} (h : a + b < 2 ^ 32) : add32 a b = a + b := Nat.mod_eq_of_lt h

/-! ## The scan -/

structure Found where
  start : Nat
  len : Nat
  num : Nat
  deriving DecidableEq

def signed (s : Sector) : Bool := s 510 == 0x55 && s 511 == 0xAA

def gptFrom (disk : Disk) (total lba sz : Nat) : Nat → Nat → Sector → List Found
  | 0, _, _ => []
  | n + 1, i, e =>
    let off := i * sz
    match if i = 0 ∨ off % 512 = 0 then disk (add32 lba (off / 512)) else some e with
    | none => []
    | some e =>
      let p : Sector := fun k => e (off % 512 + k)
      let st := r32 p 32
      let en := r32 p 40
      (if (List.range 16).all (fun k => p k == 0) then []
        else if r32 p 36 ≠ 0 ∨ r32 p 44 ≠ 0 ∨ en < st ∨ total ≤ en then []
        else [⟨st, en - st + 1, i + 1⟩]) ++ gptFrom disk total lba sz n (i + 1) e

def efiPart : List UInt8 := [0x45, 0x46, 0x49, 0x20, 0x50, 0x41, 0x52, 0x54]

def holds (s : Sector) (o : Nat) (text : List UInt8) : Bool :=
  (List.range text.length).map (fun k => s (o + k)) == text

def scanGpt (disk : Disk) (total : Nat) : List Found :=
  match disk 1 with
  | none => []
  | some h =>
    if !holds h 0 efiPart then []
    else
      let lba := r32 h 72
      let cnt := r32 h 80
      let sz := r32 h 84
      if sz < 128 ∨ 512 < sz ∨ 256 < cnt then [] else gptFrom disk total lba sz cnt 0 h

def ebrFrom (disk : Disk) (total eb : Nat) : Nat → Nat → Nat → List Found
  | 0, _, _ => []
  | n + 1, k, cur =>
    match disk cur with
    | none => []
    | some b =>
      if !signed b then []
      else
        let ls := r32 b 454
        let ll := r32 b 458
        let ns := r32 b 470
        (if b 450 ≠ 0 ∧ ll ≠ 0 ∧ add32 (add32 cur ls) ll ≤ total then [⟨add32 cur ls, ll, 5 + k⟩]
          else []) ++
        if b 466 = 0 ∨ ns = 0 then [] else ebrFrom disk total eb n (k + 1) (add32 eb ns)

def mbrEntry (disk : Disk) (total : Nat) (s : Sector) (i : Nat) : List Found :=
  let p : Sector := fun k => s (446 + i * 16 + k)
  let st := r32 p 8
  let len := r32 p 12
  if p 4 = 0 ∨ len = 0 ∨ total < add32 st len ∨ add32 st len < st then []
  else if p 4 = 5 ∨ p 4 = 0x0f ∨ p 4 = 0x85 then ebrFrom disk total st 32 0 st
  else [⟨st, len, i + 1⟩]

inductive Kind where
  | none | mbr | gpt

def kindFrom (s : Sector) : List Nat → Kind
  | [] => .mbr
  | i :: is =>
    if s (446 + i * 16) &&& 0x7f ≠ 0 then .none
    else if s (446 + i * 16 + 4) = 0xEE then .gpt
    else kindFrom s is

def fat : List UInt8 := [0x46, 0x41, 0x54]

def fat32 : List UInt8 := [0x46, 0x41, 0x54, 0x33, 0x32]

def scan (disk : Disk) (total : Nat) : List Found :=
  match disk 0 with
  | none => []
  | some s =>
    if !signed s then []
    else if holds s 54 fat || holds s 82 fat32 then []
    else
      match kindFrom s (List.range 4) with
      | .none => []
      | .gpt => scanGpt disk total
      | .mbr => (List.range 4).flatMap (mbrEntry disk total s)

structure Part where
  parent : Nat
  num : Nat
  start : Nat
  len : Nat
  deriving DecidableEq

abbrev Table := List (Option Part)

def partAdd (p : Part) : Table → Option Table
  | [] => none
  | none :: t => some (some p :: t)
  | some q :: t => (partAdd p t).map (some q :: ·)

def addAll (d : Nat) : List Found → Table → Nat × Table
  | [], t => (0, t)
  | f :: fs, t =>
    match partAdd ⟨d, f.num, f.start, f.len⟩ t with
    | none => addAll d fs t
    | some t =>
      let r := addAll d fs t
      (r.1 + 1, r.2)

def partScan (d : Nat) (disk : Disk) (total : Nat) (t : Table) : Nat × Table :=
  addAll d (scan disk total) t

inductive Drive where
  | ide (sectors : UInt32)
  | ahci (sectors : UInt32)
  | virtio (sectors : UInt32)
  | nvme (shift maxSec : Nat) (sectors : UInt64)
  | usb (sectors : UInt32)
  /-- A drive that is not present. -/
  | gone

def Drive.sectors : Drive → Nat
  | .ide n | .ahci n | .virtio n | .usb n => n.toNat
  | .nvme _ _ n => min n.toNat (2 ^ 32 - 1)
  | .gone => 0

/-- The commands of a loop that takes at most `max` sectors at a time. -/
def chunks (max : Nat) : Nat → Nat → Nat → List (Nat × Nat)
  | 0, _, _ => []
  | fuel + 1, lba, count =>
    if count = 0 then []
    else
      let n := min count max
      (lba, n) :: chunks max fuel (add32 lba n) (count - n)

def aligned (shift lba n : Nat) : Bool := shift = 0 || (lba % 2 ^ shift = 0 && n % 2 ^ shift = 0)

/-- The sectors of the commands that a transfer gives to the drive if none fails; `none` if it is
refused.  An IDE command has 28 bits for the sector. -/
def Drive.commands (lba count : Nat) : Drive → Option (List (Nat × Nat))
  | .ide _ => some ((chunks 255 count lba count).map fun c => (c.1 % 2 ^ 28, c.2))
  | .ahci n => if n.toNat < add32 lba count ∨ add32 lba count < lba then none
      else some (chunks 128 count lba count)
  | .virtio _ | .usb _ => some (chunks 128 count lba count)
  | .nvme shift max n => if n.toNat < lba + count then none
      else some (((chunks max count lba count).takeWhile fun c => aligned shift c.1 c.2).map
        fun c => (c.1 / 2 ^ shift * 2 ^ shift, c.2 / 2 ^ shift * 2 ^ shift))
  | .gone => none

def upTo (fails : Nat → Bool) : Nat → List (Nat × Nat) → List (Nat × Nat)
  | _, [] => []
  | k, c :: cs => c :: if fails k then [] else upTo fails (k + 1) cs

def Part.request (p : Part) (lba count : Nat) : Option (Nat × Nat) :=
  if p.len < add32 lba count then none else some (add32 p.start lba, count)

def Part.commands (p : Part) (d : Drive) (fails : Nat → Bool) (lba count : Nat) :
    List (Nat × Nat) :=
  match p.request lba count with
  | none => []
  | some r => (d.commands r.1 r.2).elim [] (upTo fails 0)

/-! ## What is registered -/

def Fair (total : Nat) (f : Found) : Prop := f.start + f.len ≤ total ↔ f.start + f.len < 2 ^ 32

theorem Fair.of_le {total : Nat} {f : Found} (ht : total < 2 ^ 32) (h : f.start + f.len ≤ total) :
    Fair total f := ⟨fun _ => by omega, fun _ => h⟩

section Scan

variable {disk : Disk} {total : Nat} {f : Found}

section

variable (ht : total < 2 ^ 32)

include ht

theorem gptFrom_fair {lba sz n i : Nat} {e : Sector}
    (hf : f ∈ gptFrom disk total lba sz n i e) : Fair total f := by
  induction n generalizing i e with
  | zero => cases hf
  | succ n ih =>
    rw [gptFrom] at hf
    split at hf
    · cases hf
    rcases mem_append.1 hf with hf | hf
    swap
    · exact ih hf
    split at hf
    · cases hf
    split at hf
    · cases hf
    rw [mem_singleton.1 hf]
    apply Fair.of_le ht
    dsimp only
    omega

theorem scanGpt_fair (hf : f ∈ scanGpt disk total) : Fair total f := by
  unfold scanGpt at hf
  split at hf
  · cases hf
  split at hf
  · cases hf
  dsimp only at hf
  split at hf
  · cases hf
  · exact gptFrom_fair ht hf

theorem ebrFrom_fair {eb n k cur : Nat}
    (hf : f ∈ ebrFrom disk total eb n k cur) : Fair total f := by
  induction n generalizing k cur with
  | zero => cases hf
  | succ n ih =>
    rw [ebrFrom] at hf
    split at hf
    · cases hf
    split at hf
    · cases hf
    rcases mem_append.1 hf with hf | hf
    · split at hf
      · rename_i hc
        rw [mem_singleton.1 hf]
        refine ⟨fun h => Nat.lt_of_le_of_lt h ht, fun h => ?_⟩
        have hle := hc.2.2
        rwa [add32_of_lt h] at hle
      · cases hf
    split at hf
    · cases hf
    · exact ih hf

theorem mbrEntry_fair {s : Sector} {i : Nat}
    (hf : f ∈ mbrEntry disk total s i) : Fair total f := by
  unfold mbrEntry at hf
  dsimp only at hf
  split at hf
  · cases hf
  rename_i hc
  split at hf
  · exact ebrFrom_fair ht hf
  rw [mem_singleton.1 hf]
  apply Fair.of_le ht
  have hlen := r32_lt (fun k => s (446 + i * 16 + k)) 12
  simp only [not_or, Nat.not_lt, add32] at hc
  dsimp only
  omega

theorem scan_fair (hf : f ∈ scan disk total) : Fair total f := by
  unfold scan at hf
  split at hf
  · cases hf
  split at hf
  · cases hf
  split at hf
  · cases hf
  split at hf
  · cases hf
  · exact scanGpt_fair ht hf
  obtain ⟨i, -, hf⟩ := mem_flatMap.1 hf
  exact mbrEntry_fair ht hf

end

end Scan

section Slots

variable {P : Part → Prop} {p : Part} {t t' : Table}

def NewIn (P : Part → Prop) (t t' : Table) : Prop :=
  ∀ (j : Nat) (p : Part), t'[j]? = some (some p) → t[j]? = some none → P p

theorem NewIn.refl (P : Part → Prop) (t : Table) : NewIn P t t := by
  intro j p h h'
  rw [h] at h'
  cases h'

theorem partAdd_none : partAdd p t = none ↔ t.count none = 0 := by
  induction t with
  | nil => simp [partAdd]
  | cons a t ih =>
    cases a with
    | none => simp [partAdd]
    | some q => simp [partAdd, ih]

theorem partAdd_some (h : partAdd p t = some t') : ∃ i, t[i]? = some none ∧ t' = t.set i (some p) ∧
    t.count none = t'.count none + 1 := by
  induction t generalizing t' with
  | nil => cases h
  | cons a t ih =>
    cases a with
    | none =>
      cases h
      exact ⟨0, rfl, rfl, by simp⟩
    | some q =>
      obtain ⟨u, hu, rfl⟩ := Option.map_eq_some_iff.1 h
      obtain ⟨i, hi, rfl, hcount⟩ := ih hu
      exact ⟨i + 1, hi, rfl, by simpa using hcount⟩

theorem addAll_used {d j : Nat} {fs : List Found} (h : t[j]? = some (some p)) :
    (addAll d fs t).2[j]? = some (some p) := by
  induction fs generalizing t with
  | nil => exact h
  | cons f fs ih =>
    rw [addAll]
    split
    · exact ih h
    rename_i t' hadd
    obtain ⟨i, hi, rfl, -⟩ := partAdd_some hadd
    apply ih
    have hij : i ≠ j := by
      rintro rfl
      rw [hi] at h
      cases h
    rw [getElem?_set_ne hij]
    exact h

theorem addAll_newIn (d : Nat) (fs : List Found) (t : Table) : NewIn P t (addAll d fs t).2 ↔
      ∀ f ∈ fs.take (t.count none), P ⟨d, f.num, f.start, f.len⟩ := by
  induction fs generalizing t with
  | nil => exact ⟨fun _ _ hf => by simp at hf, fun _ => NewIn.refl P t⟩
  | cons f fs ih =>
    rw [addAll]
    split
    · rename_i hadd
      have hfull := partAdd_none.1 hadd
      rw [ih t, hfull]
      simp
    rename_i t' hadd
    obtain ⟨i, hi, rfl, hcount⟩ := partAdd_some hadd
    have hlt : i < t.length := (List.getElem?_eq_some_iff.1 hi).1
    have hslot : (t.set i (some ⟨d, f.num, f.start, f.len⟩))[i]? =
        some (some ⟨d, f.num, f.start, f.len⟩) := by simp [hlt]
    rw [hcount, take_succ_cons, forall_mem_cons, ← ih]
    constructor
    · intro h
      refine ⟨h i _ (addAll_used hslot) hi, fun j p hp hfree => ?_⟩
      have hij : i ≠ j := by
        rintro rfl
        rw [hslot] at hfree
        cases hfree
      rw [getElem?_set_ne hij] at hfree
      exact h j p hp hfree
    rintro ⟨hf, h⟩ j p hp hfree
    by_cases hij : i = j
    · subst hij
      rw [addAll_used hslot] at hp
      cases hp
      exact hf
    refine h j p hp ?_
    rw [getElem?_set_ne hij]
    exact hfree

end Slots

/-! ## What is transferred -/

theorem Drive.sectors_lt (d : Drive) : d.sectors < 2 ^ 32 := by
  cases d with
  | ide n | ahci n | virtio n | usb n => exact n.toNat_lt
  | nvme s m n =>
    simp only [Drive.sectors]
    omega
  | gone => decide

def Within (s e : Nat) (cs : List (Nat × Nat)) : Prop := ∀ c ∈ cs, s ≤ c.1 ∧ c.1 + c.2 ≤ e

theorem chunks_within {max fuel lba count : Nat} (h : lba + count < 2 ^ 32) :
    Within lba (lba + count) (chunks max fuel lba count) := by
  induction fuel generalizing lba count with
  | zero => exact fun c hc => by cases hc
  | succ fuel ih =>
    rw [chunks]
    split
    · exact fun c hc => by cases hc
    intro c hc
    rcases mem_cons.1 hc with rfl | hc
    · exact ⟨Nat.le_refl _, by dsimp only; omega⟩
    rw [add32_of_lt (by omega)] at hc
    have := ih (by omega) c hc
    omega

theorem chunks_pos {max fuel lba count : Nat} (hmax : 0 < max) {c : Nat × Nat}
    (hc : c ∈ chunks max fuel lba count) : 0 < c.2 := by
  induction fuel generalizing lba count with
  | zero => cases hc
  | succ fuel ih =>
    rw [chunks] at hc
    split at hc
    · cases hc
    rcases mem_cons.1 hc with rfl | hc
    · dsimp only
      omega
    · exact ih hc

theorem aligned_eq {shift lba n : Nat} (h : aligned shift lba n = true) :
    lba / 2 ^ shift * 2 ^ shift = lba ∧ n / 2 ^ shift * 2 ^ shift = n := by
  simp only [aligned, Bool.or_eq_true, Bool.and_eq_true, decide_eq_true_eq] at h
  rcases h with rfl | ⟨h₁, h₂⟩
  · simp
  exact ⟨Nat.div_mul_cancel (Nat.dvd_of_mod_eq_zero h₁),
    Nat.div_mul_cancel (Nat.dvd_of_mod_eq_zero h₂)⟩

/-- The sectors of an IDE drive have 28-bit numbers, and a chunk for NVMe is not empty. -/
def Drive.Named : Drive → Prop
  | .ide n => n.toNat ≤ 2 ^ 28
  | .nvme _ maxSec _ => 0 < maxSec
  | _ => True

theorem Drive.commands_within {d : Drive} {lba count : Nat} {cs : List (Nat × Nat)}
    (hd : d.Named) (h : lba + count ≤ d.sectors) (hcs : d.commands lba count = some cs) :
    Within lba (lba + count) cs := by
  have hlt := d.sectors_lt
  have hchunks : ∀ max, Within lba (lba + count) (chunks max count lba count) :=
    fun max => chunks_within (by omega)
  cases d with
  | ide n =>
    cases hcs
    intro c hc
    obtain ⟨a, ha, rfl⟩ := mem_map.1 hc
    have hin := hchunks 255 a ha
    simp only [Drive.sectors, Drive.Named] at h hd
    have hpos := chunks_pos (by decide) ha
    rw [Nat.mod_eq_of_lt (by omega)]
    exact hin
  | ahci n =>
    simp only [Drive.commands] at hcs
    split at hcs
    · cases hcs
    cases hcs
    exact hchunks 128
  | virtio n | usb n =>
    cases hcs
    exact hchunks 128
  | nvme shift max n =>
    simp only [Drive.commands] at hcs
    split at hcs
    · cases hcs
    cases hcs
    intro c hc
    obtain ⟨a, ha, rfl⟩ := mem_map.1 hc
    have hin := hchunks max a (( takeWhile_prefix _).subset ha)
    have hal : aligned shift a.1 a.2 = true := by simpa using mem_takeWhile_imp ha
    rw [(aligned_eq hal).1, (aligned_eq hal).2]
    exact hin
  | gone => cases hcs

theorem upTo_subset {fails : Nat → Bool} {k : Nat} {cs : List (Nat × Nat)} {c : Nat × Nat}
    (h : c ∈ upTo fails k cs) : c ∈ cs := by
  induction cs generalizing k with
  | nil => cases h
  | cons a cs ih =>
    rcases mem_cons.1 h with rfl | h
    · exact mem_cons_self
    split at h
    · cases h
    · exact mem_cons_of_mem _ (ih h)

theorem request_inside_iff {p : Part} {lba count : Nat} (hp : p.start + p.len < 2 ^ 32)
    (hlba : lba < 2 ^ 32) (hcount : 0 < count) (hint : count < 2 ^ 31) :
    (∀ r, p.request lba count = some r → p.start ≤ r.1 ∧ r.1 + r.2 ≤ p.start + p.len) ↔
      lba + count < 2 ^ 32 ∨ p.len < add32 lba count := by
  unfold Part.request
  by_cases hlen : p.len < add32 lba count
  · simp [hlen]
  simp only [hlen, if_false, Option.some.injEq, forall_eq', or_false]
  constructor
  · rintro ⟨h₁, h₂⟩
    unfold add32 at h₁ h₂
    omega
  intro h
  rw [add32_of_lt h] at hlen
  rw [add32_of_lt (by omega)]
  omega

theorem Part.commands_within {p : Part} {d : Drive} {lba count : Nat} (fails : Nat → Bool)
    (hd : d.Named) (hp : p.start + p.len ≤ d.sectors) (h : lba + count < 2 ^ 32) :
    Within p.start (p.start + p.len) (p.commands d fails lba count) := by
  have hlt := d.sectors_lt
  unfold Part.commands
  cases hr : p.request lba count with
  | none => exact fun c hc => by cases hc
  | some r =>
    unfold Part.request at hr
    split at hr
    · cases hr
    rename_i hlen
    cases hr
    rw [add32_of_lt h] at hlen
    rw [add32_of_lt (by omega)]
    dsimp only
    cases hcs : d.commands (p.start + lba) count with
    | none => exact fun c hc => by cases hc
    | some cs =>
      intro c hc
      have := d.commands_within hd (by omega) hcs c (upTo_subset hc)
      omega

/-- The partitions that a scan registers, and every transfer through one that lies on the disk. -/
theorem io_confined (d : Drive) (i : Nat) (disk : Disk) (t : Table) :
    (NewIn (fun p => p.start + p.len ≤ d.sectors) t (partScan i disk d.sectors t).2 ↔
      ∀ f ∈ (scan disk d.sectors).take (t.count none), f.start + f.len < 2 ^ 32) ∧
    ∀ p : Part, p.start + p.len ≤ d.sectors → ∀ lba count, lba < 2 ^ 32 → 0 < count →
      count < 2 ^ 31 →
      ((∀ r, p.request lba count = some r → p.start ≤ r.1 ∧ r.1 + r.2 ≤ p.start + p.len) ↔
        lba + count < 2 ^ 32 ∨ p.len < add32 lba count) ∧
      (lba + count < 2 ^ 32 → d.Named → ∀ fails,
        Within p.start (p.start + p.len) (p.commands d fails lba count)) := by
  have hlt := d.sectors_lt
  constructor
  · rw [partScan, addAll_newIn]
    refine forall₂_congr fun f hf => ?_
    exact scan_fair hlt (mem_of_mem_take hf)
  intro p hp lba count hlba hcount hint
  refine ⟨request_inside_iff (by omega) hlba hcount hint, ?_⟩
  exact fun h hd fails => Part.commands_within fails hd hp h

def extended (ls₀ ls₁ ls₂ ls₃ ll : UInt8) : Disk
  | 0 => some fun
    | 450 => 5
    | 454 => 1
    | 458 => 10
    | 510 => 0x55
    | 511 => 0xAA
    | _ => 0
  | 1 => some fun
    | 450 => 0x83
    | 454 => ls₀
    | 455 => ls₁
    | 456 => ls₂
    | 457 => ls₃
    | 458 => ll
    | 510 => 0x55
    | 511 => 0xAA
    | _ => 0
  | _ => none

/-- A logical partition at the second sector of the extended one, and its last sector. -/
theorem io_confined_extended :
    (partScan 0 (extended 1 0 0 0 9) 100 [none]).2 = [some ⟨0, 5, 2, 9⟩] ∧
    NewIn (fun p => p.start + p.len ≤ 100) [none] (partScan 0 (extended 1 0 0 0 9) 100 [none]).2 ∧
    Within 2 11 (Part.commands ⟨0, 5, 2, 9⟩ (.ide 100) (fun _ => false) 8 1) := by
  have h := io_confined (.ide 100) 0 (extended 1 0 0 0 9) [none]
  refine ⟨by decide +kernel, h.1.2 (by decide +kernel), ?_⟩
  exact (h.2 ⟨0, 5, 2, 9⟩ (by decide) 8 1 (by decide) (by decide) (by decide)).2 (by decide)
    (by unfold Drive.Named; decide) fun _ => false

/-- The end of a logical partition wraps and it is registered outside of the disk.  A transfer of
one sector at the last 32-bit number goes to the sector before the partition. -/
theorem io_escapes : (partScan 0 (extended 0xF0 0xFF 0xFF 0xFF 0x20) 100 [none]).2 =
    [some ⟨0, 5, 4294967281, 32⟩] ∧ Part.commands ⟨0, 1, 10, 20⟩ (.ide 100) (fun _ => false)
    4294967295 1 = [(9, 1)] := by
  decide +kernel

end SamaraOS.Partitions
