import Mathlib

/-!
# Swap areas

`swap_alloc` takes a slot of the first enabled area of the highest priority that is not full by
its counter.  The counter leaves out the bad pages of the header, which never become free.
-/

namespace SamaraOS.Swap

open Function List

/-- `SWAP_AREAS` -/
def areas : Nat := 4

structure Area where
  isOn : Bool
  disk : Nat
  prio : Int
  pages : Nat
  used : Nat
  next : Nat
  /-- Whether `map` is there. -/
  mapped : Bool
  map : Nat → Nat

abbrev State := Nat → Area

/-- What `swap_on` gets from a drive and its header; `mem` is the answer of `kmalloc`. -/
structure Drive where
  present : Bool
  readOk : Bool
  magic : Bool
  last : Nat
  nbad : Nat
  bad : Nat → Nat
  sectors : Nat
  mem : Bool

def Drive.lastPage (d : Drive) : Nat :=
  if (d.last + 1) % 2 ^ 32 > d.sectors / 8 then (d.sectors / 8 + 2 ^ 32 - 1) % 2 ^ 32 else d.last

def Drive.map (d : Drive) (i : Nat) : Nat :=
  if i = 0 ∨ ∃ k < min d.nbad 512, d.bad k = i then 255 else 0

def swapAreaOf (ar : State) (disk : Nat) : Option Nat :=
  (range areas).find? fun i => (ar i).isOn && (ar i).disk == disk

def swapOn (d : Drive) (disk : Nat) (prio : Int) (ar : State) : State × Int :=
  if !d.present then (ar, -19)
  else if (swapAreaOf ar disk).isSome then (ar, -16)
  else match (range areas).find? fun i => !(ar i).isOn && !(ar i).mapped with
    | none => (ar, -24)
    | some a =>
      if !d.readOk then (ar, -5)
      else if !d.magic || d.lastPage < 10 then (ar, -22)
      else if !d.mem then (ar, -12)
      else (update ar a ⟨true, disk, prio, (d.lastPage + 1) % 2 ^ 32, 0, 1, true, d.map⟩, 0)

/-- `swap_off` up to `vmm_swap_drain`. -/
def swapOff (disk : Nat) (ar : State) : State :=
  match swapAreaOf ar disk with
  | none => ar
  | some a => update ar a { ar a with isOn := false }

/-- The end of `swap_off`, once the pages of area `a` are back in memory or could not be. -/
def drained (a : Nat) (ok : Bool) (ar : State) : State :=
  if (ar a).isOn || !(ar a).mapped then ar
  else if ok then update ar a { ar a with mapped := false }
  else update ar a { ar a with isOn := true }

/-- `ar[i].isOn && ar[i].used < ar[i].pages - 1` -/
def room (ar : State) (i : Nat) : Bool :=
  (ar i).isOn && (ar i).used < ((ar i).pages + 2 ^ 32 - 1) % 2 ^ 32

def better (ar : State) (best : Option Nat) (i : Nat) : Option Nat :=
  if room ar i && best.all fun b => (ar b).prio < (ar i).prio then some i else best

def Area.find (s : Area) : Option Nat :=
  ((range s.pages).map fun n => (s.next + n) % 2 ^ 32 % s.pages).find? fun i => s.map i == 0

def swapAlloc (ar : State) : State × Option Nat :=
  match (range areas).foldl (better ar) none with
  | none => (ar, none)
  | some a =>
    match (ar a).find with
    | none => (ar, none)
    | some i =>
      (update ar a { ar a with
        map := update (ar a).map i 1, used := (ar a).used + 1, next := i + 1 }, some (a <<< 28 ||| i))

/-- `swap_dup` and `swap_put` of the slot: its count becomes `v`. -/
def recount (slot : Nat) (v : Nat → Nat) (ar : State) : State :=
  let s := ar (slot / 2 ^ 28)
  let i := slot % 2 ^ 28
  if s.mapped && i < s.pages && s.map i ≠ 0 && s.map i < 254 then
    update ar (slot / 2 ^ 28) { s with
      map := update s.map i (v (s.map i)), used := if v (s.map i) = 0 then s.used - 1 else s.used }
  else ar

def swapDup (slot : Nat) : State → State := recount slot (· + 1)

def swapPut (slot : Nat) : State → State := recount slot (· - 1)

def swapFree (ar : State) : Nat :=
  (Finset.range areas).sum fun i =>
    if (ar i).isOn then ((ar i).pages + 2 ^ 33 - 1 - (ar i).used) % 2 ^ 32 else 0

inductive Op where
  | enable (d : Drive) (disk : Nat) (prio : Int)
  | off (disk : Nat)
  | drained (a : Nat) (ok : Bool)
  | alloc
  | dup (slot : Nat)
  | put (slot : Nat)

def step (ar : State) : Op → State
  | .enable d disk prio => (swapOn d disk prio ar).1
  | .off disk => swapOff disk ar
  | .drained a ok => drained a ok ar
  | .alloc => (swapAlloc ar).1
  | .dup slot => swapDup slot ar
  | .put slot => swapPut slot ar

def boot : State := fun _ => ⟨false, 0, 0, 0, 0, 0, false, fun _ => 0⟩

def Free (ar : State) (a i : Nat) : Prop :=
  a < areas ∧ (ar a).isOn ∧ i < (ar a).pages ∧ (ar a).map i = 0

structure Right (ar : State) : Prop where
  finds : (∃ a i, Free ar a i) → (swapAlloc ar).2.isSome
  best : ∀ slot ∈ (swapAlloc ar).2, Free ar (slot / 2 ^ 28) (slot % 2 ^ 28) ∧
    ∀ a i, Free ar a i → (ar a).prio ≤ (ar (slot / 2 ^ 28)).prio
  full : swapFree ar = 0 ↔ (swapAlloc ar).2 = none

/-- No bad page lies in the area, and its slots have room in 28 bits. -/
def Op.Plain : Op → Prop
  | .enable d _ _ => d.lastPage < 2 ^ 28 ∧ ∀ k < min d.nbad 512, d.bad k = 0 ∨ d.lastPage < d.bad k
  | _ => True

/-! ## The counter -/

def taken (pages : Nat) (map : Nat → Nat) : Finset Nat := (Finset.range pages).filter (map · ≠ 0)

structure Area.Good (s : Area) : Prop where
  size : 0 < s.pages ∧ s.pages ≤ 2 ^ 28
  next : s.next ≤ s.pages
  head : s.map 0 = 255
  used : (taken s.pages s.map).card = s.used + 1

def Inv (ar : State) : Prop := ∀ a, ((ar a).isOn → (ar a).mapped) ∧ ((ar a).mapped → (ar a).Good)

variable {ar : State} {s : Area} {a i v used next : Nat}

def one (n : Nat) : Nat := if n = 0 then 0 else 1

theorem card_update (map : Nat → Nat) {pages : Nat} (hi : i < pages) :
    (taken pages (update map i v)).card + one (map i) = (taken pages map).card + one v := by
  have hset : taken pages (update map i v) =
      if v = 0 then (taken pages map).erase i else insert i (taken pages map) := by
    ext x
    by_cases hx : x = i <;> split <;> simp_all [taken]
  have hmem : i ∈ taken pages map ↔ map i ≠ 0 := by simp [taken, hi]
  rw [hset]
  by_cases hm : map i = 0
  · split <;> simp [one, *]
  have hin := hmem.2 hm
  split
  · next hv =>
    rw [one, if_neg hm, one, if_pos hv]
    exact Finset.card_erase_add_one hin
  · simp [one, *]

section

variable (h : s.Good)

include h

theorem Area.Good.used_lt : s.used < s.pages := by
  have hle : (taken s.pages s.map).card ≤ _ := Finset.card_filter_le _ _
  rw [h.used, Finset.card_range] at hle
  exact hle

theorem Area.Good.set (hi : i < s.pages) (hz : i ≠ 0)
    (hused : used + one (s.map i) = s.used + one v) (hnext : next ≤ s.pages) :
    Area.Good { s with map := update s.map i v, used := used, next := next } := by
  refine ⟨h.size, hnext, by simp [hz.symm, h.head], ?_⟩
  have := @card_update i v s.map s.pages hi
  have := h.used
  dsimp only
  omega

theorem Area.Good.used_pos (hi : i < s.pages) (hz : i ≠ 0) (hm : s.map i ≠ 0) :
    0 < s.used := by
  have hcard := @card_update i 0 s.map s.pages hi
  have hhead : 0 ∈ taken s.pages (update s.map i 0) := by
    simp [taken, hz.symm, h.head, h.size.1]
  have := Finset.card_pos.2 ⟨0, hhead⟩
  have := h.used
  simp only [one, hm, if_true, if_false] at hcard
  omega

theorem Area.Good.room_mod : (s.pages + 2 ^ 32 - 1) % 2 ^ 32 = s.pages - 1 := by
  have := h.size
  omega

theorem Area.Good.room_iff :
    s.used < (s.pages + 2 ^ 32 - 1) % 2 ^ 32 ↔ ∃ i < s.pages, s.map i = 0 := by
  rw [h.room_mod]
  have hused := h.used
  constructor
  · intro hlt
    by_contra hno
    push Not at hno
    rw [taken, Finset.filter_true_of_mem (by simpa using hno), Finset.card_range] at hused
    omega
  rintro ⟨i, hi, h0⟩
  have hsub : taken s.pages s.map ⊂ Finset.range s.pages :=
    Finset.filter_ssubset.2 ⟨i, Finset.mem_range.2 hi, not_not.2 h0⟩
  have hlt := Finset.card_lt_card hsub
  rw [Finset.card_range] at hlt
  omega

theorem Area.Good.find_some (hfree : ∃ i < s.pages, s.map i = 0) :
    ∃ i, s.find = some i := by
  obtain ⟨i, hi, h0⟩ := hfree
  have hsize := h.size
  have hnext := h.next
  refine Option.isSome_iff_exists.1 (find?_isSome.2 ⟨i, mem_map.2 ?_, by simp [h0]⟩)
  by_cases hle : s.next ≤ i
  · refine ⟨i - s.next, mem_range.2 (by omega), ?_⟩
    rw [Nat.add_sub_cancel' hle, Nat.mod_eq_of_lt (show i < 2 ^ 32 by omega), Nat.mod_eq_of_lt hi]
  refine ⟨i + s.pages - s.next, mem_range.2 (by omega), ?_⟩
  rw [show s.next + (i + s.pages - s.next) = i + s.pages by omega,
    Nat.mod_eq_of_lt (show i + s.pages < 2 ^ 32 by omega), Nat.add_mod_right, Nat.mod_eq_of_lt hi]

theorem Area.Good.of_find (hi : s.find = some i) : i < s.pages ∧ s.map i = 0 := by
  refine ⟨?_, by simpa using find?_some hi⟩
  obtain ⟨n, -, rfl⟩ := mem_map.1 (mem_of_find?_eq_some hi)
  exact Nat.mod_lt _ h.size.1

end

theorem Inv.set (h : Inv ar) (hon : s.isOn → s.mapped) (hgood : s.mapped → s.Good) :
    Inv (update ar a s) := by
  intro b
  by_cases hb : b = a
  · subst hb
    simpa using ⟨hon, hgood⟩
  · simpa [hb] using h b

theorem Drive.good {d : Drive} {disk : Nat} {prio : Int} (hlast : d.lastPage < 2 ^ 28)
    (hbad : ∀ k < min d.nbad 512, d.bad k = 0 ∨ d.lastPage < d.bad k) :
    Area.Good ⟨true, disk, prio, (d.lastPage + 1) % 2 ^ 32, 0, 1, true, d.map⟩ := by
  rw [Nat.mod_eq_of_lt (by omega)]
  refine ⟨⟨Nat.succ_pos _, hlast⟩, Nat.le_add_left _ _, by simp [Drive.map], ?_⟩
  refine Finset.card_eq_one.2 ⟨0, ?_⟩
  ext i
  simp only [taken, Finset.mem_singleton, Drive.map]
  grind

theorem Inv.recount {slot : Nat} {v : Nat → Nat} (h : Inv ar) : Inv (recount slot v ar) := by
  unfold Swap.recount
  dsimp only
  split
  · next hc =>
    simp only [Bool.and_eq_true, decide_eq_true_eq] at hc
    obtain ⟨⟨⟨hmapped, hi⟩, hm⟩, hlt⟩ := hc
    have hgood := (h _).2 hmapped
    have hz : slot % 2 ^ 28 ≠ 0 := by
      intro h0
      rw [h0, hgood.head] at hlt
      omega
    refine h.set (fun _ => hmapped) fun _ => hgood.set hi hz ?_ hgood.next
    have := hgood.used_pos hi hz hm
    unfold one
    split_ifs <;> omega
  · exact h

theorem Inv.alloc (h : Inv ar) : Inv (swapAlloc ar).1 := by
  unfold swapAlloc
  split
  · exact h
  split
  · exact h
  next a _ _ i hi =>
  refine h.set (h a).1 fun hmapped => ?_
  have hgood := (h a).2 hmapped
  obtain ⟨hlt, h0⟩ := hgood.of_find hi
  refine hgood.set hlt ?_ (by simp [one, h0]) hlt
  rintro rfl
  rw [hgood.head] at h0
  cases h0

theorem Inv.step (h : Inv ar) {op : Op} (hop : op.Plain) : Inv (step ar op) := by
  cases op with
  | enable d disk prio =>
    simp only [Swap.step, swapOn]
    repeat' split
    all_goals first | exact h | exact h.set (fun _ => rfl) fun _ => Drive.good hop.1 hop.2
  | off disk =>
    simp only [Swap.step, swapOff]
    split
    · exact h
    · next a _ => exact h.set nofun fun hm => { (h a).2 hm with }
  | drained a ok =>
    simp only [Swap.step, drained]
    split_ifs with hc
    · exact h
    · exact h.set (fun hon => absurd hon (by simp_all)) nofun
    · exact h.set (fun _ => by simp_all) fun hm => { (h a).2 hm with }
  | alloc => exact h.alloc
  | dup slot | put slot => exact h.recount

theorem best_spec (l : List Nat) (b : Option Nat) :
    match l.foldl (better ar) b with
    | none => b = none ∧ ∀ i ∈ l, room ar i = false
    | some a => (b = some a ∨ a ∈ l ∧ room ar a) ∧ (∀ c ∈ b, (ar c).prio ≤ (ar a).prio) ∧
      ∀ i ∈ l, room ar i → (ar i).prio ≤ (ar a).prio := by
  induction l generalizing b with
  | nil => cases b <;> simp
  | cons x l ih =>
    have hx := ih (better ar b x)
    rw [foldl_cons]
    generalize l.foldl (better ar) (better ar b x) = r at hx ⊢
    unfold better at hx
    cases b <;> cases r <;> grind

theorem Inv.room_iff (h : Inv ar) (ha : a < areas) : room ar a ↔ ∃ i, Free ar a i := by
  simp only [room, Free, Bool.and_eq_true, decide_eq_true_eq, ha, true_and, exists_and_left]
  exact and_congr_right fun hon => ((h a).2 ((h a).1 hon)).room_iff

theorem Inv.swapFree_eq_zero (h : Inv ar) : swapFree ar = 0 ↔ ∀ a < areas, room ar a = false := by
  simp only [swapFree, Finset.sum_eq_zero_iff, Finset.mem_range]
  refine forall₂_congr fun a _ => ?_
  cases hon : (ar a).isOn with
  | false => simp only [room, hon, Bool.false_eq_true, if_false, Bool.false_and]
  | true =>
    have hgood := (h a).2 ((h a).1 hon)
    have hlt := hgood.used_lt
    have hroom := hgood.room_mod
    have hleft : ((ar a).pages + 2 ^ 33 - 1 - (ar a).used) % 2 ^ 32 =
        (ar a).pages - 1 - (ar a).used := by omega
    rw [if_pos rfl, hleft, room, hon, hroom, Bool.true_and, decide_eq_false_iff_not]
    omega

theorem Inv.right (h : Inv ar) : Right ar := by
  have hbest := @best_spec ar (range areas) none
  have hfull := h.swapFree_eq_zero
  cases hr : (range areas).foldl (better ar) none with
  | none =>
    rw [hr] at hbest
    have halloc : (swapAlloc ar).2 = none := by simp [swapAlloc, hr]
    refine ⟨?_, by simp [halloc], iff_of_true (hfull.2 fun a ha => hbest.2 a (mem_range.2 ha)) halloc⟩
    rintro ⟨a, i, hf⟩
    have := (h.room_iff hf.1).2 ⟨i, hf⟩
    rw [hbest.2 a (mem_range.2 hf.1)] at this
    cases this
  | some a =>
    rw [hr] at hbest
    obtain ⟨ha, hroom⟩ := hbest.1.resolve_left nofun
    obtain ⟨i, -, hon, hi, h0⟩ := (h.room_iff (mem_range.1 ha)).1 hroom
    have hgood := (h a).2 ((h a).1 hon)
    obtain ⟨j, hj⟩ := hgood.find_some ⟨i, hi, h0⟩
    obtain ⟨hlt, hj0⟩ := hgood.of_find hj
    have halloc : (swapAlloc ar).2 = some (a <<< 28 ||| j) := by simp [swapAlloc, hr, hj]
    have hslot : (a <<< 28 ||| j) / 2 ^ 28 = a ∧ (a <<< 28 ||| j) % 2 ^ 28 = j := by
      have := hgood.size
      rw [← Nat.shiftLeft_add_eq_or_of_lt (by omega), Nat.shiftLeft_eq]
      omega
    refine ⟨fun _ => by simp [halloc], ?_, iff_of_false ?_ (by simp [halloc])⟩
    · rw [halloc]
      rintro _ ⟨⟩
      rw [hslot.1, hslot.2]
      refine ⟨⟨mem_range.1 ha, hon, hlt, hj0⟩, fun b k hf => ?_⟩
      exact hbest.2.2 b (mem_range.2 hf.1) ((h.room_iff hf.1).2 ⟨k, hf⟩)
    intro hzero
    rw [hfull.1 hzero a (mem_range.1 ha)] at hroom
    cases hroom

/-- As long as no header names a bad page of its area and every slot has room in 28 bits, the
search is right in every state. -/
theorem run_swapAlloc_right (ops : List Op) (hops : ∀ op ∈ ops, op.Plain) :
    Right (ops.foldl step boot) := by
  have hrun : ∀ (ops : List Op) (ar : State), Inv ar → (∀ op ∈ ops, op.Plain) →
      Inv (ops.foldl step ar) := by
    intro ops
    induction ops with
    | nil => exact fun ar h _ => h
    | cons op ops ih =>
      intro ar h hops
      exact ih _ (h.step (hops op mem_cons_self)) fun o ho => hops o (mem_cons_of_mem op ho)
  exact (hrun ops boot (fun a => ⟨nofun, nofun⟩) hops).right

/-- A drive of eleven pages whose header names `nbad` bad pages, all of them page 3. -/
def drive (nbad : Nat) : Drive := ⟨true, true, true, 10, nbad, fun _ => 3, 88, true⟩

theorem run_swapAlloc_right_two :
    Right ([Op.enable (drive 0) 0 5, .enable (drive 0) 1 1, .alloc].foldl step boot) := by
  refine run_swapAlloc_right _ fun op hop => ?_
  simp only [mem_cons, not_mem_nil, or_false] at hop
  rcases hop with rfl | rfl | rfl <;> simp [Op.Plain, drive, Drive.lastPage]

/-- Nine slots fill the first area, whose counter says that one of ten is left; the second area
is not looked at. -/
theorem swapAlloc_bad_page : ¬ Right
    ((Op.enable (drive 1) 0 5 :: .enable (drive 0) 1 1 :: replicate 9 Op.alloc).foldl step boot) :=
    by
  intro h
  have hfinds := h.finds ⟨1, 1, by decide, by decide +kernel, by decide +kernel, by decide +kernel⟩
  revert hfinds
  decide +kernel

end SamaraOS.Swap
