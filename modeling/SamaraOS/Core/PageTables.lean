import Mathlib

/-!
# Page tables and the pages they count

The four levels of tables of `core/vmm.c`.  `vmm_count_virt`, on which the limit `RLIMIT_AS`
rests, looks at the entries of the last level and does not see a reserved 2 MiB slot.
-/

namespace SamaraOS.Vmm

open Finset

abbrev U64 := BitVec 64

def pteP : U64 := 0x001
def pteSwap : U64 := 0x100
def pteLazy : U64 := 0x400
def pteUsed : U64 := pteP ||| pteLazy ||| pteSwap

/-- An entry above the last level: present, or not; without `PTE_P` a 2 MiB slot may still be
reserved by `PTE_LAZY`, further up that bit has no meaning. -/
inductive Entry (α : Type) where
  | none
  | reserved
  | table (t : α)

abbrev Table (α : Type) := Fin 512 → α
abbrev Pt := Table U64
abbrev Pd := Table (Entry Pt)
abbrev Pdpt := Table (Entry Pd)
abbrev Space := Table (Entry Pdpt)

def used (e : U64) : Bool := e &&& pteUsed != 0

def Entry.below {α β : Type} (d : β) (f : α → β) : Entry α → β
  | .table t => f t
  | .none | .reserved => d

def countPt (t : Pt) : Nat := ∑ i, if used (t i) then 1 else 0

/-- `count_virt` above the last level; `count` is that of the next one. -/
def countVirt {α : Type} (count : α → Nat) (t : Table (Entry α)) : Nat :=
  ∑ i, (t i).below 0 count

def vmmCountVirt (pd : Space) : Nat :=
  ∑ i, if i.val < 256 then (pd i).below 0 (countVirt (countVirt countPt)) else 0

/-- `rlAs` and `rlData` are the limits, `2 ^ 64 - 1` stands for none. -/
def vmOver (pd : Space) (rlAs rlData add : Nat) (data : Bool) : Bool :=
  let lim := if data ∧ rlData < rlAs then rlData else rlAs
  if lim = 2 ^ 64 - 1 then false
  else lim < ((vmmCountVirt pd + 2048) * 4096 + add) % 2 ^ 64

/-! ## The pages in use -/

def slot (pd : Space) (i j k : Fin 512) : Entry Pt :=
  if i.val < 256 then (pd i).below .none fun t => (t j).below .none fun t => t k else .none

def Entry.isReserved : Entry Pt → Bool
  | .reserved => true
  | .none | .table _ => false

def Entry.pageUsed (l : Fin 512) : Entry Pt → Bool
  | .none => false
  | .reserved => true
  | .table t => used (t l)

abbrev UserPages (pd : Space) :=
  {p : Fin 512 × Fin 512 × Fin 512 × Fin 512 //
    (slot pd p.1 p.2.1 p.2.2.1).pageUsed p.2.2.2 = true}

def usedPages (pd : Space) : Nat := Fintype.card (UserPages pd)

def reservedSlots (pd : Space) : Nat :=
  ∑ i, ∑ j, ∑ k, if (slot pd i j k).isReserved then 1 else 0

variable {pd : Space}

theorem Entry.below_sum {α : Type} (e : Entry α) (f : α → Fin 512 → Nat) :
    e.below 0 (fun t => ∑ i, f t i) = ∑ i, e.below 0 fun t => f t i := by
  cases e with
  | none | reserved => simp [below]
  | table t => simp only [below]

theorem slot_below (pd : Space) (i j k : Fin 512) :
    (slot pd i j k).below 0 countPt =
      if i.val < 256 then
        (pd i).below 0 fun t => (t j).below 0 fun t => (t k).below 0 countPt
      else 0 := by
  unfold slot
  split
  · cases pd i with
    | none | reserved => rfl
    | table t =>
      dsimp only [Entry.below]
      cases t j <;> rfl
  · rfl

theorem vmmCountVirt_eq (pd : Space) :
    vmmCountVirt pd = ∑ i, ∑ j, ∑ k, (slot pd i j k).below 0 countPt := by
  refine sum_congr rfl fun i _ => ?_
  simp only [slot_below]
  split
  · change (pd i).below 0 (fun t => ∑ j, (t j).below 0 fun t => ∑ k, (t k).below 0 countPt) = _
    simp only [Entry.below_sum]
  · simp

theorem Entry.sum_pageUsed (e : Entry Pt) : (∑ l, if e.pageUsed l then 1 else 0) =
      e.below 0 countPt + 512 * if e.isReserved then 1 else 0 := by
  cases e with
  | none | reserved => simp [pageUsed, below, isReserved]
  | table t =>
    simp only [pageUsed, below, isReserved, countPt, Bool.false_eq_true, if_false, Nat.mul_zero,
      Nat.add_zero]
    exact sum_congr rfl fun _ _ => rfl

theorem usedPages_eq (pd : Space) : usedPages pd = vmmCountVirt pd + 512 * reservedSlots pd := by
  rw [usedPages, Fintype.card_subtype, card_filter, vmmCountVirt_eq, reservedSlots]
  simp only [Fintype.sum_prod_type, Entry.sum_pageUsed, sum_add_distrib, mul_sum]

theorem reservedSlots_eq_zero :
    reservedSlots pd = 0 ↔ ∀ i j k, (slot pd i j k).isReserved = false := by
  simp only [reservedSlots, sum_eq_zero_iff, mem_univ, true_implies,
    ite_eq_right_iff, one_ne_zero, imp_false, Bool.not_eq_true]

theorem usedPages_le (pd : Space) : usedPages pd ≤ 2 ^ 36 := by
  refine (Fintype.card_subtype_le _).trans ?_
  simp

/-- The count is right and no request passes a limit exactly if no 2 MiB slot is reserved and
the sum that is compared with the limit does not wrap. -/
theorem vm_over_iff (pd : Space) (add : Nat) (hadd : add < 2 ^ 64) :
    (vmmCountVirt pd = usedPages pd ∧
      ∀ rlAs rlData data, rlAs < 2 ^ 64 - 1 → rlAs < usedPages pd * 4096 + add →
        vmOver pd rlAs rlData add data = true) ↔ (∀ i j k, (slot pd i j k).isReserved = false) ∧
        (usedPages pd + 2048) * 4096 + add < 2 ^ 64 := by
  have hcount := usedPages_eq pd
  have hle := usedPages_le pd
  rw [← reservedSlots_eq_zero]
  constructor
  · rintro ⟨heq, hover⟩
    refine ⟨by omega, ?_⟩
    by_contra hwrap
    -- a limit of just what is left of the sum after the wrap is not noticed
    have hno := hover (((usedPages pd + 2048) * 4096 + add) % 2 ^ 64) 0 false (by omega) (by omega)
    simp [vmOver, heq] at hno
  rintro ⟨hres, hsum⟩
  have heq : vmmCountVirt pd = usedPages pd := by omega
  refine ⟨heq, fun rlAs rlData data hlim hpast => ?_⟩
  have hlt : rlAs < (usedPages pd + 2048) * 4096 + add := by
    refine hpast.trans_le ?_
    exact Nat.add_le_add_right (Nat.mul_le_mul_right _ (Nat.le_add_right _ _)) _
  simp only [vmOver, heq, Nat.mod_eq_of_lt hsum]
  by_cases hdata : data = true ∧ rlData < rlAs
  · rw [if_pos hdata, if_neg (hdata.2.trans hlim).ne]
    exact decide_eq_true (hdata.2.trans hlt)
  rw [if_neg hdata, if_neg hlim.ne]
  exact decide_eq_true hlt

/-- A page that is present, one that is lazy and one that is swapped out. -/
def mixed : Space := fun i =>
  if i = 0 then .table fun j =>
    if j = 0 then .table fun k =>
      if k = 0 then .table fun l => if l = 0 then 0x1007 else if l = 1 then 0x400 else
        if l = 2 then 0x100 else 0
      else .none
    else .none
  else .none

theorem vm_over_iff_mixed :
    vmmCountVirt mixed = usedPages mixed ∧ vmOver mixed 4095 0 4096 false = true := by
  have hle := usedPages_le mixed
  have hright := (vm_over_iff mixed 4096 (by omega)).2 ⟨fun i j k => ?_, by omega⟩
  · exact ⟨hright.1, hright.2 4095 0 false (by omega) (by omega)⟩
  · by_cases hi : i = 0 <;> by_cases hj : j = 0 <;> by_cases hk : k = 0 <;>
      simp [slot, mixed, Entry.below, Entry.isReserved, hi, hj, hk]

/-- One 2 MiB slot is mapped with `PROT_NONE`. -/
def oneReserved : Space := fun i =>
  if i = 0 then .table fun j =>
    if j = 0 then .table fun k => if k = 1 then .reserved else .none else .none
  else .none

theorem reserved_not_counted : vmmCountVirt oneReserved ≠ usedPages oneReserved := by
  have hcount := usedPages_eq oneReserved
  have hres : reservedSlots oneReserved ≠ 0 := fun h => by
    have := reservedSlots_eq_zero.1 h 0 0 1
    simp [slot, oneReserved, Entry.below, Entry.isReserved] at this
  omega

end SamaraOS.Vmm
