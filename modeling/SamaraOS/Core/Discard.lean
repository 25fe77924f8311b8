import SamaraOS.Core.PageTables

/-!
# Discarding pages

`vmm_discard`, for `madvise(MADV_DONTNEED)`.  A space is the map from page numbers to entries: a
hole of the tables reads as 0 and a page below a marker as `PTE_LAZY`, and the loop, which skips
both, would leave them alone as well.
-/

namespace SamaraOS.Vmm

open Function

def pteRw : U64 := 0x002
def pteUs : U64 := 0x004
def pteShared : U64 := 0x200
def pteCow : U64 := 0x800
def pteShl : U64 := 1 <<< 62

def has (e bits : U64) : Bool := e &&& bits != 0

/-- `PTE_ADDR`, also the slot of a page in the swap. -/
def pteAddr (e : U64) : Nat := (e &&& 0x000FFFFFFFFFF000).toNat / 4096

/-- Frames and swap slots. -/
structure Store where
  frame : Nat → Nat → UInt8
  slot : Nat → Nat → UInt8

def zeroPage : Nat → UInt8 := fun _ => 0

/-- What the process reads in a private page; a lazy one gets a zeroed frame. -/
def reads (m : Store) (e : U64) : Nat → UInt8 :=
  if has e pteP then m.frame (pteAddr e)
  else if has e pteSwap then m.slot (pteAddr e)
  else zeroPage

def userPage (p : Nat) : Bool := 0x10 ≤ p && p < 0x800000000

/-- `(*p & (PTE_P | PTE_RW | PTE_SHARED)) == (PTE_P | PTE_RW)` -/
def discardable (e : U64) : Bool :=
  e &&& (pteP ||| pteRw ||| pteShared) == pteP ||| pteRw

def discardEntry (p : Nat) (e : U64) : U64 :=
  if userPage p && discardable e then pteLazy ||| pteRw ||| (e &&& pteUs) else e

def vmmDiscard (es : Nat → U64) (va len : Nat) : Nat → U64 :=
  let stop := (va + len + 4095) % 2 ^ 64 / 4096
  (List.range' (va / 4096) (stop - va / 4096)).foldl
    (fun es p => update es p (discardEntry p (es p))) es

/-- A private page that the process may write. -/
def writable (e : U64) : Bool :=
  !has e pteShared && !has e pteShl && has e (pteRw ||| pteCow) && has e pteUs

def InRange (va len p : Nat) : Prop :=
  userPage p = true ∧ va / 4096 ≤ p ∧ p * 4096 < va + len

instance (va len p : Nat) : Decidable (InRange va len p) := inferInstanceAs (Decidable (_ ∧ _ ∧ _))

structure Discarded (m : Store) (es es' : Nat → U64) (va len : Nat) : Prop where
  zero : ∀ p, InRange va len p → writable (es p) = true → reads m (es' p) = zeroPage
  outside : ∀ p, ¬ InRange va len p → es' p = es p
  shared : ∀ p, has (es p) pteShared = true → es' p = es p

variable {va len : Nat}

theorem foldl_discardEntry (es : Nat → U64) (first n p : Nat) :
    (List.range' first n).foldl (fun es p => update es p (discardEntry p (es p))) es p =
      if first ≤ p ∧ p < first + n then discardEntry p (es p) else es p := by
  induction n generalizing first es with
  | zero => simp
  | succ n ih =>
    rw [List.range'_succ, List.foldl_cons, ih]
    by_cases hp : p = first
    · subst hp
      simp
    simp only [update_of_ne hp]
    refine if_congr ?_ rfl rfl
    omega

theorem vmmDiscard_apply (es : Nat → U64) (hwrap : va + len + 4095 < 2 ^ 64) (p : Nat) :
    vmmDiscard es va len p = if InRange va len p ∧ discardable (es p) = true then
        pteLazy ||| pteRw ||| (es p &&& pteUs) else es p := by
  have hrange : (va / 4096 ≤ p ∧ p < va / 4096 + ((va + len + 4095) / 4096 - va / 4096)) ↔
      va / 4096 ≤ p ∧ p * 4096 < va + len := by omega
  rw [vmmDiscard, Nat.mod_eq_of_lt hwrap, foldl_discardEntry, if_congr hrange rfl rfl]
  rw [discardEntry, ← ite_and]
  refine if_congr ?_ rfl rfl
  rw [InRange, Bool.and_eq_true]
  tauto

theorem reads_discarded (m : Store) (e : U64) :
    reads m (pteLazy ||| pteRw ||| (e &&& pteUs)) = zeroPage := by
  have hbit : e &&& pteUs = 0 ∨ e &&& pteUs = pteUs := by
    rw [show pteUs = BitVec.twoPow 64 2 from rfl, BitVec.and_twoPow]
    split
    · exact .inr rfl
    · exact .inl rfl
  rcases hbit with h | h <;> rw [h] <;> rfl

theorem not_shared_of_discardable {e : U64} (h : discardable e = true) :
    has e pteShared = false := by
  have heq := congrArg (· &&& pteShared) (beq_iff_eq.1 h)
  simp only [BitVec.and_assoc] at heq
  change e &&& pteShared = 0 at heq
  simp [has, heq]

/-- The pages of a range read as zeros afterwards exactly if those that are not both present and
writable did so before. -/
theorem vmmDiscard_iff (m : Store) (es : Nat → U64) (va len : Nat)
    (hwrap : va + len + 4095 < 2 ^ 64) : Discarded m es (vmmDiscard es va len) va len ↔
      ∀ p, InRange va len p → writable (es p) = true →
        discardable (es p) = true ∨ reads m (es p) = zeroPage := by
  have happ := vmmDiscard_apply es hwrap
  constructor
  · intro h p hp hw
    have hzero := h.zero p hp hw
    by_cases hd : discardable (es p) = true
    · exact .inl hd
    rw [happ, if_neg fun hc => hd hc.2] at hzero
    exact .inr hzero
  intro h
  refine ⟨fun p hp hw => ?_, fun p hp => ?_, fun p hs => ?_⟩
  · rw [happ]
    split
    · exact reads_discarded m _
    · next hno => exact (h p hp hw).resolve_left fun hd => hno ⟨hp, hd⟩
  · rw [happ, if_neg fun hc => hp hc.1]
  rw [happ, if_neg]
  rintro ⟨-, hd⟩
  rw [not_shared_of_discardable hd] at hs
  cases hs

/-- Page `0x10` is present with frame 5, and every byte of memory is 7. -/
def sevens : Store := ⟨fun _ _ => 7, fun _ _ => 7⟩

def onePage (flags : U64) : Nat → U64 := update (fun _ => 0) 0x10 (0x5000 ||| flags)

theorem vmmDiscard_iff_plain :
    reads sevens (vmmDiscard (onePage 7) 0x10000 4096 0x10) = zeroPage := by
  refine ((vmmDiscard_iff sevens (onePage 7) 0x10000 4096 (by decide)).2 fun p hp hw => ?_).zero
    0x10 ⟨rfl, by decide, by decide⟩ (by decide)
  have hpage : p = 0x10 := by
    obtain ⟨-, h1, h2⟩ := hp
    omega
  subst hpage
  exact .inl (by decide)

/-- After `fork` the page is copy-on-write, and still has its contents. -/
theorem vmmDiscard_cow :
    ¬ Discarded sevens (onePage 0x805) (vmmDiscard (onePage 0x805) 0x10000 4096) 0x10000 4096 := by
  intro h
  have hzero := h.zero 0x10 ⟨rfl, by decide, by decide⟩ (by decide)
  exact absurd (congrFun hzero 0) (by decide +kernel)

end SamaraOS.Vmm
