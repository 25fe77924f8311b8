import Mathlib

/-!
# Keyboard reports

A boot-protocol report names the keys that are down.  The driver compares it with the report
before and sends the differences as events.
-/

namespace SamaraOS.Keyboard

open List

inductive Event
  | key (code : Nat) (down : Bool)
  | syn
  deriving DecidableEq

/-- Key codes by usage. -/
def ukey : List Nat :=
  [0, 0, 0, 0, 30, 48, 46, 32, 18, 33, 34, 35, 23, 36, 37, 38, 50, 49, 24, 25, 16, 19, 31, 20, 22,
    47, 17, 45, 21, 44, 2, 3, 4, 5, 6, 7, 8, 9, 10, 11, 28, 1, 14, 15, 57, 12, 13, 26, 27, 43, 43,
    39, 40, 41, 51, 52, 53, 58, 59, 60, 61, 62, 63, 64, 65, 66, 67, 68, 87, 88, 99, 70, 119, 110,
    102, 104, 111, 107, 109, 106, 105, 108, 103, 69, 98, 55, 74, 78, 96, 79, 80, 81, 75, 76, 77,
    71, 72, 73, 82, 83, 86, 127]

def umod : List Nat := [29, 42, 56, 125, 97, 54, 100, 126]

def key (c : UInt8) : Nat := ukey.getD c.toNat 0

def slots (b : List UInt8) : List UInt8 := (b.take 8).drop 2

/-- The keys of the usages of `b` that `p` does not have. -/
def fresh (b p : List UInt8) : List Nat :=
  (((slots b).filter fun c => c ≠ 0 ∧ c ∉ slots p).map key).filter (· ≠ 0)

/-- The time of a report and its bytes. -/
abbrev Report := Nat × List UInt8

structure Hid where
  prev : List UInt8 := replicate 8 0
  repCode : Nat := 0
  repAt : Nat := 0
  log : List Event := []

def rollover (b : List UInt8) : Bool := b.getD 2 0 = 1

def modEvents (b p : List UInt8) : List Event :=
  (range 8).filterMap fun i =>
    let a := (b.headD 0).toNat.testBit i
    if a ≠ (p.headD 0).toNat.testBit i then some (.key (umod.getD i 0) a) else none

def kbdRep (h : Hid) (r : Report) : Hid :=
  let b := r.2
  if b.length < 8 then h
  else
    let mods := modEvents b h.prev
    if rollover b then { h with prev := b.take 8, log := h.log ++ mods }
    else
      let up := fresh h.prev b
      let down := fresh b h.prev
      let stops := (slots h.prev).any fun c =>
        c ≠ 0 ∧ c ∉ slots b ∧ c < 102 ∧ h.repCode = key c
      { prev := b.take 8
        repCode := down.getLastD (if stops then 0 else h.repCode)
        repAt := if down = [] then h.repAt else (r.1 + 500) % 2 ^ 32
        log := h.log ++ mods ++ up.map (.key · false) ++ down.map (.key · true) ++
          if mods = [] ∧ up = [] ∧ down = [] then [] else [.syn] }

/-- The newest event of the key is a press. -/
def down (log : List Event) (k : Nat) : Bool :=
  log.foldl (fun v e => match e with | .key c w => if c = k then w else v | .syn => v) false

def keys (b : List UInt8) : List Nat := ((slots b).map key).filter (· ≠ 0)

def good (r : Report) : Bool := ¬ r.2.length < 8 ∧ ¬ rollover r.2

def lastGood (rs : List Report) : List UInt8 :=
  ((rs.reverse.find? good).map (·.2)).getD []

def run (rs : List Report) : Hid := rs.foldl kbdRep {}

def Right (rs : List Report) : Prop :=
  ∀ k ∉ umod, down (run rs).log k ↔ k ∈ keys (lastGood rs)

/-- Every key that was let go is in the report before, and every key held now is new there or
stays down. -/
def Clean (p g b : List UInt8) : Prop :=
  (∀ k ∈ keys g, k ∈ keys b ∨ k ∈ keys p) ∧
    ∀ k ∈ keys b, k ∈ fresh b p ∨ k ∈ keys g ∧ k ∉ fresh p b

variable {log es : List Event} {b p g : List UInt8} {k : Nat} {rs : List Report}

theorem down_concat (e : Event) : down (log ++ [e]) k =
    match e with | .key c w => if c = k then w else down log k | .syn => down log k := by
  simp only [down, foldl_append, foldl_cons, foldl_nil]

theorem down_keys (cs : List Nat) (v : Bool) :
    down (log ++ cs.map (.key · v)) k = if k ∈ cs then v else down log k := by
  induction cs using reverseRecOn with
  | nil => simp
  | append_singleton cs c ih =>
    rw [map_append, ← append_assoc, map_singleton, down_concat, ih]
    grind

theorem down_others (h : ∀ v, .key k v ∉ es) : down (log ++ es) k = down log k := by
  induction es using reverseRecOn with
  | nil => simp
  | append_singleton es e ih =>
    rw [← append_assoc, down_concat, ih fun v hv => h v (mem_append_left _ hv)]
    grind

theorem down_mods (h : k ∉ umod) : down (log ++ modEvents b p) k = down log k := by
  refine down_others fun v hv => h ?_
  simp only [modEvents, mem_filterMap, mem_range] at hv
  obtain ⟨i, hi, he⟩ := hv
  split_ifs at he
  cases he
  rw [getD_eq_getElem _ _ hi]
  exact getElem_mem hi

theorem mem_keys : k ∈ keys b ↔ k ≠ 0 ∧ ∃ c ∈ slots b, key c = k := by
  simp [keys, and_comm]

theorem mem_fresh : k ∈ fresh b p ↔ k ≠ 0 ∧ ∃ c ∈ slots b, c ∉ slots p ∧ key c = k := by
  have h0 : key 0 = 0 := rfl
  simp only [fresh, mem_filter, mem_map, decide_eq_true_eq]
  grind

theorem keys_not_umod (h : k ∈ keys b) : k ∉ umod := by
  obtain ⟨hk, c, -, rfl⟩ := mem_keys.1 h
  have hall : ∀ c ∈ ukey, c ∉ umod := by decide
  refine hall _ ?_
  unfold key at *
  grind

theorem clean_iff : (∀ k ∉ umod, k ∈ fresh b p ∨ k ∈ keys g ∧ k ∉ fresh p b ↔ k ∈ keys b) ↔
    Clean p g b := by
  constructor
  · intro h
    refine ⟨fun k hk => ?_, fun k hk => (h k (keys_not_umod hk)).2 hk⟩
    have := h k (keys_not_umod hk)
    grind [mem_keys, mem_fresh]
  · rintro ⟨hgone, hheld⟩ k -
    have := hgone k
    have := hheld k
    grind [mem_keys, mem_fresh]

theorem right_iff (r : Report) (h : Right rs) :
    Right (rs ++ [r]) ↔ (good r → Clean (run rs).prev (lastGood rs) r.2) := by
  have hrun : run (rs ++ [r]) = kbdRep (run rs) r := foldl_append
  have hlast : lastGood (rs ++ [r]) = if good r then r.2 else lastGood rs := by
    simp only [lastGood, reverse_append, reverse_singleton, singleton_append, find?_cons]
    cases good r <;> rfl
  unfold Right at h ⊢
  rw [hrun, hlast, kbdRep]
  by_cases hshort : r.2.length < 8
  · simpa [good, hshort] using h
  cases hroll : rollover r.2 with
  | true =>
    simp only [good, hshort, hroll, if_false, if_true, not_true, and_false, decide_false,
      Bool.false_eq_true, false_implies, iff_true]
    exact fun k hk => by rw [down_mods hk, h k hk]
  | false =>
  simp only [good, hshort, hroll, if_false, if_true, Bool.false_eq_true, not_false_eq_true,
    and_self, decide_true, true_implies, ← clean_iff]
  refine forall₂_congr fun k hk => ?_
  rw [down_others (by split_ifs <;> simp), down_keys, down_keys, down_mods hk]
  have := h k hk
  grind

theorem keys_right_iff (rs : List Report) :
    (∀ rs', rs' <+: rs → Right rs') ↔ ∀ rs' r, rs' ++ [r] <+: rs → good r →
      Clean (run rs').prev (lastGood rs') r.2 := by
  constructor
  · intro h rs' r hpre
    exact (right_iff r (h _ ((prefix_append _ _).trans hpre))).1 (h _ hpre)
  intro h rs' hpre
  induction rs' using reverseRecOn with
  | nil => intro k _; simp [run, down, lastGood, keys, slots]
  | append_singleton rs' r ih =>
    exact (right_iff r (ih ((prefix_append _ _).trans hpre))).2 (h _ _ hpre)

/-- A key held when too many are pressed is never released. -/
theorem rollover_sticks :
    let rs := [(0, [0, 0, 4, 0, 0, 0, 0, 0]), (10, [0, 0, 1, 1, 1, 1, 1, 1]), (20, replicate 8 0)]
    down (run rs).log 30 ∧ 30 ∉ umod ∧ 30 ∉ keys (lastGood rs) := by
  decide

end SamaraOS.Keyboard
