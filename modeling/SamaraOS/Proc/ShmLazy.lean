import SamaraOS.Proc.Shm

/-!
# Untouched pages are counted

Every step is made of five small ones: an entry is added, an entry is released, a frame is put
into a table, a table is made or grown, a node lets go of its slot.  Each keeps the invariant.
-/

namespace SamaraOS.Shm

open List State

namespace State

variable {s : State}

theorem ptes_cons (s : State) (x : Entry) (i : Nat) :
    { s with lazy := x :: s.lazy }.ptes i = s.ptes i + if slotOf x.e = i then 1 else 0 := by
  simp [ptes, countP_cons]

variable {x : Entry}

theorem ptes_erase (hx : x ∈ s.lazy) (i : Nat) :
    s.ptes i = { s with lazy := s.lazy.erase x }.ptes i + if slotOf x.e = i then 1 else 0 := by
  have hperm : List.Perm s.lazy (x :: s.lazy.erase x) := perm_cons_erase hx
  rw [ptes, hperm.countP_eq]
  simp [ptes, countP_cons]

theorem slot_ne_of_ptes {i : Nat} (h : s.ptes i = 0) (hx : x ∈ s.lazy) : slotOf x.e ≠ i := by
  intro he
  have := countP_eq_zero.1 h x hx
  simp [he] at this

theorem ptes_pos (hx : x ∈ s.lazy) : 0 < s.ptes (slotOf x.e) := by
  rw [ptes, countP_pos_iff]
  exact ⟨x, hx, by simp⟩

section

variable (s : State) (i : Nat)

theorem setSlot_self (t : Slot) : (s.setSlot i t).slot i = t := by
  simp [setSlot]

theorem setSlot_ne {i j : Nat} (h : j ≠ i) (t : Slot) : (s.setSlot i t).slot j = s.slot j := by
  simp [setSlot, h]

theorem freeSlot_self (g : Bool) : (s.freeSlot i g).slot i =
    { s.slot i with node := none, fr := [], n := 0, dead := false } :=
  Function.update_self i _ s.slot

theorem freeSlot_ne {i j : Nat} (h : j ≠ i) (g : Bool) : (s.freeSlot i g).slot j = s.slot j :=
  Function.update_of_ne h _ s.slot

end

theorem held_setSlot {i : Nat} (hi : i < shmMax) (t : Slot) (f : Nat) :
    (s.setSlot i t).held f + (s.slot i).fr.count f = s.held f + t.fr.count f := by
  have hmem : i ∈ Finset.range shmMax := Finset.mem_range.2 hi
  have hrest : ∑ j ∈ (Finset.range shmMax).erase i, ((s.setSlot i t).slot j).fr.count f =
      ∑ j ∈ (Finset.range shmMax).erase i, (s.slot j).fr.count f := by
    refine Finset.sum_congr rfl fun j hj => ?_
    rw [setSlot_ne s (Finset.ne_of_mem_erase hj)]
  have hnew := Finset.add_sum_erase _ (fun j => ((s.setSlot i t).slot j).fr.count f) hmem
  have hold := Finset.add_sum_erase _ (fun j => (s.slot j).fr.count f) hmem
  have hself : ((s.setSlot i t).slot i).fr.count f = t.fr.count f := by
    rw [setSlot_self]
  rw [held, held]
  omega

end State

/-! ## The invariant -/

structure Inv (s : State) : Prop where
  keys : (s.lazy.map Entry.key).Nodup
  count : ∀ i, (s.slot i).nlz = s.ptes i
  inside : ∀ x ∈ s.lazy, slotOf x.e < shmMax ∧ pageOf x.e < (s.slot (slotOf x.e)).n
  table : ∀ i, (s.slot i).fr.length = (s.slot i).n
  used : ∀ i, 0 < s.ptes i → (s.slot i).node ≠ none ∨ (s.slot i).dead = true
  dead : ∀ i, (s.slot i).dead = true →
    (s.slot i).node = none ∧ 0 < s.ptes i ∧ (s.slot i).left = true
  idle : ∀ i, (s.slot i).node = none → (s.slot i).dead = false → (s.slot i).fr = []
  ledger : ∀ f, f ≠ 0 → s.taken f = s.dropped f + s.held f
  log : ∀ r ∈ s.log, r.gone = true ∧ r.nlz = 0 ∧ r.ptes = 0

theorem Inv.init : Inv State.init := by
  constructor <;> simp [State.init, Slot.idle, State.ptes, State.held]

structure InvBut (s : State) (i : Nat) : Prop where
  keys : (s.lazy.map Entry.key).Nodup
  count : ∀ j, (s.slot j).nlz = s.ptes j
  inside : ∀ x ∈ s.lazy, slotOf x.e < shmMax ∧ pageOf x.e < (s.slot (slotOf x.e)).n
  table : ∀ j, (s.slot j).fr.length = (s.slot j).n
  used : ∀ j, j ≠ i → 0 < s.ptes j → (s.slot j).node ≠ none ∨ (s.slot j).dead = true
  dead : ∀ j, j ≠ i → (s.slot j).dead = true →
    (s.slot j).node = none ∧ 0 < s.ptes j ∧ (s.slot j).left = true
  idle : ∀ j, j ≠ i → (s.slot j).node = none → (s.slot j).dead = false → (s.slot j).fr = []
  ledger : ∀ f, f ≠ 0 → s.taken f = s.dropped f + s.held f
  log : ∀ r ∈ s.log, r.gone = true ∧ r.nlz = 0 ∧ r.ptes = 0

section

variable {s : State} {i : Nat}

theorem InvBut.inv (h : InvBut s i)
    (hused : 0 < s.ptes i → (s.slot i).node ≠ none ∨ (s.slot i).dead = true)
    (hdead : (s.slot i).dead = true →
      (s.slot i).node = none ∧ 0 < s.ptes i ∧ (s.slot i).left = true)
    (hidle : (s.slot i).node = none → (s.slot i).dead = false → (s.slot i).fr = []) : Inv s := by
  refine ⟨h.keys, h.count, h.inside, h.table, fun j => ?_, fun j => ?_, fun j => ?_, h.ledger,
    h.log⟩
  all_goals by_cases hj : j = i
  · exact hj ▸ hused
  · exact h.used j hj
  · exact hj ▸ hdead
  · exact h.dead j hj
  · exact hj ▸ hidle
  · exact h.idle j hj

theorem Inv.change (h : Inv s) {l : List Entry} {m : Nat → Nat} {t : Slot}
    (hi : i < shmMax) (hkeys : (l.map Entry.key).Nodup)
    (hother : ∀ j, j ≠ i → { s with lazy := l }.ptes j = s.ptes j)
    (hcount : t.nlz = { s with lazy := l }.ptes i)
    (hinside : ∀ x ∈ l, slotOf x.e < shmMax ∧ pageOf x.e < (s.slot (slotOf x.e)).n)
    (htable : t.fr.length = t.n) (hle : (s.slot i).n ≤ t.n)
    (hledger : ∀ f, f ≠ 0 → m f + (s.slot i).fr.count f = s.taken f + t.fr.count f) :
    InvBut ({ s with lazy := l, taken := m }.setSlot i t) i := by
  have hself : ({ s with lazy := l, taken := m }.setSlot i t).slot i = t := setSlot_self ..
  have hne : ∀ j, j ≠ i → ({ s with lazy := l, taken := m }.setSlot i t).slot j = s.slot j :=
    fun j hj => setSlot_ne _ hj t
  refine ⟨hkeys, fun j => ?_, fun x hx => ?_, fun j => ?_, fun j hj hp => ?_, fun j hj hd => ?_,
    fun j hj => ?_, fun f hf => ?_, h.log⟩
  · by_cases hj : j = i
    · subst hj
      rw [hself]
      exact hcount
    rw [hne j hj]
    exact (h.count j).trans (congrArg Nat.cast (hother j hj).symm)
  · refine ⟨(hinside x hx).1, ?_⟩
    by_cases hj : slotOf x.e = i
    · rw [hj, hself]
      exact Nat.lt_of_lt_of_le (hj ▸ (hinside x hx).2) hle
    rw [hne _ hj]
    exact (hinside x hx).2
  · by_cases hj : j = i
    · subst hj
      rw [hself]
      exact htable
    rw [hne j hj]
    exact h.table j
  · rw [hne j hj]
    exact h.used j (hother j hj ▸ hp)
  · rw [hne j hj] at hd ⊢
    have hold := h.dead j hd
    exact ⟨hold.1, (hother j hj).symm ▸ hold.2.1, hold.2.2⟩
  · rw [hne j hj]
    exact h.idle j
  have hheld := held_setSlot (s := { s with lazy := l, taken := m }) hi t f
  have hold := h.ledger f hf
  have hnew := hledger f hf
  simp only [State.setSlot, State.held] at hheld hold ⊢
  omega

theorem InvBut.freeSlot (h : InvBut s i) (hi : i < shmMax) (hp : s.ptes i = 0) {g : Bool}
    (hg : g = true) : Inv (s.freeSlot i g) := by
  have hne : ∀ j, j ≠ i → (s.freeSlot i g).slot j = s.slot j := fun j hj =>
    freeSlot_ne s hj g
  have hself := freeSlot_self s i g
  refine InvBut.inv (i := i) ⟨h.keys, fun j => ?_, fun x hx => ?_, fun j => ?_, fun j hj => ?_,
    fun j hj => ?_, fun j hj => ?_, fun f hf => ?_, fun r hr => ?_⟩ (fun hpos => ?_) (fun hd => ?_)
    (fun _ _ => ?_)
  · by_cases hj : j = i
    · subst hj
      rw [hself]
      exact h.count j
    rw [hne j hj]
    exact h.count j
  · rw [hne _ (slot_ne_of_ptes hp hx)]
    exact h.inside x hx
  · by_cases hj : j = i
    · subst hj
      rw [hself]
      rfl
    rw [hne j hj]
    exact h.table j
  · rw [hne j hj]
    exact h.used j hj
  · rw [hne j hj]
    exact h.dead j hj
  · rw [hne j hj]
    exact h.idle j hj
  · have hheld := held_setSlot (s := s) hi
      { s.slot i with node := none, fr := [], n := 0, dead := false } f
    have hfull : (s.slot i).fr.take (s.slot i).n = (s.slot i).fr := by
      rw [← h.table i, take_length]
    have hold := h.ledger f hf
    simp only [State.freeSlot, State.setSlot, State.held, hf, if_false, hfull, count_nil,
      Nat.add_zero] at hheld hold ⊢
    omega
  · rcases mem_cons.1 hr with rfl | hr
    · exact ⟨hg, by rw [h.count i, hp]; rfl, hp⟩
    · exact h.log r hr
  · exact absurd hp (Nat.ne_of_gt hpos)
  · rw [hself] at hd
    cases hd
  · rw [hself]

end

namespace Inv

variable {s : State}

/-! ## The five small steps -/

variable {x : Entry}

theorem erase_other (hx : x ∈ s.lazy) {j : Nat} (hj : j ≠ slotOf x.e) :
    { s with lazy := s.lazy.erase x }.ptes j = s.ptes j := by
  rw [ptes_erase hx j, if_neg (Ne.symm hj), Nat.add_zero]

theorem release (h : Inv s) (hx : x ∈ s.lazy) : Inv (s.release x) := by
  have hi := (h.inside x hx).1
  have hcnt := ptes_erase hx (slotOf x.e)
  rw [if_pos rfl] at hcnt
  have hnlz : (s.slot (slotOf x.e)).nlz - 1 =
      { s with lazy := s.lazy.erase x }.ptes (slotOf x.e) := by
    rw [h.count, hcnt]
    omega
  have hbut := h.change (t := { s.slot (slotOf x.e) with nlz := (s.slot (slotOf x.e)).nlz - 1 }) hi
    (h.keys.sublist (erase_sublist.map Entry.key)) (fun j hj => erase_other hx hj) hnlz
    (fun y hy => h.inside y (mem_of_mem_erase hy)) (h.table _) (Nat.le_refl _)
    (fun f _ => rfl)
  unfold State.release State.lzPut
  dsimp only
  rw [setSlot_self]
  dsimp only
  split_ifs with hfree
  · -- the last entry of a slot whose node is gone
    refine hbut.freeSlot hi ?_ (h.dead _ hfree.2).2.2
    change { s with lazy := s.lazy.erase x }.ptes (slotOf x.e) = 0
    omega
  refine hbut.inv (fun _ => ?_) (fun hd => ?_) ?_
  · rw [setSlot_self]
    exact h.used _ (ptes_pos hx)
  · rw [setSlot_self] at hd ⊢
    refine ⟨(h.dead _ hd).1, ?_, (h.dead _ hd).2.2⟩
    have hpos : ¬(s.slot (slotOf x.e)).nlz - 1 ≤ 0 := fun hle => hfree ⟨hle, hd⟩
    change 0 < { s with lazy := s.lazy.erase x }.ptes (slotOf x.e)
    omega
  rw [setSlot_self]
  exact h.idle _

theorem add (h : Inv s) (hkey : x.key ∉ s.lazy.map Entry.key)
    (hi : slotOf x.e < shmMax) (hp : pageOf x.e < (s.slot (slotOf x.e)).n)
    (hused : (s.slot (slotOf x.e)).node ≠ none ∨ (s.slot (slotOf x.e)).dead = true) :
    Inv (s.add x) := by
  have hcnt := ptes_cons s x
  have hbut := h.change (l := x :: s.lazy)
    (t := { s.slot (slotOf x.e) with nlz := (s.slot (slotOf x.e)).nlz + 1 }) hi
    (by
      rw [map_cons, nodup_cons]
      exact ⟨hkey, h.keys⟩)
    (fun j hj => by rw [hcnt, if_neg (Ne.symm hj), Nat.add_zero])
    (by
      rw [hcnt, if_pos rfl, h.count]
      rfl)
    (fun y hy => by
      rcases mem_cons.1 hy with rfl | hy
      · exact ⟨hi, hp⟩
      · exact h.inside y hy)
    (h.table _) (Nat.le_refl _) (fun f _ => rfl)
  refine hbut.inv (fun _ => ?_) (fun hd => ?_) ?_
  · rw [setSlot_self]
    exact hused
  · rw [setSlot_self] at hd ⊢
    refine ⟨(h.dead _ hd).1, ?_, (h.dead _ hd).2.2⟩
    change 0 < { s with lazy := x :: s.lazy }.ptes (slotOf x.e)
    rw [hcnt, if_pos rfl]
    omega
  rw [setSlot_self]
  exact h.idle _

theorem place (h : Inv s) {i : Nat} (hi : i < shmMax) (k spare : Nat) :
    Inv (s.place i k spare) := by
  unfold State.place
  split_ifs with hz
  swap
  · exact h
  obtain ⟨hk, hspare⟩ := hz
  obtain ⟨hlt, hget⟩ := List.getElem?_eq_some_iff.1 hk
  have hbut := h.change (l := s.lazy)
    (m := fun f => s.taken f + if f = spare then 1 else 0)
    (t := { s.slot i with fr := (s.slot i).fr.set k spare }) hi h.keys (fun _ _ => rfl)
    (h.count i) h.inside (by
      rw [length_set]
      exact h.table i) (Nat.le_refl _) (fun f hf => by
      have hset := count_set (a := spare) (b := f) hlt
      rw [hget] at hset
      have hzero : (0 == f) = false := by simpa using Ne.symm hf
      rw [hset, hzero]
      by_cases hfs : f = spare
      · subst hfs
        simp
        omega
      have hsf : (spare == f) = false := by simpa using Ne.symm hfs
      simp [hfs, hsf])
  refine hbut.inv ?_ ?_ ?_
  · rw [setSlot_self]
    exact h.used i
  · rw [setSlot_self]
    exact h.dead i
  rw [setSlot_self]
  intro hn hd
  have hnil := h.idle i hn hd
  rw [hnil] at hlt
  simp at hlt

theorem dropSlot (h : Inv s) {i : Nat} (hi : i < shmMax) {node : Nat}
    (hgone : s.gone node = true) : Inv (s.dropSlot node i) := by
  unfold State.dropSlot
  split_ifs with hnode hpos
  · have hbut := h.change (l := s.lazy) (m := s.taken)
      (t := { s.slot i with node := none, dead := true, left := s.gone node }) hi h.keys (fun _ _ => rfl) (h.count i)
      h.inside (h.table i) (Nat.le_refl _) (fun _ _ => rfl)
    refine hbut.inv (fun _ => ?_) (fun _ => ?_) (fun _ hd => ?_)
    · rw [setSlot_self]
      exact Or.inr rfl
    · rw [setSlot_self]
      refine ⟨rfl, ?_, hgone⟩
      change 0 < s.ptes i
      have := h.count i
      omega
    rw [setSlot_self] at hd
    cases hd
  · have hbut : InvBut s i := ⟨h.keys, h.count, h.inside, h.table, fun j _ => h.used j,
      fun j _ => h.dead j, fun j _ => h.idle j, h.ledger, h.log⟩
    refine hbut.freeSlot hi ?_ hgone
    have := h.count i
    omega
  · exact h

theorem findSlot_lt {node i : Nat} (hf : s.findSlot node = some i) : i < shmMax := by
  rcases Option.or_eq_some_iff.1 hf with hown | ⟨-, hfree⟩
  · exact mem_range.1 (mem_of_find?_eq_some hown)
  · exact mem_range.1 (mem_of_find?_eq_some hfree)

theorem findSlot_free {node i : Nat} (hf : s.findSlot node = some i)
    (hnode : (s.slot i).node ≠ some node) : (s.slot i).node = none ∧ (s.slot i).dead = false := by
  rcases Option.or_eq_some_iff.1 hf with hown | ⟨-, hfree⟩
  · exact absurd (by simpa using find?_some hown) hnode
  · simpa using find?_some hfree

theorem reuse (h : Inv s) {node i : Nat} (hf : s.findSlot node = some i)
    (hnode : (s.slot i).node ≠ some node) : s.ptes i = 0 := by
  obtain ⟨hn, hd⟩ := findSlot_free hf hnode
  by_contra hp
  rcases h.used i (Nat.pos_of_ne_zero hp) with hu | hu
  · exact hu hn
  rw [hd] at hu
  cases hu

theorem grown_fr {i node pages : Nat} (hpages : pages ≤ 2 ^ 28) : (s.grown i node pages).fr =
      ((if (s.slot i).node = some node then (s.slot i).fr else []) ++
        List.replicate pages 0).take pages := by
  have hlen : pages * 8 % 2 ^ 32 / 8 = pages := by omega
  simp only [State.grown, hlen]

theorem shmSlot_inv (h : Inv s) {node pages : Nat} (hpages : pages ≤ 2 ^ 28) (memory : Bool) :
    Inv (s.shmSlot node pages memory).1 := by
  unfold State.shmSlot
  have hmod : pages % 2 ^ 32 = pages := by omega
  rw [hmod]
  cases hf : s.findSlot node with
  | none => exact h
  | some i =>
    dsimp only
    split_ifs with hbig hmem
    · exact h
    · have hi := findSlot_lt hf
      -- what the slot holds is kept, or nothing
      have hold : (if (s.slot i).node = some node then (s.slot i).fr else []) = (s.slot i).fr := by
        split_ifs with hown
        · rfl
        obtain ⟨hn, hd⟩ := findSlot_free hf hown
        exact (h.idle i hn hd).symm
      have hle : (s.slot i).n ≤ pages := by
        by_cases hown : (s.slot i).node = some node
        · rw [not_and] at hbig
          have := hbig hown
          omega
        obtain ⟨hn, hd⟩ := findSlot_free hf hown
        rw [← h.table i, h.idle i hn hd]
        simp
      have hfr : (s.grown i node pages).fr =
          (s.slot i).fr ++ List.replicate (pages - (s.slot i).n) 0 := by
        rw [grown_fr hpages, hold, take_append, take_of_length_le (by
          rw [h.table i]
          exact hle), take_replicate, h.table i]
        congr 2
        omega
      have hbut := h.change (l := s.lazy) (m := s.taken) (t := s.grown i node pages) hi h.keys
        (fun _ _ => rfl) (h.count i) h.inside
        (by
          rw [hfr, length_append, length_replicate, h.table i]
          change _ = pages
          omega)
        hle
        (fun f hf0 => by
          rw [hfr, count_append, count_replicate]
          have hzero : (0 == f) = false := by simpa using Ne.symm hf0
          rw [hzero]
          simp)
      refine hbut.inv (fun _ => ?_) (fun hd => ?_) (fun hn _ => ?_)
      · rw [setSlot_self]
        exact Or.inl (by simp [State.grown])
      · rw [setSlot_self] at hd
        have hd' : (s.slot i).dead = true := hd
        by_cases hown : (s.slot i).node = some node
        · rw [(h.dead i hd').1] at hown
          cases hown
        rw [(findSlot_free hf hown).2] at hd'
        cases hd'
      rw [setSlot_self] at hn
      simp [State.grown] at hn
    · exact h

theorem shmSlot_fits {node pages : Nat} (hpages : pages ≤ 2 ^ 28) {memory : Bool}
    {i : Nat} (hi : (s.shmSlot node pages memory).2 = some i) :
    i < shmMax ∧ ((s.shmSlot node pages memory).1.slot i).node = some node ∧
      pages ≤ ((s.shmSlot node pages memory).1.slot i).n := by
  have hmod : pages % 2 ^ 32 = pages := by omega
  unfold State.shmSlot at hi ⊢
  rw [hmod] at hi ⊢
  cases hf : s.findSlot node with
  | none => simp [hf] at hi
  | some j =>
    simp only [hf] at hi ⊢
    split_ifs at hi ⊢ with hbig hmem
    · obtain rfl := Option.some.inj hi
      exact ⟨findSlot_lt hf, hbig⟩
    obtain rfl := Option.some.inj hi
    refine ⟨findSlot_lt hf, ?_, ?_⟩
    · rw [setSlot_self]
      rfl
    rw [setSlot_self]
    exact Nat.le_refl _

/-! ### Pages -/

theorem entryAt_some {sp va : Nat} (hx : s.entryAt sp va = some x) :
    x ∈ s.lazy ∧ x.key = (sp, va) :=
  ⟨mem_of_find?_eq_some hx, by simpa using find?_some hx⟩

theorem erasePage (h : Inv s) (sp va : Nat) : Inv (s.erasePage sp va) := by
  unfold State.erasePage
  cases hx : s.entryAt sp va with
  | none => exact h
  | some x => exact h.release (entryAt_some hx).1

theorem release_lazy (s : State) (x : Entry) : (s.release x).lazy = s.lazy.erase x := by
  unfold State.release State.lzPut
  dsimp only
  split_ifs <;> rfl

section

variable (h : Inv s)

include h

theorem erasePage_key (sp va : Nat) :
    (sp, va) ∉ (s.erasePage sp va).lazy.map Entry.key := by
  unfold State.erasePage
  cases hx : s.entryAt sp va with
  | none =>
    intro hmem
    obtain ⟨y, hy, hkey⟩ := mem_map.1 hmem
    have := find?_eq_none.1 hx y hy
    simp [hkey] at this
  | some x =>
    obtain ⟨hmem, hkey⟩ := entryAt_some hx
    rw [release_lazy]
    have hperm := (perm_cons_erase hmem).map Entry.key
    have hn := hperm.nodup_iff.1 h.keys
    rw [map_cons, nodup_cons, hkey] at hn
    exact hn.1

theorem release_slot {i node : Nat} (hnode : (s.slot i).node = some node) :
    ((s.release x).slot i).node = some node ∧ ((s.release x).slot i).n = (s.slot i).n := by
  have hlive : (s.slot i).dead = false := by
    by_contra hd
    rw [(h.dead i (by simpa using hd)).1] at hnode
    cases hnode
  unfold State.release State.lzPut
  dsimp only
  rw [setSlot_self]
  by_cases hi : i = slotOf x.e
  · subst hi
    rw [if_neg (fun hf => by
      rw [hlive] at hf
      cases hf.2), setSlot_self]
    exact ⟨hnode, rfl⟩
  split_ifs
  · rw [freeSlot_ne _ hi, setSlot_ne _ hi]
    exact ⟨hnode, rfl⟩
  rw [setSlot_ne _ hi]
  exact ⟨hnode, rfl⟩

theorem erasePage_slot {i node : Nat} (sp va : Nat)
    (hnode : (s.slot i).node = some node) : ((s.erasePage sp va).slot i).node = some node ∧
      ((s.erasePage sp va).slot i).n = (s.slot i).n := by
  unfold State.erasePage
  cases s.entryAt sp va with
  | none => exact ⟨hnode, rfl⟩
  | some x => exact h.release_slot hnode

omit h in
theorem add_slot (s : State) (x : Entry) (i : Nat) :
    ((s.add x).slot i).node = (s.slot i).node ∧ ((s.add x).slot i).n = (s.slot i).n := by
  change ((s.lzDup x.e).slot i).node = _ ∧ ((s.lzDup x.e).slot i).n = _
  unfold State.lzDup
  by_cases hi : i = slotOf x.e
  · subst hi
    rw [setSlot_self]
    exact ⟨rfl, rfl⟩
  rw [setSlot_ne _ hi]
  exact ⟨rfl, rfl⟩

theorem attachPage {sp va i page node : Nat} (hi : i < shmMax) (hpage : page < 2 ^ 28)
    (hnode : (s.slot i).node = some node) (hn : page < (s.slot i).n) :
    Inv (s.attachPage sp va i page) ∧ ((s.attachPage sp va i page).slot i).node = some node ∧
      ((s.attachPage sp va i page).slot i).n = (s.slot i).n := by
  have hi8 : i < 2 ^ 8 := Nat.lt_of_lt_of_le hi (by decide)
  obtain ⟨hslot, hpg⟩ := enc_fields hi8 hpage
  obtain ⟨hnode', hn'⟩ := h.erasePage_slot sp va hnode
  obtain ⟨hadd, haddn⟩ := add_slot (s.erasePage sp va) ⟨sp, va, enc i page⟩ i
  refine ⟨(h.erasePage sp va).add (h.erasePage_key sp va) ?_ ?_ ?_, hadd.trans hnode',
    haddn.trans hn'⟩
  · rw [hslot]
    exact hi
  · rw [hslot, hpg, hn']
    exact hn
  rw [hslot, hnode']
  simp

theorem attach {sp va i first node : Nat} (hi : i < shmMax) {m k : Nat}
    (hfirst : first + k + m ≤ 2 ^ 28) (hnode : (s.slot i).node = some node)
    (hn : first + k + m ≤ (s.slot i).n) : Inv (State.attach sp va i first m k s) := by
  induction m generalizing k s with
  | zero => exact h
  | succ m ih =>
    obtain ⟨hinv, hnode', hn'⟩ := @attachPage s h sp (va + k) i (first + k) node hi (by omega)
      hnode (by omega)
    exact ih hinv (by omega) hnode' (by omega)

theorem erasePages (sp : Nat) (vas : List Nat) : Inv (s.erasePages sp vas) := by
  induction vas generalizing s with
  | nil => exact h
  | cons va vas ih => exact ih (h.erasePage sp va)

theorem faultIn (sp va fr : Nat) : Inv (s.faultIn sp va fr) := by
  unfold State.faultIn
  cases hx : s.entryAt sp va with
  | none => exact h
  | some x =>
    split_ifs
    · exact h
    have hmem := (entryAt_some hx).1
    refine (h.place (h.inside x hmem).1 _ _).release ?_
    unfold State.place
    split_ifs
    · exact hmem
    · exact hmem

omit h in
theorem dropSlot_gone (s : State) (node i : Nat) : (s.dropSlot node i).gone node = s.gone node := by
  unfold State.dropSlot
  split_ifs <;> rfl

theorem shmDrop {node : Nat} (hgone : s.gone node = true) : Inv (s.shmDrop node) := by
  have hloop : ∀ (l : List Nat) (s : State), Inv s → s.gone node = true →
      (∀ i ∈ l, i < shmMax) → Inv (l.foldl (fun s i => s.dropSlot node i) s) := by
    intro l
    induction l with
    | nil => exact fun s h _ _ => h
    | cons i l ih =>
      intro s h hgone hl
      refine ih _ (h.dropSlot (hl i (by simp)) hgone) ?_ fun j hj => hl j (by simp [hj])
      rw [dropSlot_gone, hgone]
  exact hloop _ s h hgone fun i hi => mem_range.1 hi

theorem setNames (node k : Nat) : Inv (s.setNames node k) :=
  ⟨h.keys, h.count, h.inside, h.table, h.used, h.dead, h.idle, h.ledger, h.log⟩

theorem setOpens (node k : Nat) : Inv (s.setOpens node k) :=
  ⟨h.keys, h.count, h.inside, h.table, h.used, h.dead, h.idle, h.ledger, h.log⟩

theorem unlink {node : Nat} (hclosed : s.names node ≤ 1 → s.opens node = 0) :
    Inv (s.unlink node) := by
  unfold State.unlink
  dsimp only
  split_ifs with hlast
  · refine (h.setNames node _).shmDrop ?_
    simp [State.gone, State.setNames, hclosed hlast]
    omega
  · exact h.setNames node _

theorem close (node : Nat) : Inv (s.close node) := by
  unfold State.close
  dsimp only
  split_ifs with hgone
  · exact (h.setOpens node _).shmDrop hgone
  · exact h.setOpens node _

omit h in
theorem cloneLoop {new : Nat} (l : List Entry) {s : State} (h : Inv s) (hl : ∀ x ∈ l, x ∈ s.lazy)
    (hva : (l.map Entry.va).Nodup) (hnew : ∀ x ∈ l, (new, x.va) ∉ s.lazy.map Entry.key) :
    Inv (l.foldl (fun s x => s.add ⟨new, x.va, x.e⟩) s) := by
  induction l generalizing s with
  | nil => exact h
  | cons x l ih =>
    rw [map_cons, nodup_cons] at hva
    have hx := hl x (by simp)
    have hadd : Inv (s.add ⟨new, x.va, x.e⟩) :=
      h.add (hnew x (by simp)) (h.inside x hx).1 (h.inside x hx).2
        (h.used (slotOf x.e) (ptes_pos hx))
    refine ih hadd (fun y hy => ?_) hva.2 (fun y hy hmem => ?_)
    · exact mem_cons_of_mem _ (hl y (by simp [hy]))
    rcases mem_cons.1 hmem with heq | hmem
    · have hyx : y.va = x.va := congrArg Prod.snd heq
      exact hva.1 (hyx ▸ mem_map_of_mem hy)
    · exact hnew y (by simp [hy]) hmem

theorem cloneSpace (sp new limit : Nat) : Inv (s.cloneSpace sp new limit) := by
  unfold State.cloneSpace
  split_ifs with hfresh
  swap
  · exact h
  have hsub : ((s.lazy.filter fun x => x.sp == sp).take limit).Sublist s.lazy :=
    (take_sublist ..).trans filter_sublist
  have hsp : ∀ x ∈ (s.lazy.filter fun x => x.sp == sp).take limit, x.sp = sp := fun x hx => by
    simpa using (mem_filter.1 (mem_of_mem_take hx)).2
  have hva : (((s.lazy.filter fun x => x.sp == sp).take limit).map Entry.va).Nodup := by
    have hkeys := h.keys.sublist (hsub.map Entry.key)
    have hpair : ((s.lazy.filter fun x => x.sp == sp).take limit).map Entry.key =
        (((s.lazy.filter fun x => x.sp == sp).take limit).map Entry.va).map fun va => (sp, va) := by
      rw [map_map]
      exact map_congr_left fun x hx => Prod.ext (hsp x hx) rfl
    rw [hpair] at hkeys
    exact hkeys.of_map _
  have hnew : ∀ x ∈ (s.lazy.filter fun x => x.sp == sp).take limit,
      (new, x.va) ∉ s.lazy.map Entry.key := by
    intro x _ hmem
    obtain ⟨y, hy, hkey⟩ := mem_map.1 hmem
    have hysp : y.sp = new := congrArg Prod.fst hkey
    have hpage : y.va ∈ s.pagesOf new :=
      mem_map_of_mem (mem_filter.2 ⟨hy, by simpa using hysp⟩)
    rw [hfresh.1] at hpage
    cases hpage
  have hloop := cloneLoop _ h (fun x hx => hsub.subset hx) hva hnew
  dsimp only
  split_ifs
  · exact hloop
  · exact hloop.erasePages new _

theorem step {op : Op} (hop : OpOk s op) : Inv (step s op) := by
  cases op with
  | map sp va node first np pages memory undo =>
    have hop' : first + np ≤ 2 ^ 28 := hop
    have hinv := @shmSlot_inv s h node _ hop' memory
    have hfits := fun i => @shmSlot_fits s node (first + np) hop' memory i
    rw [Shm.step]
    generalize s.shmSlot node (first + np) memory = r at hinv hfits ⊢
    obtain ⟨t, o⟩ := r
    cases o with
    | none => exact hinv
    | some i =>
      obtain ⟨hi, hnode, hn⟩ := hfits i rfl
      have hmap := @attach t hinv sp va i first node hi (min np pages) 0 (by omega) hnode
        (Nat.le_trans (by omega) hn)
      split_ifs
      · exact hmap.erasePages sp _
      · exact hmap
  | page node pages k fr memory =>
    have hop' : pages ≤ 2 ^ 28 := hop
    have hinv := @shmSlot_inv s h node _ hop' memory
    have hfits := fun i => @shmSlot_fits s node pages hop' memory i
    rw [Shm.step]
    generalize s.shmSlot node pages memory = r at hinv hfits ⊢
    obtain ⟨t, o⟩ := r
    cases o with
    | none => exact hinv
    | some i => exact hinv.place (hfits i rfl).1 k fr
  | fault sp va fr => exact h.faultIn sp va fr
  | unmap sp vas => exact h.erasePages sp vas
  | fork sp new limit => exact h.cloneSpace sp new limit
  | exit sp => exact h.erasePages sp _
  | link node => exact h.setNames node _
  | openNode node => exact h.setOpens node _
  | unlink node => exact h.unlink hop
  | close node => exact h.close node

theorem run {ops : List Op} (hops : RunOk s ops) : Inv (run s ops) := by
  induction ops generalizing s with
  | nil => exact h
  | cons op ops ih => exact ih (h.step hops.1) hops.2

end

end Inv

structure Sound (s : State) : Prop where
  counted : ∀ i, (s.slot i).nlz = s.ptes i
  inside : ∀ x ∈ s.lazy, slotOf x.e < shmMax ∧ pageOf x.e < (s.slot (slotOf x.e)).n
  /-- a slot is given to another node only when no entry encodes it -/
  reused : ∀ node pages memory i, (s.shmSlot node pages memory).2 = some i →
    (s.slot i).node ≠ some node → s.ptes i = 0
  /-- a reference that the table took is held by one cell of it or has been dropped -/
  once : ∀ f, f ≠ 0 → s.taken f = s.dropped f + s.held f
  /-- frames were given back only when the node had no name and no open file, and no entry left -/
  freed : ∀ r ∈ s.log, r.gone = true ∧ r.nlz = 0 ∧ r.ptes = 0

theorem shmSlot_found {s : State} {node pages i : Nat} {memory : Bool}
    (h : (s.shmSlot node pages memory).2 = some i) : s.findSlot node = some i := by
  unfold State.shmSlot at h
  cases hf : s.findSlot node with
  | none => simp [hf] at h
  | some j =>
    simp only [hf] at h
    split_ifs at h
    · exact h
    · exact h

def lifetime : List Op :=
  [.link 10, .openNode 10, .map 1 16 10 0 2 2 true false, .fault 1 16 77, .fork 1 2 9, .close 10,
    .unlink 10, .exit 1, .exit 2]

def farMap : Op := .map 9 0 10 (2 ^ 29) 1 1 true false

def unlinkOpen : List Op := [.link 10, .openNode 10, .page 10 1 0 77 true, .unlink 10]

end SamaraOS.Shm
