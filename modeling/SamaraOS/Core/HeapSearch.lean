import SamaraOS.Core.HeapInv

/-!
# What a request for memory gets

The next-fit loop of `arena_alloc` starts at the rover and goes around the list once.  It misses
no block, since the rover is one of them; a request near the top of `size_t` is rounded to 0.
-/

namespace SamaraOS.Kmalloc

open Dlist List

/-- The loop of `arena_alloc` comes to its end within the fuel. -/
def ends (m : Mem Hdr) (head start n : Nat) : Nat → Nat → Bool
  | 0, _ => false
  | fuel + 1, b =>
    fits m n b ||
      let b := (m b).next.getD head
      b = start || ends m head start n fuel b

structure AllocRight (h : Heap) (n : Nat) : Prop where
  ends : ∀ head ∈ h.arena.head, ends h.mem head (h.arena.rover.getD head) (align8 n)
    h.arena.size (h.arena.rover.getD head) = true
  null : (arenaAlloc h n).2 = none → n = 0 ∨
    ∀ b ∈ blocks h, (h.mem b).val.free = true → (h.mem b).val.size < (n + 15) / 16 * 16
  block : ∀ p ∈ (arenaAlloc h n).2, ∃ b ∈ blocks (arenaAlloc h n).1, p = b + hsz ∧
    ((arenaAlloc h n).1.mem b).val.free = false ∧ n ≤ ((arenaAlloc h n).1.mem b).val.size

def nextAny (h : Heap) : Event → Heap
  | .alloc n => step h (.alloc n)
  | ev => next h ev

def playAny (h : Heap) (evs : List Event) : Heap := evs.foldl nextAny h

variable {h : Heap} {l : Cells} {m : Mem Hdr} {o q : Option Nat} {v : Hdr}
variable {b n head start fuel base size : Nat}

theorem ends_along (hseg : Seg m o ((b, v) :: l) q) (hfuel : l.length < fuel)
    (hq : q.getD head = start ∨ ends m head start n (fuel - (l.length + 1)) (q.getD head) = true) :
    ends m head start n fuel b = true := by
  induction l generalizing b v o fuel with
  | nil =>
    obtain ⟨fuel, rfl⟩ : ∃ f, fuel = f + 1 := ⟨fuel - 1, by omega⟩
    simp only [ends, hseg.1, first_nil]
    rcases hq with hq | hq
    · simp [hq]
    simp only [length_nil, Nat.zero_add, Nat.add_sub_cancel] at hq
    simp [hq]
  | cons c l ih =>
    obtain ⟨x, w⟩ := c
    obtain ⟨fuel, rfl⟩ : ∃ f, fuel = f + 1 := ⟨fuel - 1, by omega⟩
    simp only [length_cons, Nat.add_sub_add_right] at hq hfuel
    simp only [ends, hseg.1, first_cons, Option.getD_some]
    rw [ih hseg.2 (by omega) hq]
    simp

theorem search_along (hseg : Seg m o ((b, v) :: l) q) (hstart : start ∉ keys l)
    (hfuel : l.length < fuel) (hnone : search m head start n fuel b = none) :
    (∀ c ∈ b :: keys l, fits m n c = false) ∧ (q.getD head = start ∨
        search m head start n (fuel - (l.length + 1)) (q.getD head) = none) := by
  induction l generalizing b v o fuel with
  | nil =>
    obtain ⟨fuel, rfl⟩ : ∃ f, fuel = f + 1 := ⟨fuel - 1, by omega⟩
    simp only [search, hseg.1, first_nil] at hnone
    split at hnone
    · cases hnone
    next hfit =>
    refine ⟨by simpa using hfit, ?_⟩
    split at hnone
    · next heq => exact .inl heq
    · exact .inr hnone
  | cons c l ih =>
    obtain ⟨x, w⟩ := c
    obtain ⟨fuel, rfl⟩ : ∃ f, fuel = f + 1 := ⟨fuel - 1, by omega⟩
    simp only [Dlist.keys_cons, mem_cons, not_or] at hstart
    simp only [search, hseg.1, first_cons, Option.getD_some, if_neg (Ne.symm hstart.1)] at hnone
    split at hnone
    · cases hnone
    next hfit =>
    obtain ⟨hall, hrest⟩ := ih hseg.2 hstart.2 (by simp at hfuel; omega) hnone
    refine ⟨?_, by simpa using hrest⟩
    intro c hc
    rcases mem_cons.1 hc with rfl | hc
    · simpa using hfit
    · exact hall c hc

section

variable (hs : Shape h l) (hstart : start ∈ keys l) (hfuel : l.length ≤ fuel)

include hs hstart hfuel

theorem Shape.ends : ends h.mem h.arena.base start n fuel start = true := by
  obtain ⟨pre, v, post, rfl⟩ := hs.cell hstart
  obtain ⟨hpre, hseg⟩ := seg_append.1 hs.seg
  simp only [length_append, length_cons] at hfuel
  apply ends_along hseg (by omega)
  rcases pre with _ | ⟨⟨x, w⟩, pre⟩
  · exact .inl (by simpa using hs.first.symm)
  obtain rfl : x = h.arena.base := by simpa using hs.first
  simp only [length_cons] at hfuel
  exact .inr (ends_along hpre (by omega) (.inl rfl))

theorem Shape.search_none (hnone : search h.mem h.arena.base start n fuel start = none) :
    ∀ c ∈ keys l, fits h.mem n c = false := by
  obtain ⟨pre, v, post, rfl⟩ := hs.cell hstart
  have hnodup := hs.tiles.nodup
  simp only [Dlist.keys_append, Dlist.keys_cons, nodup_append, nodup_cons] at hnodup
  obtain ⟨hpre, hseg⟩ := seg_append.1 hs.seg
  simp only [length_append, length_cons] at hfuel
  obtain ⟨hpost, hback⟩ := search_along hseg hnodup.2.1.1 (by omega) hnone
  intro c hc
  rw [Dlist.keys_append, Dlist.keys_cons] at hc
  rcases mem_append.1 hc with hc | hc
  swap
  · exact hpost c hc
  -- the part before the rover is searched from the head
  rcases pre with _ | ⟨⟨x, w⟩, pre⟩
  · cases hc
  obtain rfl : x = h.arena.base := by simpa using hs.first
  have hne : h.arena.base ≠ start := hnodup.2.2 _ (by simp) start (by simp)
  have hsp : start ∉ keys pre := fun hmem => hnodup.2.2 start (by simp [hmem]) start (by simp) rfl
  have hnone' := hback.resolve_left hne
  simp only [length_cons] at hfuel
  exact (search_along hpre hsp (by omega) hnone').1 c hc

end

section

variable (hi : Inv base size h l)

include hi

theorem Inv.length_le : l.length ≤ h.arena.size := by
  have hlen := hi.shape.tiles.le
  simp only [hsz] at hlen
  omega

theorem Inv.alloc_none (hn : n ≠ 0)
    (hnone : (arenaAlloc h n).2 = none) : ∀ b ∈ blocks h, fits h.mem (align8 n) b = false := by
  have hs := hi.shape
  obtain ⟨r, hr, hrover⟩ := hs.rover
  rw [hs.blocks]
  apply hs.search_none hr hi.length_le
  unfold arenaAlloc at hnone
  rw [hs.head, hrover] at hnone
  simp only [if_neg hn, Option.getD_some] at hnone
  split at hnone
  · next hsearch => exact hsearch
  · cases hnone

section

variable (hroom : size + 64 ≤ 2 ^ 64)

include hroom

theorem Inv.playAny (evs : List Event) :
    ∃ l', Inv base size (playAny h evs) l' := by
  induction evs generalizing h l with
  | nil => exact ⟨l, hi⟩
  | cons ev evs ih =>
    have hnext : ∃ l', Inv base size (nextAny h ev) l' := by
      cases ev with
      | alloc n =>
        obtain ⟨l', hi', -⟩ := hi.alloc hroom n
        exact ⟨l', hi'⟩
      | free p => exact hi.play hroom [.free p]
      | kgrow p n => exact hi.play hroom [.kgrow p n]
      | store x w => exact hi.play hroom [.store x w]
    obtain ⟨l', hi'⟩ := hnext
    exact ih hi'

theorem Inv.alloc_some {p : Nat}
    (hp : p ∈ (arenaAlloc h n).2) : ∃ b ∈ blocks (arenaAlloc h n).1, p = b + hsz ∧
      ((arenaAlloc h n).1.mem b).val.free = false ∧ align8 n ≤ ((arenaAlloc h n).1.mem b).val.size ∧
      ((arenaAlloc h n).1.mem b).val.size ≤ size := by
  obtain ⟨l', hi', hblock⟩ := hi.alloc hroom n
  obtain ⟨b, v, rfl, hmem, hfree, hsize⟩ := hblock p hp
  refine ⟨b, ?_, rfl, ?_⟩
  · rw [hi'.shape.blocks]
    exact mem_map_of_mem hmem
  rw [hi'.shape.val hmem]
  exact ⟨hfree, hsize, (Nat.le_add_right _ _).trans (hi'.size_le hmem)⟩

omit hroom in
theorem Inv.alloc_ends (n : Nat) : ∀ head ∈ h.arena.head, Kmalloc.ends
    h.mem head (h.arena.rover.getD head) (align8 n) h.arena.size (h.arena.rover.getD head) = true :=
    by
  intro head hhead
  obtain ⟨r, hr, hrover⟩ := hi.shape.rover
  obtain rfl := Option.some.inj (hi.shape.head.symm.trans hhead)
  rw [hrover]
  exact hi.shape.ends hr hi.length_le

theorem Inv.alloc_right
    (hn : n + 15 < 2 ^ 64) : AllocRight h n := by
  have halign : align8 n = (n + 15) / 16 * 16 := by rw [align8, Nat.mod_eq_of_lt hn]
  refine ⟨hi.alloc_ends n, fun hnone => ?_, fun p hp => ?_⟩
  · by_cases h0 : n = 0
    · exact .inl h0
    refine .inr fun b hb hfree => ?_
    have hfit := hi.alloc_none h0 hnone b hb
    rw [halign] at hfit
    simpa [fits, hfree] using hfit
  obtain ⟨b, hb, rfl, hfree, hsize, -⟩ := hi.alloc_some hroom hp
  exact ⟨b, hb, rfl, hfree, by omega⟩

theorem Inv.alloc_wrapped (hn : n < 2 ^ 64)
    (hwrap : 2 ^ 64 ≤ n + 15) : AllocRight h n ↔ ∀ b ∈ blocks h, (h.mem b).val.free = false := by
  have halign : align8 n = 0 := by
    rw [align8]
    omega
  cases hres : (arenaAlloc h n).2 with
  | none =>
    have hall : ∀ b ∈ blocks h, (h.mem b).val.free = false := by
      intro b hb
      have hfit := hi.alloc_none (by omega) hres b hb
      simpa [fits, halign] using hfit
    refine iff_of_true ⟨hi.alloc_ends n, fun _ => .inr fun b hb hfree => ?_, ?_⟩ hall
    · rw [hall b hb] at hfree
      cases hfree
    simp [hres]
  | some p =>
    refine iff_of_false (fun hright => ?_) (fun hall => ?_)
    · obtain ⟨b, -, hp, -, hsize⟩ := hright.block p hres
      obtain ⟨b', -, hp', -, -, hle⟩ := hi.alloc_some hroom hres
      obtain rfl : b = b' := by omega
      omega
    obtain ⟨r, hr, hrover⟩ := hi.shape.rover
    rw [hi.shape.blocks] at hall
    have hhead := hi.shape.head
    unfold arenaAlloc at hres
    rw [hhead, hrover] at hres
    simp only [Option.getD_some] at hres
    split at hres
    · cases hres
    split at hres
    · cases hres
    next hb =>
    obtain ⟨hmem, hfit⟩ := hi.shape.search_mem hr hb
    simp [fits, hall _ hmem] at hfit

end

end

/-- A request is answered as it should be exactly if rounding it up does not wrap, or there is
nothing to give. -/
theorem arenaAlloc_right_iff (m : Mem Hdr) (base size : Nat) (hsize : hsz ≤ size)
    (hroom : size + 64 ≤ 2 ^ 64) (evs : List Event) (n : Nat) (hn : n < 2 ^ 64) :
    AllocRight (playAny (arenaInit m base size) evs) n ↔ n + 15 < 2 ^ 64 ∨
        ∀ b ∈ blocks (playAny (arenaInit m base size) evs),
          ((playAny (arenaInit m base size) evs).mem b).val.free = false := by
  obtain ⟨l, hi⟩ := (inv_init m hsize).playAny hroom evs
  by_cases hwrap : n + 15 < 2 ^ 64
  · exact iff_of_true (hi.alloc_right hroom hwrap) (.inl hwrap)
  · rw [hi.alloc_wrapped hroom hn (by omega), or_iff_right hwrap]

theorem arenaAlloc_right_iff_small :
    AllocRight (playAny (arenaInit (fun _ => ⟨⟨0, false, 0⟩, none, none⟩) 4096 256)
      [.alloc 40, .alloc 16, .free 4128]) 100 :=
  (arenaAlloc_right_iff _ 4096 256 (by decide) (by decide) _ 100 (by decide)).2
    (.inl (by decide))

/-- `kmalloc(-1)` gives a block of no bytes. -/
theorem arenaAlloc_wraps :
    ¬ AllocRight (arenaInit (fun _ => ⟨⟨0, false, 0⟩, none, none⟩) 4096 256) (2 ^ 64 - 1) := by
  intro hright
  obtain ⟨b, -, hb, -, hsize⟩ := hright.block 4128 (by decide +kernel)
  obtain rfl : b = 4096 := by
    simp only [hsz] at hb
    omega
  exact absurd hsize (by decide +kernel)

end SamaraOS.Kmalloc
