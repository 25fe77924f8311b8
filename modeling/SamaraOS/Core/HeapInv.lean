import SamaraOS.Core.HeapShape

/-!
# The heap invariant

On top of the shape of the list: no two free blocks side by side, and `used` is the
size of the blocks in use.  Every call of the allocator keeps both.
-/

namespace SamaraOS.Kmalloc

open Dlist List

def Apart (l : Cells) : Prop := l.IsChain fun c d => ¬ (c.2.free = true ∧ d.2.free = true)

def usedBytes (l : Cells) : Nat := (l.map fun c => if c.2.free then 0 else c.2.size + hsz).sum

structure Inv (base size : Nat) (h : Heap) (l : Cells) : Prop where
  shape : Shape h l
  apart : Apart l
  used : h.arena.used = usedBytes l
  base_eq : h.arena.base = base
  size_eq : h.arena.size = size

@[simp] theorem usedBytes_nil : usedBytes [] = 0 := rfl

@[simp] theorem usedBytes_append (l r : Cells) :
    usedBytes (l ++ r) = usedBytes l + usedBytes r := by
  simp [usedBytes]

@[simp] theorem usedBytes_cons (c : Nat × Hdr) (l : Cells) :
    usedBytes (c :: l) = (if c.2.free then 0 else c.2.size + hsz) + usedBytes l := by
  simp [usedBytes]

section Apart

variable {pre post : Cells} {c d : Nat × Hdr}

theorem apart_used (hc : c.2.free = false) : Apart (pre ++ c :: post) ↔ Apart pre ∧ Apart post := by
  simp [Apart, isChain_append, isChain_cons, hc]

theorem Apart.left (h : Apart (pre ++ post)) : Apart pre := (isChain_append.1 h).1

theorem Apart.right (h : Apart (pre ++ post)) : Apart post := (isChain_append.1 h).2.1

theorem apart_cons_free {c d : Nat × Hdr} (h : c.2.free = d.2.free) :
    Apart (c :: post) ↔ Apart (d :: post) := by
  simp [Apart, isChain_cons, h]

theorem apart_append_cons (h : c.2.free = d.2.free) :
    Apart (pre ++ c :: post) ↔ Apart (pre ++ d :: post) := by
  simp [Apart, isChain_append, isChain_cons, h]

end Apart

variable {h : Heap} {l pre post : Cells} {b x n p : Nat} {v w : Hdr}

theorem Shape.search_mem (hs : Shape h l) {start fuel : Nat} (hb : b ∈ keys l)
    (hx : search h.mem h.arena.base start n fuel b = some x) :
    x ∈ keys l ∧ fits h.mem n x = true := by
  induction fuel generalizing b with
  | zero => cases hx
  | succ fuel ih =>
    simp only [search] at hx
    split at hx
    · next hfit =>
      cases hx
      exact ⟨hb, hfit⟩
    split at hx
    · cases hx
    · exact ih (hs.next_mem hb) hx

theorem Shape.carve (hs : Shape h (pre ++ (b, v) :: post)) (hn : n ≤ v.size)
    (hroom : n + hsz + 16 < 2 ^ 64) :
    ∃ v' rest, Shape { h with mem := carve h.mem b n } (pre ++ (b, v') :: rest) ∧
      v'.free = v.free ∧ n ≤ v'.size ∧ usedBytes rest = usedBytes post ∧
      ∀ u : Nat × Hdr, u.2.free = true → Apart (u :: post) → Apart rest := by
  unfold Kmalloc.carve
  rw [Nat.mod_eq_of_lt hroom, hs.node]
  split
  · next hfit =>
    refine ⟨_, _, hs.split (Nat.le_trans (Nat.le_add_right _ 16) hfit), rfl, Nat.le_refl n,
      by simp, ?_⟩
    exact fun u hu h => (apart_cons_free hu).1 h
  · exact ⟨v, post, hs, rfl, hn, rfl, fun u _ h => List.IsChain.of_cons h⟩

variable {base size : Nat}

theorem Inv.size_le (hi : Inv base size h l) (hx : (x, v) ∈ l) : v.size + hsz ≤ size := by
  have hin := hi.shape.tiles.mem hx
  rw [hi.size_eq] at hin
  omega

theorem Inv.alloc (hi : Inv base size h l) (hroom : size + 64 ≤ 2 ^ 64) (n : Nat) :
    ∃ l', Inv base size (arenaAlloc h n).1 l' ∧ ∀ p ∈ (arenaAlloc h n).2,
      ∃ b v, p = b + hsz ∧ (b, v) ∈ l' ∧ v.free = false ∧ align8 n ≤ v.size := by
  have hs := hi.shape
  obtain ⟨r, hr, hrover⟩ := hs.rover
  unfold arenaAlloc
  rw [hs.head, hrover]
  dsimp only [Option.getD_some]
  split
  · exact ⟨l, hi, nofun⟩
  split
  · exact ⟨l, hi, nofun⟩
  next b hb =>
  obtain ⟨hmem, hfit⟩ := hs.search_mem hr hb
  obtain ⟨pre, v, post, rfl⟩ := hs.cell hmem
  simp only [fits, hs.node, Bool.and_eq_true, decide_eq_true_eq] at hfit
  have hle := hi.size_le (x := b) (v := v) (by simp)
  obtain ⟨v', rest, hs', hfree, hsize, hused, hrest⟩ :=
    hs.carve hfit.2 (by simp only [hsz] at *; omega)
  have hm := hs'.mark false
  have hb' : Kmalloc.carve h.mem b (align8 n) b = ⟨v', first rest none, last none pre⟩ :=
    hs'.node
  simp only [hb']
  refine ⟨_, ⟨hm.setArena rfl rfl rfl ⟨_, hm.next_mem (b := b) (by simp), ?_⟩, ?_, ?_,
    hi.base_eq, hi.size_eq⟩, ?_⟩
  · rfl
  · have hap := hi.apart.right
    exact (apart_used rfl).2 ⟨hi.apart.left, hrest _ hfit.1 hap⟩
  · simp [Dlist.setVal, hi.used, hfit.1, hused]
    omega
  rintro p ⟨⟩
  exact ⟨b, _, rfl, mem_append_right pre mem_cons_self, rfl, hsize⟩

/-! ## Freeing -/

section

variable (h : Heap) (b : Nat)

theorem mergeNext_arena : ∃ r, (mergeNext h b).arena = { h.arena with rover := r } := by
  unfold mergeNext
  split
  · exact ⟨h.arena.rover, rfl⟩
  · exact ⟨_, rfl⟩

theorem joinNext_arena : ∃ r, (joinNext h b).arena = { h.arena with rover := r } := by
  unfold joinNext
  split
  · exact ⟨h.arena.rover, rfl⟩
  split
  · exact mergeNext_arena h b
  · exact ⟨h.arena.rover, rfl⟩

theorem joinPrev_arena : ∃ r, (joinPrev h b).arena = { h.arena with rover := r } := by
  unfold joinPrev
  split
  · exact ⟨h.arena.rover, rfl⟩
  split
  · exact mergeNext_arena h _
  · exact ⟨h.arena.rover, rfl⟩

end

theorem Shape.joinNext (hs : Shape h (pre ++ (b, v) :: post)) (hv : v.free = true)
    (hap : Apart post) : ∃ v' rest, Shape (joinNext h b) (pre ++ (b, v') :: rest) ∧
      v'.free = true ∧ usedBytes rest = usedBytes post ∧ Apart ((b, v') :: rest) := by
  have hb := hs.node
  rcases post with _ | ⟨⟨x, w⟩, post⟩
  · simp only [Kmalloc.joinNext, hb, first_nil]
    exact ⟨v, [], hs, hv, rfl, isChain_singleton _⟩
  have hx : (h.mem x).val = w := by rw [(seg_append.1 hs.seg).2.2.1]
  simp only [Kmalloc.joinNext, hb, first_cons, hx]
  cases hw : w.free with
  | true =>
    refine ⟨_, post, hs.mergeNext, hv, by simp [hw], ?_⟩
    exact (apart_cons_free (by simp [hv, hw])).1 hap
  | false => exact ⟨v, _, hs, hv, rfl, isChain_cons_cons.2 ⟨by simp [hw], hap⟩⟩

theorem last_append_singleton (pre : Cells) (y : Nat) (u : Hdr) (o : Option Nat) :
    last o (pre ++ [(y, u)]) = some y := by
  induction pre generalizing o with
  | nil => rfl
  | cons c pre ih => exact ih _

theorem Shape.joinPrev (hs : Shape h (pre ++ (b, v) :: post)) (hv : v.free = true)
    (hpre : Apart pre) (hap : Apart ((b, v) :: post)) :
    ∃ l', Shape (joinPrev h b) l' ∧ Apart l' ∧ usedBytes l' = usedBytes pre + usedBytes post := by
  have hb := hs.node
  rcases eq_nil_or_concat' pre with rfl | ⟨pre', ⟨y, u⟩, rfl⟩
  · simp only [Kmalloc.joinPrev, hb, last]
    exact ⟨(b, v) :: post, hs, hap, by simp [hv]⟩
  have hs' : Shape h (pre' ++ (y, u) :: (b, v) :: post) := by simpa using hs
  have hy : (h.mem y).val = u := by rw [hs'.node]
  simp only [Kmalloc.joinPrev, hb, last_append_singleton, hy]
  cases hu : u.free with
  | true =>
    refine ⟨_, hs'.mergeNext, ?_, by simp [hu]⟩
    apply isChain_split.2
    exact ⟨(apart_append_cons (by simp [hu])).1 hpre, (apart_cons_free (by simp [hv, hu])).1 hap⟩
  | false =>
    refine ⟨_, hs', ?_, by simp [hu, hv, Nat.add_assoc]⟩
    exact (apart_used hu).2 ⟨((apart_used hu).1 hpre).1, hap⟩

theorem Shape.markFree (hs : Shape h (pre ++ (b, v) :: post)) :
    Shape (markFree h b) (pre ++ (b, { v with free := true, mg := mgFree }) :: post) := by
  rw [Kmalloc.markFree, hs.node]
  exact (hs.mark true).setArena rfl rfl rfl (by simpa using hs.rover)

section

variable (hi : Inv base size h l)

include hi

theorem Inv.free (hp : b ∈ blocks h ∨ (h.mem b).val.mg ≠ mgUsed) :
    ∃ l', Inv base size (freeBlock h b).1 l' := by
  unfold freeBlock
  split
  · exact ⟨l, hi⟩
  next hmg =>
  have hs := hi.shape
  rw [hs.blocks] at hp
  obtain ⟨pre, v, post, rfl⟩ := hs.cell (hp.resolve_right hmg)
  have hb := hs.node
  have hused : v.free = false := by
    have hc := hs.canary (b, v) (by simp)
    simp only [hb, not_not] at hmg
    cases hf : v.free with
    | false => rfl
    | true =>
      simp only [hmg, hf] at hc
      exact absurd hc (by decide)
  obtain ⟨hpre, hpost⟩ := (apart_used hused).1 hi.apart
  obtain ⟨v', rest, hs', hv', hrest, hap⟩ := hs.markFree.joinNext rfl hpost
  obtain ⟨l', hl', hap', hu'⟩ := hs'.joinPrev hv' hpre hap
  obtain ⟨r, hr⟩ := joinPrev_arena (joinNext (markFree h b) b) b
  obtain ⟨r', hr'⟩ := joinNext_arena (markFree h b) b
  refine ⟨l', hl', hap', ?_, ?_, ?_⟩
  · rw [hr, hr', hu', hrest]
    simp only [markFree, hb, hi.used, usedBytes_append, usedBytes_cons, hused]
    simp
    omega
  · rw [hr, hr']
    exact hi.base_eq
  rw [hr, hr']
  exact hi.size_eq

theorem Inv.grow (hroom : size + 64 ≤ 2 ^ 64) (hb : b ∈ blocks h) :
    ∃ l', Inv base size (growBlock h b n).1 l' := by
  have hs := hi.shape
  rw [hs.blocks] at hb
  obtain ⟨pre, v, post, rfl⟩ := hs.cell hb
  unfold growBlock
  rw [hs.node]
  dsimp only
  split
  · exact ⟨_, hi⟩
  next hlt =>
  rcases post with _ | ⟨⟨x, w⟩, post⟩
  · exact ⟨_, hi⟩
  have hx : (h.mem x).val = w := by rw [(seg_append.1 hs.seg).2.2.1]
  simp only [first_cons, hx]
  split
  · next hgrow =>
    obtain ⟨hw, hn⟩ := hgrow
    have hap := isChain_append.1 hi.apart
    have hused : v.free = false := by
      have := (isChain_cons_cons.1 hap.2.1).1
      simpa [hw] using this
    obtain ⟨r, hr⟩ := mergeNext_arena h b
    have hm := hs.mergeNext
    have hin := hm.tiles.mem (mem_append_right pre mem_cons_self)
    rw [hr] at hin
    simp only [hi.base_eq, hi.size_eq] at hin
    obtain ⟨v', rest, hs', hfree, hsize, hrest, hrap⟩ :=
      hm.carve (n := n) (by dsimp only; omega) (by simp only [hsz] at *; omega)
    have hb' : carve (mergeNext h b).mem b n b = ⟨v', first rest none, last none pre⟩ :=
      hs'.node
    refine ⟨_, hs'.setArena rfl rfl rfl hs'.rover, ?_, ?_, ?_, ?_⟩
    · have hpost := hrap (x, w) hw ((apart_used hused).1 hi.apart).2
      exact (apart_used (hfree.trans hused)).2 ⟨hi.apart.left, hpost⟩
    · simp only [hb', hi.used, usedBytes_append, usedBytes_cons, hused, hw, hrest, hfree]
      simp
      omega
    · rw [hr]
      exact hi.base_eq
    rw [hr]
    exact hi.size_eq
  · exact ⟨_, hi⟩

theorem Inv.store (hx : x ∉ blocks h) (n : Node Hdr) :
    Inv base size { h with mem := h.mem.set x n } l := by
  have hs := hi.shape
  rw [hs.blocks] at hx
  have hseg : Seg (h.mem.set x n) none l none :=
    hs.seg.congr fun y hy => Mem.set_other fun e => hx (e ▸ hy)
  exact ⟨⟨hseg, hs.tiles, hs.head, hs.ne, hs.canary, hs.rover⟩, hi.apart, hi.used,
    hi.base_eq, hi.size_eq⟩

theorem Inv.step (hroom : size + 64 ≤ 2 ^ 64) {ev : Event}
    (hen : enabled h ev = true) : ∃ l', Inv base size (step h ev) l' := by
  cases ev with
  | alloc n =>
    obtain ⟨l', hi', -⟩ := hi.alloc hroom n
    exact ⟨l', hi'⟩
  | free p => exact hi.free (by simpa [enabled] using hen)
  | kgrow p n =>
    have hb : hdrOf p ∈ blocks h := by simpa [enabled] using hen
    simp only [Kmalloc.step, kgrow]
    split
    · exact ⟨l, hi⟩
    · exact hi.grow hroom hb
  | store x n => exact ⟨l, hi.store (by simpa [enabled] using hen) n⟩

theorem Inv.play (hroom : size + 64 ≤ 2 ^ 64) (evs : List Event) :
    ∃ l', Inv base size (play h evs) l' := by
  induction evs generalizing h l with
  | nil => exact ⟨l, hi⟩
  | cons ev evs ih =>
    have hnext : ∃ l', Inv base size (next h ev) l' := by
      unfold next
      split
      · next hen => exact hi.step hroom hen
      · exact ⟨l, hi⟩
    obtain ⟨l', hi'⟩ := hnext
    exact ih hi'

end

theorem inv_init (m : Mem Hdr) (hsize : hsz ≤ size) :
    Inv base size (arenaInit m base size) [(base, ⟨size - hsz, true, mgFree⟩)] := by
  refine ⟨⟨⟨?_, trivial⟩, ⟨rfl, ?_⟩, rfl, by simp, ?_, ⟨base, by simp, rfl⟩⟩,
    isChain_singleton _, rfl, rfl, rfl⟩
  · simp [arenaInit]
  · simp only [Tiles, arenaInit]
    omega
  intro c hc
  rw [mem_singleton.1 hc]
  rfl

/-! ## What the invariant says about the block list -/

/-- The state of an arena in the terms of `heap_check_locked`. -/
structure WellFormed (base size : Nat) (h : Heap) : Prop where
  head : h.arena.head = some base ∧ (blocks h).head? = some base
  sorted : (blocks h).Pairwise (· < ·)
  linked : (blocks h).IsChain fun b c =>
    (h.mem b).next = some c ∧ (h.mem c).prev = some b ∧ b + hsz + (h.mem b).val.size = c
  first : (h.mem base).prev = none
  last : ∀ b ∈ (blocks h).getLast?,
    (h.mem b).next = none ∧ b + hsz + (h.mem b).val.size = base + size
  apart : (blocks h).IsChain fun b c =>
    ¬ ((h.mem b).val.free = true ∧ (h.mem c).val.free = true)
  canary : ∀ b ∈ blocks h,
    (h.mem b).val.mg = if (h.mem b).val.free then mgFree else mgUsed
  used : h.arena.used =
    (((blocks h).filter fun b => !(h.mem b).val.free).map fun b =>
      (h.mem b).val.size + hsz).sum
  rover : ∃ r ∈ blocks h, h.arena.rover = some r

theorem Shape.val (hs : Shape h l) (hx : (x, v) ∈ l) : (h.mem x).val = v := by
  obtain ⟨pre, post, rfl⟩ := append_of_mem hx
  rw [hs.node]

theorem keys_linked {m : Mem Hdr} {o q : Option Nat} {lo hi : Nat} (hseg : Seg m o l q)
    (ht : Tiles lo l hi) :
    (keys l).IsChain fun b c =>
      (m b).next = some c ∧ (m c).prev = some b ∧ b + hsz + (m b).val.size = c := by
  induction l generalizing o lo with
  | nil => exact isChain_nil
  | cons c l ih =>
    obtain ⟨b, v⟩ := c
    obtain ⟨hb, hl⟩ := hseg
    obtain ⟨rfl, ht⟩ := ht
    cases l with
    | nil => exact isChain_singleton b
    | cons c l =>
      obtain ⟨x, w⟩ := c
      refine isChain_cons_cons.2 ⟨?_, ih hl ht⟩
      rw [hb, hl.1, ht.1]
      exact ⟨rfl, rfl, rfl⟩

theorem Shape.apart_keys (hs : Shape h l) (hap : Apart l) :
    (keys l).IsChain fun b c => ¬ ((h.mem b).val.free = true ∧ (h.mem c).val.free = true) := by
  refine (isChain_map _).2 (List.IsChain.imp_of_mem_imp ?_ hap)
  intro c d hc hd hcd
  rw [hs.val hc, hs.val hd]
  exact hcd

theorem usedBytes_eq (l : Cells) :
    usedBytes l = ((l.filter fun c => !c.2.free).map fun c => c.2.size + hsz).sum := by
  induction l with
  | nil => rfl
  | cons c l ih =>
    cases hc : c.2.free <;> simp [hc, ih]

theorem Shape.used_keys (hs : Shape h l) :
    usedBytes l = (((keys l).filter fun b => !(h.mem b).val.free).map fun b =>
      (h.mem b).val.size + hsz).sum := by
  have hfilter : (l.filter fun c => !(h.mem c.1).val.free) = l.filter fun c => !c.2.free :=
    filter_congr fun c hc => by rw [hs.val hc]
  have hmap : ∀ c ∈ l.filter fun c => !c.2.free, (h.mem c.1).val.size + hsz = c.2.size + hsz :=
    fun c hc => by rw [hs.val (mem_of_mem_filter hc)]
  rw [usedBytes_eq, Dlist.keys, filter_map, map_map]
  simp only [Function.comp_def]
  rw [hfilter, map_congr_left hmap]

theorem Shape.last_cell (hs : Shape h l) (hb : b ∈ (keys l).getLast?) : (h.mem b).next = none ∧
      b + hsz + (h.mem b).val.size = h.arena.base + h.arena.size := by
  rcases eq_nil_or_concat' l with rfl | ⟨pre, ⟨x, v⟩, rfl⟩
  · exact absurd rfl hs.ne
  obtain rfl : x = b := by simpa using hb
  obtain ⟨mid, -, rfl, ht⟩ := tiles_append.1 hs.tiles
  rw [hs.node]
  exact ⟨rfl, ht⟩

theorem Inv.wellFormed (hi : Inv base size h l) : WellFormed base size h := by
  have hs := hi.shape
  have hb := hs.blocks
  have hfirst := hs.first
  obtain ⟨c, l', rfl⟩ := exists_cons_of_ne_nil hs.ne
  rw [first_cons, hi.base_eq, Option.some.injEq] at hfirst
  subst hfirst
  refine ⟨⟨by rw [hs.head, hi.base_eq], by rw [hb]; rfl⟩, ?_, ?_, ?_, ?_, ?_, ?_, ?_, ?_⟩
  · rw [hb]
    exact hs.tiles.sorted
  · rw [hb]
    exact keys_linked hs.seg hs.tiles
  · rw [hs.seg.1]
  · intro b hlast
    rw [hb] at hlast
    have hl := hs.last_cell hlast
    rwa [hi.base_eq, hi.size_eq] at hl
  · rw [hb]
    exact hs.apart_keys hi.apart
  · intro b hmem
    rw [hb] at hmem
    obtain ⟨⟨y, w⟩, hc, rfl⟩ := mem_map.1 hmem
    rw [hs.val hc]
    exact hs.canary _ hc
  · rw [hb, hi.used]
    exact hs.used_keys
  rw [hb]
  exact hs.rover

theorem Inv.disjoint (hi : Inv base size h l) {c : Nat} (hb : b ∈ blocks h)
    (hc : c ∈ blocks h) (hlt : b < c) : b + hsz + (h.mem b).val.size ≤ c := by
  have hs := hi.shape
  rw [hs.blocks] at hb hc
  obtain ⟨pre, v, post, rfl⟩ := hs.cell hb
  obtain ⟨hpre, hpost⟩ := hs.tiles.around
  rw [hs.node]
  simp only [Dlist.keys_append, Dlist.keys_cons, mem_append, mem_cons] at hc
  rcases hc with hc | rfl | hc
  · have := hpre c hc
    omega
  · omega
  · exact hpost c hc

/-- Over every run of the allocator and its callers the block list is well formed, and
no two blocks in use share a byte. -/
theorem heap_well_formed (m : Mem Hdr) (base size : Nat) (hsize : hsz ≤ size)
    (hroom : size + 64 ≤ 2 ^ 64) (evs : List Event) :
    WellFormed base size (play (arenaInit m base size) evs) ∧
    ∀ b ∈ blocks (play (arenaInit m base size) evs),
    ∀ c ∈ blocks (play (arenaInit m base size) evs), b ≠ c →
      ((play (arenaInit m base size) evs).mem b).val.free = false →
      ((play (arenaInit m base size) evs).mem c).val.free = false →
      ∀ x, ¬ ((b + hsz ≤ x ∧ x < b + hsz + ((play (arenaInit m base size) evs).mem b).val.size) ∧
        (c + hsz ≤ x ∧ x < c + hsz + ((play (arenaInit m base size) evs).mem c).val.size)) := by
  obtain ⟨l, hi⟩ := (inv_init m hsize).play hroom evs
  refine ⟨hi.wellFormed, ?_⟩
  intro b hb c hc hne _ _ x ⟨hxb, hxc⟩
  rcases Nat.lt_or_gt_of_ne hne with hlt | hlt
  · have := hi.disjoint hb hc hlt
    omega
  have := hi.disjoint hc hb hlt
  omega

/-- Two allocations; the first is freed and the second grows into the free rest. -/
theorem heap_well_formed_grown :
    blocks (play (arenaInit (fun _ => ⟨⟨0, false, 0⟩, none, none⟩) 4096 256)
      [.alloc 40, .alloc 16, .free 4128, .kgrow 4208 60]) = [4096, 4176, 4272] ∧
    WellFormed 4096 256 (play (arenaInit (fun _ => ⟨⟨0, false, 0⟩, none, none⟩) 4096 256)
      [.alloc 40, .alloc 16, .free 4128, .kgrow 4208 60]) :=
  ⟨by decide +kernel, (heap_well_formed _ 4096 256 (by decide) (by decide) _).1⟩

end SamaraOS.Kmalloc
