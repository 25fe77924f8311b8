import SamaraOS.Core.Heap

/-!
# The shape of the heap

The block list as a plain list of addresses and headers: it tiles the arena, its
links and canaries are right and the rover points into it.  Splitting, merging and
marking are edits of that list.
-/

namespace SamaraOS.Kmalloc

open Dlist List

abbrev Cells := List (Nat × Hdr)

def canary (free : Bool) : BitVec 32 := if free then mgFree else mgUsed

/-- The blocks follow each other without gaps from `lo` to `hi`. -/
def Tiles : Nat → Cells → Nat → Prop
  | lo, [], hi => lo = hi
  | lo, (x, v) :: l, hi => x = lo ∧ Tiles (lo + hsz + v.size) l hi

variable {hi lo : Nat} {l : Cells}

theorem tiles_append {r : Cells} :
    Tiles lo (l ++ r) hi ↔ ∃ mid, Tiles lo l mid ∧ Tiles mid r hi := by
  induction l generalizing lo with
  | nil => simp [Tiles]
  | cons c l ih => simp [Tiles, ih, and_assoc]

section

variable (h : Tiles lo l hi)

include h

theorem Tiles.le : lo + hsz * l.length ≤ hi := by
  induction l generalizing lo with
  | nil => simp [Tiles] at h; simp [h]
  | cons c l ih =>
    have := ih h.2
    simp only [length_cons, hsz] at *
    omega

theorem Tiles.mem {x : Nat} {v : Hdr} (hx : (x, v) ∈ l) : lo ≤ x ∧ x + hsz + v.size ≤ hi := by
  obtain ⟨pre, post, rfl⟩ := append_of_mem hx
  obtain ⟨mid, hpre, rfl, hpost⟩ := tiles_append.1 h
  have hlo := hpre.le
  have hhi := hpost.le
  constructor <;> omega

theorem Tiles.sorted : (keys l).Pairwise (· < ·) := by
  induction l generalizing lo with
  | nil => exact List.Pairwise.nil
  | cons c l ih =>
    obtain ⟨rfl, hl⟩ := h
    refine pairwise_cons.2 ⟨?_, ih hl⟩
    intro y hy
    obtain ⟨⟨y, w⟩, hmem, rfl⟩ := mem_map.1 hy
    have := (hl.mem hmem).1
    simp only [hsz] at *
    omega

theorem Tiles.nodup : (keys l).Nodup :=
  h.sorted.imp fun hlt => Nat.ne_of_lt hlt

end

theorem Tiles.around {b : Nat} {v : Hdr} {pre post : Cells}
    (h : Tiles lo (pre ++ (b, v) :: post) hi) :
    (∀ y ∈ keys pre, y + hsz ≤ b) ∧ ∀ y ∈ keys post, b + hsz + v.size ≤ y := by
  obtain ⟨mid, hpre, rfl, hpost⟩ := tiles_append.1 h
  constructor
  · intro y hy
    obtain ⟨⟨y, w⟩, hmem, rfl⟩ := mem_map.1 hy
    have := (hpre.mem hmem).2
    omega
  intro y hy
  obtain ⟨⟨y, w⟩, hmem, rfl⟩ := mem_map.1 hy
  exact (hpost.mem hmem).1

theorem Tiles.replace {pre post : Cells} (mid mid' : Cells) (h : Tiles lo (pre ++ (mid ++ post)) hi)
    (hmid : ∀ a b, Tiles a mid b → Tiles a mid' b) : Tiles lo (pre ++ (mid' ++ post)) hi := by
  obtain ⟨a, hpre, h⟩ := tiles_append.1 h
  obtain ⟨b, hm, hpost⟩ := tiles_append.1 h
  exact tiles_append.2 ⟨a, hpre, tiles_append.2 ⟨b, hmid a b hm, hpost⟩⟩

structure Shape (h : Heap) (l : Cells) : Prop where
  seg : Seg h.mem none l none
  tiles : Tiles h.arena.base l (h.arena.base + h.arena.size)
  head : h.arena.head = some h.arena.base
  ne : l ≠ []
  canary : ∀ c ∈ l, c.2.mg = canary c.2.free
  rover : ∃ x ∈ keys l, h.arena.rover = some x

variable {h : Heap} {l pre post : Cells} {b x n : Nat} {v w : Hdr}

section

variable (hs : Shape h l)

include hs

theorem Shape.first : Dlist.first l none = some h.arena.base := by
  have ht := hs.tiles
  cases l with
  | nil => exact absurd rfl hs.ne
  | cons c l =>
    rw [first_cons, ht.1]

theorem Shape.base_mem : h.arena.base ∈ keys l := by
  have hf := hs.first
  cases l with
  | nil => exact absurd rfl hs.ne
  | cons c l =>
    obtain ⟨x, v⟩ := c
    rw [first_cons, Option.some.injEq] at hf
    simp [hf]

theorem Shape.blocks : blocks h = keys l := by
  have hlen := hs.tiles.le
  unfold Kmalloc.blocks
  rw [hs.head, ← hs.first]
  apply hs.seg.walk
  simp only [hsz] at hlen
  omega

theorem Shape.cell (hx : x ∈ keys l) : ∃ pre v post, l = pre ++ (x, v) :: post := by
  obtain ⟨⟨y, v⟩, hmem, rfl⟩ := mem_map.1 hx
  obtain ⟨pre, post, rfl⟩ := append_of_mem hmem
  exact ⟨pre, v, post, rfl⟩

theorem Shape.next_mem (hb : b ∈ keys l) : (h.mem b).next.getD h.arena.base ∈ keys l := by
  obtain ⟨pre, v, post, rfl⟩ := hs.cell hb
  have hbase := hs.base_mem
  rw [hs.seg.node]
  cases post with
  | nil => exact hbase
  | cons c post =>
    obtain ⟨x, w⟩ := c
    simp

end

theorem Shape.node (hs : Shape h (pre ++ (b, v) :: post)) :
    h.mem b = ⟨v, Dlist.first post none, last none pre⟩ := hs.seg.node

theorem Shape.setArena (hs : Shape h l) {a : Arena} (hb : a.base = h.arena.base)
    (hz : a.size = h.arena.size) (hh : a.head = h.arena.head)
    (hr : ∃ x ∈ keys l, a.rover = some x) : Shape ⟨h.mem, a⟩ l := by
  refine ⟨hs.seg, ?_, ?_, hs.ne, hs.canary, hr⟩
  · simpa [hb, hz] using hs.tiles
  · simp [hh, hb, hs.head]

theorem Shape.mark (hs : Shape h (pre ++ (b, v) :: post)) (free : Bool) :
    Shape { h with mem := setVal h.mem b { v with free, mg := Kmalloc.canary free } }
      (pre ++ (b, { v with free, mg := Kmalloc.canary free }) :: post) := by
  refine ⟨hs.seg.setVal hs.tiles.nodup _, ?_, hs.head, by simp, ?_, ?_⟩
  · exact Tiles.replace [(b, v)] [(b, _)] hs.tiles fun _ _ ht => ht
  · intro c hc
    rcases mem_append.1 hc with hc | hc
    · exact hs.canary c (by simp [hc])
    rcases mem_cons.1 hc with rfl | hc
    · rfl
    · exact hs.canary c (by simp [hc])
  · simpa using hs.rover

theorem Shape.split (hs : Shape h (pre ++ (b, v) :: post)) (hn : n + hsz ≤ v.size) :
    Shape { h with mem := splitAt h.mem b n }
      (pre ++ (b, { v with size := n }) ::
        (b + hsz + n, ⟨v.size - n - hsz, true, mgFree⟩) :: post) := by
  obtain ⟨hpre, hpost⟩ := hs.tiles.around
  have hfresh : b + hsz + n ∉ keys (pre ++ (b, v) :: post) := by
    simp only [Dlist.keys_append, Dlist.keys_cons, mem_append, mem_cons, not_or]
    refine ⟨fun hmem => ?_, ?_, fun hmem => ?_⟩
    · have := hpre _ hmem
      simp only [hsz] at this
      omega
    · simp only [hsz]
      omega
    have := hpost _ hmem
    simp only [hsz] at this hn
    omega
  refine ⟨?_, ?_, hs.head, by simp, ?_, ?_⟩
  · simp only [splitAt, hs.node]
    exact hs.seg.insertAfter hs.tiles.nodup hfresh
  · refine Tiles.replace [(b, v)] [(b, _), (_, _)] hs.tiles ?_
    rintro lo hi ⟨rfl, rfl⟩
    refine ⟨rfl, rfl, ?_⟩
    simp only [Tiles, hsz] at *
    omega
  · intro c hc
    simp only [mem_append, mem_cons] at hc
    rcases hc with hc | rfl | rfl | hc
    · exact hs.canary c (by simp [hc])
    · exact hs.canary (b, v) (by simp)
    · rfl
    · exact hs.canary c (by simp [hc])
  obtain ⟨y, hy, hr⟩ := hs.rover
  refine ⟨y, ?_, hr⟩
  simp only [Dlist.keys_append, Dlist.keys_cons, mem_append, mem_cons] at hy ⊢
  tauto

theorem Shape.mergeNext (hs : Shape h (pre ++ (b, v) :: (x, w) :: post)) :
    Shape (mergeNext h b) (pre ++ (b, { v with size := v.size + (hsz + w.size) }) :: post) := by
  have hb := hs.node
  have hx : h.mem x = ⟨w, Dlist.first post none, some b⟩ :=
    (seg_append.1 hs.seg).2.2.1
  have hmerge : Kmalloc.mergeNext h b =
      { mem := dropNext h.mem b { v with size := v.size + (hsz + w.size) }
        arena := { h.arena with
          rover := if h.arena.rover = some x then some b else h.arena.rover } } := by
    simp [Kmalloc.mergeNext, hb, hx]
  rw [hmerge]
  refine ⟨hs.seg.dropNext hs.tiles.nodup, ?_, hs.head, by simp, ?_, ?_⟩
  · refine Tiles.replace [(b, v), (x, w)] [(b, _)] hs.tiles ?_
    rintro lo hi ⟨rfl, rfl, rfl⟩
    exact ⟨rfl, by simp only [Tiles]; omega⟩
  · intro c hc
    simp only [mem_append, mem_cons] at hc
    rcases hc with hc | rfl | hc
    · exact hs.canary c (by simp [hc])
    · exact hs.canary (b, v) (by simp)
    · exact hs.canary c (by simp [hc])
  obtain ⟨y, hy, hr⟩ := hs.rover
  by_cases hyx : h.arena.rover = some x
  · exact ⟨b, by simp, by simp [hyx]⟩
  refine ⟨y, ?_, (if_neg hyx).trans hr⟩
  have hne : y ≠ x := fun e => hyx (e ▸ hr)
  simp only [Dlist.keys_append, Dlist.keys_cons, mem_append, mem_cons] at hy ⊢
  tauto

end SamaraOS.Kmalloc
