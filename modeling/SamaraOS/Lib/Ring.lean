import Mathlib

/-!
# Byte rings that carry a stream

A ring is a buffer of `cap` cells read and written in at most two pieces.  When
it carries a stream, the element at stream position `q` lives in the cell
`(anchor + q) % cap` for an anchor that does not move: taking elements out at
one end and putting them in at the other leaves it alone.  `Holds` says which
stretch of the stream is in its cells.
-/

namespace SamaraOS.Ring

open List

variable {α : Type*}

def blit (buf : Nat → α) (pos : Nat) (data : List α) : Nat → α :=
  fun i => if pos ≤ i then data.getD (i - pos) (buf i) else buf i

def slice (buf : Nat → α) (pos n : Nat) : List α :=
  (List.range n).map fun i => buf (pos + i)

def write (buf : Nat → α) (cap pos : Nat) (data : List α) : Nat → α :=
  let n1 := min (cap - pos) data.length
  blit (blit buf pos (data.take n1)) 0 (data.drop n1)

def read (buf : Nat → α) (cap pos n : Nat) : List α :=
  let n1 := min (cap - pos) n
  slice buf pos n1 ++ slice buf 0 (n - n1)

def unroll [Inhabited α] (buf : Nat → α) (cap pos n : Nat) : Nat → α :=
  fun i => if i < n then buf ((pos + i) % cap) else default

@[simp] theorem length_slice (buf : Nat → α) (pos n : Nat) : (slice buf pos n).length = n := by
  simp [slice]

@[simp] theorem length_read (buf : Nat → α) (cap pos n : Nat) :
    (read buf cap pos n).length = n := by
  simp only [read, length_append, length_slice]
  omega

variable {anchor cap i j lo n pos q₀ : Nat} {data stream : List α} {buf : Nat → α}

section

variable (buf : Nat → α)

theorem getElem?_read (hpos : pos < cap) (hn : n ≤ cap) (hi : i < n) :
    (read buf cap pos n)[i]? = some (buf ((pos + i) % cap)) := by
  simp only [read, slice]
  by_cases h : i < min (cap - pos) n
  · rw [getElem?_append_left (by simpa using h)]
    have hmod : (pos + i) % cap = pos + i := Nat.mod_eq_of_lt (by omega)
    simp [hmod, h]
  rw [getElem?_append_right (by simpa using Nat.not_lt.1 h)]
  have hmod : (pos + i) % cap = pos + i - cap := by
    rw [Nat.mod_eq_sub_mod (by omega), Nat.mod_eq_of_lt (by omega)]
  have hlt : i - min (cap - pos) n < n - min (cap - pos) n := by omega
  have hidx : i - min (cap - pos) n = pos + i - cap := by omega
  rw [length_map, length_range, getElem?_map, getElem?_range hlt, hmod, hidx]
  simp

theorem write_apply (data : List α) (hpos : pos < cap) (hlen : data.length ≤ cap) (hj : j < cap) :
    write buf cap pos data ((pos + j) % cap) = data.getD j (buf ((pos + j) % cap)) := by
  simp only [write, blit, Nat.zero_le, if_true, Nat.sub_zero]
  by_cases hwrap : pos + j < cap
  · rw [Nat.mod_eq_of_lt hwrap]
    simp only [Nat.le_add_right, if_true, Nat.add_sub_cancel_left,
      getD_eq_getElem?_getD, getElem?_drop, getElem?_take]
    by_cases hdata : j < data.length
    · have h1 : data.length ≤ min (cap - pos) data.length + (pos + j) ∨
          min (cap - pos) data.length + (pos + j) < data.length := by omega
      rcases h1 with h1 | h1
      · rw [getElem?_eq_none h1, if_pos (by omega)]
        simp
      · omega
    rw [getElem?_eq_none (by omega), if_neg (by omega),
      getElem?_eq_none (by omega : data.length ≤ j)]
    simp
  have hmod : (pos + j) % cap = pos + j - cap := by
    rw [Nat.mod_eq_sub_mod (by omega), Nat.mod_eq_of_lt (by omega)]
  rw [hmod]
  simp only [getD_eq_getElem?_getD, getElem?_drop, getElem?_take]
  rw [if_neg (show ¬ pos ≤ pos + j - cap by omega)]
  by_cases hdata : cap - pos ≤ data.length
  · rw [show min (cap - pos) data.length + (pos + j - cap) = j by omega]
  rw [getElem?_eq_none (by omega), getElem?_eq_none (show data.length ≤ j by omega)]

theorem read_add {m : Nat} (hpos : pos < cap) (hlen : n + m ≤ cap) :
    read buf cap pos (n + m) = read buf cap pos n ++ read buf cap ((pos + n) % cap) m := by
  have hmod : (pos + n) % cap < cap := Nat.mod_lt _ (by omega)
  apply ext_getElem?
  intro i
  by_cases hn : i < n
  · rw [getElem?_append_left (by simpa using hn), getElem?_read buf hpos hlen (by omega),
      getElem?_read buf hpos (by omega) hn]
  rw [getElem?_append_right (by simpa using hn), length_read]
  by_cases hm : i < n + m
  · rw [getElem?_read buf hpos hlen hm, getElem?_read buf hmod (by omega) (by omega),
      Nat.mod_add_mod, show pos + n + (i - n) = pos + i by omega]
  · rw [getElem?_eq_none (by simp; omega), getElem?_eq_none (by simp; omega)]

theorem read_write (hpos : pos < cap) (hlen : n + data.length ≤ cap) : read
    (write buf cap ((pos + n) % cap) data) cap pos (n + data.length) = read buf cap pos n ++ data :=
    by
  have hmod : (pos + n) % cap < cap := Nat.mod_lt _ (by omega)
  apply ext_getElem?
  intro i
  by_cases hi : i < n + data.length
  swap
  · rw [getElem?_eq_none (by simp; omega), getElem?_eq_none (by simp; omega)]
  rw [getElem?_read _ hpos hlen hi]
  by_cases hn : i < n
  · have hcell : (pos + i) % cap = ((pos + n) % cap + (i + cap - n)) % cap := by
      rw [Nat.mod_add_mod, show pos + n + (i + cap - n) = pos + i + cap by omega,
        Nat.add_mod_right]
    rw [getElem?_append_left (by simpa using hn), getElem?_read buf hpos (by omega) hn,
      hcell, write_apply buf data hmod (by omega) (by omega), getD_eq_default _ _ (by omega)]
  have hcell : (pos + i) % cap = ((pos + n) % cap + (i - n)) % cap := by
    rw [Nat.mod_add_mod, show pos + n + (i - n) = pos + i by omega]
  rw [getElem?_append_right (by simpa using hn), length_read, hcell,
    write_apply buf data hmod (by omega) (by omega),
    getD_eq_getElem _ _ (by omega : i - n < data.length), getElem?_eq_getElem]

theorem read_eq_slice (h : pos + n ≤ cap) : read buf cap pos n = slice buf pos n := by
  rw [read, Nat.min_eq_right (by omega), Nat.sub_self]
  exact append_nil _

theorem write_eq_blit (h : pos + data.length ≤ cap) :
    write buf cap pos data = blit buf pos data := by
  rw [write, Nat.min_eq_right (by omega), take_length, drop_length]
  funext i
  simp [blit]

end

/-! ## The stretch of a stream a ring holds -/

def Holds (buf : Nat → α) (cap anchor : Nat) (stream : List α) (i j : Nat) : Prop :=
  ∀ q, i ≤ q → q < j → stream[q]? = some (buf ((anchor + q) % cap))

section

variable (h : Holds buf cap anchor stream i j)

include h

theorem Holds.mono {i' j' : Nat} (hi : i ≤ i') (hj : j' ≤ j) : Holds buf cap anchor stream i' j' :=
  fun q hq hq' => h q (hi.trans hq) (hq'.trans_le hj)

omit h in
theorem Holds.append {j' k : Nat} (h₁ : Holds buf cap anchor stream i j)
    (h₂ : Holds buf cap anchor stream j' k) (hj : j' ≤ j) : Holds buf cap anchor stream i k := by
  intro q hq hq'
  by_cases h : q < j
  · exact h₁ q hq h
  · exact h₂ q (by omega) hq'

theorem Holds.length_le (hij : i < j) : j ≤ stream.length := by
  have hlast := h (j - 1) (by omega) (by omega)
  have := (List.getElem?_eq_some_iff.1 hlast).1
  omega

theorem Holds.extend {stream' : List α}
    (hpre : stream <+: stream') : Holds buf cap anchor stream' i j := by
  intro q hq hq'
  obtain ⟨rest, rfl⟩ := hpre
  have hs := h q hq hq'
  rw [getElem?_append_left (List.getElem?_eq_some_iff.1 hs).1]
  exact hs

omit h in
theorem Holds.empty (buf : Nat → α) (cap anchor : Nat) (stream : List α)
    (h : j ≤ i) : Holds buf cap anchor stream i j :=
  fun q hq hq' => by omega

theorem Holds.read_eq (hcap : 0 < cap) (hn : n ≤ cap)
    (hij : i + n ≤ j) : read buf cap ((anchor + i) % cap) n = (stream.drop i).take n := by
  apply ext_getElem?
  intro k
  by_cases hk : k < n
  · rw [getElem?_read buf (Nat.mod_lt _ hcap) hn hk, getElem?_take,
      if_pos hk, getElem?_drop, h (i + k) (by omega) (by omega),
      Nat.mod_add_mod, Nat.add_assoc]
  rw [getElem?_eq_none (by simpa using hk), getElem?_eq_none]
  simp
  omega

omit h in
theorem write_at {q : Nat} (hcap : 0 < cap) (hlo : lo ≤ q₀) (hhi : q₀ + data.length ≤ lo + cap)
    (hq : lo ≤ q) (hq' : q < lo + cap) :
    write buf cap ((anchor + q₀) % cap) data ((anchor + q) % cap) =
      if q₀ ≤ q then data.getD (q - q₀) (buf ((anchor + q) % cap))
      else buf ((anchor + q) % cap) := by
  split
  · next hge =>
      have hcell : (anchor + q) % cap =
          ((anchor + q₀) % cap + (q - q₀)) % cap := by
        rw [Nat.mod_add_mod]
        congr 1
        omega
      rw [hcell]
      exact write_apply buf data (Nat.mod_lt _ hcap) (by omega) (by omega)
  next hlt =>
  have hcell : (anchor + q) % cap =
      ((anchor + q₀) % cap + (q + cap - q₀)) % cap := by
    rw [Nat.mod_add_mod, show anchor + q₀ + (q + cap - q₀) =
      anchor + q + cap by omega, Nat.add_mod_right]
  rw [hcell, write_apply buf data (Nat.mod_lt _ hcap) (by omega) (by omega),
    getD_eq_default _ _ (by omega)]

theorem Holds.write (hcap : 0 < cap) (hdata : data <+: stream.drop q₀) (hlo : lo ≤ q₀)
    (hhi : q₀ + data.length ≤ lo + cap) (hi : lo ≤ i) (hj : j ≤ lo + cap) :
    Holds (write buf cap ((anchor + q₀) % cap) data) cap anchor stream i j := by
  intro q hq hq'
  rw [write_at hcap hlo hhi (by omega) (by omega)]
  split
  · next hge =>
      by_cases hin : q - q₀ < data.length
      · rw [getD_eq_getElem _ _ hin]
        have hget := hdata.getElem hin
        rw [getElem_drop] at hget
        have hlen : q₀ + (q - q₀) < stream.length := by
          have := hdata.length_le
          simp at this
          omega
        rw [hget, ← getElem?_eq_getElem]
        congr 1
        omega
      rw [getD_eq_default _ _ (by omega)]
      exact h q hq hq'
  · exact h q hq hq'

end

theorem holds_write (hcap : 0 < cap) (hdata : data <+: stream.drop q₀)
    (hlo : lo ≤ q₀) (hhi : q₀ + data.length ≤ lo + cap) :
    Holds (write buf cap ((anchor + q₀) % cap) data) cap anchor stream q₀ (q₀ + data.length) := by
  intro q hq hq'
  rw [write_at hcap hlo hhi (by omega) (by omega), if_pos hq]
  have hin : q - q₀ < data.length := by omega
  rw [getD_eq_getElem _ _ hin, hdata.getElem hin, getElem_drop, ← getElem?_eq_getElem]
  congr 1
  omega

theorem Holds.unroll [Inhabited α] {cap' : Nat}
    (h : Holds buf cap anchor stream i (i + n)) (hn : n ≤ cap') (hcap : 0 < cap') :
    ∃ anchor', (anchor' + i) % cap' = 0 ∧
      Holds (unroll buf cap ((anchor + i) % cap) n) cap' anchor' stream i (i + n) := by
  have hle : i ≤ cap' * i := Nat.le_mul_of_pos_left i hcap
  refine ⟨cap' * i - i, ?_, fun q hq hq' => ?_⟩
  · rw [Nat.sub_add_cancel hle]
    exact Nat.mul_mod_right cap' i
  obtain ⟨k, rfl⟩ := Nat.exists_eq_add_of_le hq
  have hpos : (cap' * i - i + (i + k)) % cap' = k := by
    rw [← Nat.add_assoc, Nat.sub_add_cancel hle, Nat.mul_add_mod]
    exact Nat.mod_eq_of_lt (by omega)
  rw [hpos, h (i + k) hq hq', Ring.unroll, if_pos (by omega), Nat.mod_add_mod, Nat.add_assoc]

end SamaraOS.Ring
