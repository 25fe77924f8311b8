import SamaraOS.Fs.Ext2PutBlocks

/-!
# When `balloc` finds every free block (ext2.c)

Mount takes any number of blocks per group.  A full byte of the bitmap lets the scan pass over
eight blocks, and where the eight go into the next group the byte says nothing about the rest.
And where a group has more blocks than its bitmap has bits, two blocks share one, or it is not in
the bitmap at all.
-/

namespace SamaraOS.Ext2

variable {g : Geo} {v : Vol}

structure Right (g : Geo) (v : Vol) : Prop where
  /-- The bits that the scan looks at are in the bitmap, a block for each group. -/
  inside : ∀ b, g.firstData ≤ b → b < g.nblocks → bit g b < g.ngroups * (8 * g.bs)
  fresh : (balloc g v).2 ≠ 0 → DataBlock g (balloc g v).2 ∧ bbGet g v (balloc g v).2 = false ∧
    bbGet g (balloc g v).1 (balloc g v).2 = true
  others : ∀ b, DataBlock g b → b ≠ (balloc g v).2 → bbGet g (balloc g v).1 b = bbGet g v b
  full : (balloc g v).2 = 0 → ∀ b, DataBlock g b → bbGet g v b = true

/-- The byte of a block at a multiple of eight has the bits of the next seven data blocks. -/
def Covers (g : Geo) : Prop :=
  ∀ i, i % 8 = 0 → i + 8 ≤ span g → ∀ j < 8, DataBlock g (g.firstData + (i + j)) →
    bit g (g.firstData + (i + j)) / 8 = bit g (g.firstData + i) / 8

/-- No other block has the bit of a data block, and every bit is in the bitmap. -/
structure Apart (g : Geo) : Prop where
  own : ∀ b b', DataBlock g b → g.firstData ≤ b' → b' < g.nblocks → bit g b = bit g b' → b = b'
  inside : ∀ b, g.firstData ≤ b → b < g.nblocks → bit g b < g.ngroups * (8 * g.bs)

theorem Apart.bbSet_other (h : Apart g) {b d : Nat} (hb : DataBlock g b) (hne : b ≠ d) (on : Bool) :
    bbGet g (bbSet g v d on) b = bbGet g v b :=
  Ext2.bbSet_other on fun hd hd' heq => hne (h.own b d hb hd hd' heq)

theorem Apart.others (h : Apart g) (v : Vol) {b : Nat} (hb : DataBlock g b) :
    b ≠ (balloc g v).2 → bbGet g (balloc g v).1 b = bbGet g v b := by
  refine ballocFrom_rule (P := fun _ v r => b ≠ r.2 → bbGet g r.1 b = bbGet g v b)
    (fun _ _ _ _ => rfl) (fun _ _ _ _ _ _ _ h => h) (fun _ _ _ _ _ h => h) ?_ ?_ _ 0 v (by omega)
  · intro t v r _ hmeta ih hne
    rw [ih hne]
    refine h.bbSet_other hb (fun heq => ?_) true
    rw [← heq, hb.2.2] at hmeta
    cases hmeta
  · exact fun t v _ _ _ _ _ hne => h.bbSet_other hb hne true

theorem byteFull_get {b b' : Nat} (h : byteFull g v b = true) (hb : bit g b' / 8 = bit g b / 8) :
    bbGet g v b' = true := by
  have hk := List.all_eq_true.1 h (bit g b' % 8) (List.mem_range.2 (Nat.mod_lt _ (by decide)))
  rwa [← hb, Nat.mul_comm, Nat.div_add_mod] at hk

theorem place_bbSet (b t : Nat) : place g (bbSet g v b true) t = place g v t := by
  unfold bbSet
  split
  · rfl
  · split <;> rfl

/-- The rounds that the scan passes over find nothing else in use. -/
theorem ballocFrom_full (ha : Apart g) (hc : Covers g) (fuel t : Nat) (v : Vol) (h : span g ≤ t + fuel) :
    (ballocFrom g fuel t v).2 = 0 → ∀ t', t ≤ t' → t' < span g → DataBlock g (place g v t') →
      bbGet g v (place g v t') = true := by
  refine ballocFrom_rule (P := fun t v r => r.2 = 0 → ∀ t', t ≤ t' → t' < span g →
    DataBlock g (place g v t') → bbGet g v (place g v t') = true) ?_ ?_ ?_ ?_ ?_ fuel t v h
  · intro t v hle _ t' ht ht'
    omega
  · intro t v r hlt h8 hle hbyte ih hr t' ht ht' hdata
    by_cases hfar : t + 8 ≤ t'
    · exact ih hr t' hfar ht' hdata
    -- one of the eight
    obtain ⟨j, rfl⟩ := Nat.exists_eq_add_of_le ht
    have hj : place g v (t + j) = g.firstData + ((v.acur + t) % span g + j) := by
      rw [place, ← Nat.add_assoc, ← Nat.mod_add_mod, Nat.mod_eq_of_lt (by omega)]
    rw [hj] at hdata ⊢
    exact byteFull_get hbyte (hc _ h8 hle j (by omega) hdata)
  · intro t v r hlt hget ih hr t' ht ht' hdata
    rcases Nat.eq_or_lt_of_le ht with rfl | ht
    · exact hget
    · exact ih hr t' ht ht' hdata
  · intro t v r hlt hmeta ih hr t' ht ht' hdata
    have hne : place g v t' ≠ place g v t := by
      intro heq
      rw [← heq, hdata.2.2] at hmeta
      cases hmeta
    have hfar : t + 1 ≤ t' := Nat.lt_of_le_of_ne ht fun heq => hne (by rw [heq])
    have hset := ih hr t' hfar ht' (by rwa [place_bbSet])
    rwa [place_bbSet, ha.bbSet_other hdata hne] at hset
  intro t v acur bhash hlt _ hmeta hr
  unfold isMeta at hmeta
  rw [show place g v t = 0 from hr, if_pos (Nat.zero_le _)] at hmeta
  cases hmeta

theorem exists_place {b : Nat} (hlo : g.firstData ≤ b) (hhi : b < g.nblocks) :
    ∃ t < span g, place g v t = b := by
  have hi : b - g.firstData < span g := by
    unfold span
    omega
  have hpos : 0 < span g := by omega
  have ha := Nat.mod_lt v.acur hpos
  refine ⟨(b - g.firstData + (span g - v.acur % span g)) % span g, Nat.mod_lt _ hpos, ?_⟩
  rw [place, Nat.add_mod_mod, ← Nat.mod_add_mod,
    show v.acur % span g + (b - g.firstData + (span g - v.acur % span g)) =
      b - g.firstData + span g by omega, Nat.add_mod_right, Nat.mod_eq_of_lt hi]
  omega

/-- Nothing is found where every round from `t` on sees a block in use. -/
theorem ballocFrom_none (fuel t : Nat) (v : Vol) (h : span g ≤ t + fuel)
    (hused : ∀ t', t ≤ t' → t' < span g → bbGet g v (place g v t') = true) :
    (ballocFrom g fuel t v).2 = 0 := by
  refine ballocFrom_rule (P := fun t v r => (∀ t', t ≤ t' → t' < span g →
    bbGet g v (place g v t') = true) → r.2 = 0) ?_ ?_ ?_ ?_ ?_ fuel t v h hused
  · exact fun _ _ _ _ => rfl
  · exact fun t v r _ _ _ _ ih hall => ih fun t' ht => hall t' (by omega)
  · exact fun t v r _ _ ih hall => ih fun t' ht => hall t' (by omega)
  · intro t v r hlt _ ih hall
    refine ih fun t' ht ht' => ?_
    rw [place_bbSet]
    exact bbSet_grows _ _ (hall t' (by omega) ht')
  intro t v acur bhash hlt hget _ hall
  rw [hall t (Nat.le_refl t) hlt] at hget
  cases hget

/-- All blocks but `b` are in use, and the scan starts at `i`. -/
def allBut (g : Geo) (b i : Nat) : Vol := { bbm := fun k => k ≠ bit g b, acur := i }

theorem allBut_get {b b' i : Nat} :
    bbGet g (allBut g b i) b' = true ↔ bit g b' ≠ bit g b := by
  simp [bbGet, allBut]

/-- A data block alone has its bit where `balloc` is right: a scan that starts at another one would
take that, or mark it as metadata. -/
theorem bit_own {b b' : Nat} (h : ∀ v, Right g v) (hb : DataBlock g b) (hlo : g.firstData ≤ b')
    (hhi : b' < g.nblocks) (hbit : bit g b = bit g b') : b = b' := by
  by_contra hne
  generalize hv : allBut g b (b' - g.firstData) = v
  have hfree : ∀ d, bit g b = bit g d → bbGet g v d = false := by
    intro d hd
    rw [← Bool.not_eq_true, ← hv, allBut_get, not_not]
    exact hd.symm
  have hfree' := hfree b' hbit
  have hspan : b' - g.firstData < span g := by
    unfold span
    omega
  have hcur : (v.acur + 0) % span g = b' - g.firstData := by
    rw [← hv]
    exact Nat.mod_eq_of_lt hspan
  have hplace : g.firstData + (b' - g.firstData) = b' := by omega
  have hbyte : byteFull g v b' ≠ true := by
    intro hfull
    rw [byteFull_get hfull rfl] at hfree'
    cases hfree'
  obtain ⟨n, hn⟩ : ∃ n, span g = n + 1 := ⟨span g - 1, by omega⟩
  have hr := h v
  have hscan : balloc g v = ballocFrom g (n + 1) 0 v := by rw [balloc, hn]
  rw [ballocFrom, if_neg (by omega)] at hscan
  simp only [hcur, hplace, hbyte, hfree', and_false, if_false, Bool.false_eq_true] at hscan
  split at hscan
  · -- now every bit is set
    have hnone : (balloc g v).2 = 0 := by
      rw [hscan]
      refine ballocFrom_none n (0 + 1) _ (by omega) fun t _ ht => ?_
      generalize place g (bbSet g v b' true) t = d
      by_cases hd : bit g d = bit g b'
      · rw [bbGet, hd]
        exact bbSet_self hlo hhi
      rw [bbSet_other true fun _ _ => hd, ← hv, allBut_get, hbit]
      exact hd
    have hused := hr.full hnone b hb
    rw [hfree b rfl] at hused
    cases hused
  have hsame := hr.others b hb (by rw [hscan]; exact hne)
  have hset : bbGet g (balloc g v).1 b = true := by
    rw [hscan, bbGet, hbit]
    exact bbSet_self hlo hhi
  rw [hset, hfree b rfl] at hsame
  cases hsame

theorem allBut_none {i j : Nat} (ha : Apart g) (h8 : i % 8 = 0) (hle : i + 8 ≤ span g) (hj : j < 8)
    (hdata : DataBlock g (g.firstData + (i + j)))
    (hbit : bit g (g.firstData + (i + j)) / 8 ≠ bit g (g.firstData + i) / 8) :
    (balloc g (allBut g (g.firstData + (i + j)) i)).2 = 0 := by
  generalize hv : allBut g (g.firstData + (i + j)) i = v
  have hcur : (v.acur + 0) % span g = i := by
    rw [← hv]
    exact Nat.mod_eq_of_lt (show i + 0 < span g by omega)
  have hbyte : byteFull g v (g.firstData + i) = true := by
    rw [byteFull, List.all_eq_true, ← hv]
    intro k hk
    have hk := List.mem_range.1 hk
    exact decide_eq_true fun heq => hbit (by rw [← heq]; omega)
  obtain ⟨n, hn⟩ : ∃ n, span g = n + 1 := ⟨span g - 1, by omega⟩
  rw [balloc, hn, ballocFrom, if_neg (by omega)]
  rw [hcur, if_pos ⟨h8, hle, hbyte⟩]
  refine ballocFrom_none n (0 + 8) v (by omega) fun t ht ht' => ?_
  have hlt := place_lt (v := v) ht'
  rw [← hv] at hlt ⊢
  refine allBut_get.2 fun heq => ?_
  have hplace := ha.own _ _ hdata (Nat.le_add_right _ _) hlt heq.symm
  -- round `t` is at `i + j` for `t = j` only
  have hmod : i + j = (i + t) % span g := Nat.add_left_cancel hplace
  rcases Nat.lt_or_ge (i + t) (span g) with hlt | hge
  · rw [Nat.mod_eq_of_lt hlt] at hmod
    omega
  rw [Nat.mod_eq_sub_mod hge, Nat.mod_eq_of_lt (by omega)] at hmod
  omega

/-- `balloc` is right for every bitmap and cursor just if the bits of the data blocks are their own
and no byte speaks for blocks that it has no bits of. -/
theorem balloc_right_iff (g : Geo) : (∀ v, Right g v) ↔ Apart g ∧ Covers g := by
  constructor
  · intro h
    have ha : Apart g :=
      ⟨fun b b' hb hlo hhi => bit_own h hb hlo hhi, (h (allBut g 0 0)).inside⟩
    refine ⟨ha, fun i h8 hle j hj hdata => ?_⟩
    by_contra hbit
    have hused := (h _).full (allBut_none ha h8 hle hj hdata hbit) _ hdata
    simp [bbGet, allBut] at hused
  rintro ⟨ha, hc⟩ v
  have hgiven := balloc_given g v
  refine ⟨ha.inside, fun h0 => ?_, fun b hb => ha.others v hb, fun h0 b hb => ?_⟩
  · obtain ⟨hset, hdata⟩ := hgiven.fresh h0
    exact ⟨hdata, hgiven.free h0, hset⟩
  obtain ⟨t, ht, rfl⟩ := exists_place (v := v) hb.1 hb.2.1
  exact ballocFrom_full ha hc _ 0 v (by omega) h0 t (Nat.zero_le t) ht hb

/-- Three groups of twelve blocks. -/
def twelves : Geo where
  bs := 1024
  firstData := 1
  nblocks := 37
  bpg := 12
  ngroups := 3
  gdtBlocks := 1
  itb := 1
  sparse := true
  mgdt n := (9 + 12 * n, 10 + 12 * n, 11 + 12 * n)
  bpg_pos := by decide

theorem twelves_apart : Apart twelves where
  own _ _ hb hlo _ := bit_inj (by unfold Geo.Fits; decide) hb.1 hlo
  inside b _ hhi := by
    have hb : b < 37 := hhi
    change (b - 1) / 12 * (8 * 1024) + (b - 1) % 12 < 3 * (8 * 1024)
    omega

/-- Two groups of more blocks than a bitmap block has bits. -/
def shared : Geo where
  bs := 1024
  firstData := 1
  nblocks := 16401
  bpg := 8200
  ngroups := 2
  gdtBlocks := 1
  itb := 1
  sparse := true
  mgdt n := (3 + 8200 * n, 4 + 8200 * n, 5 + 8200 * n)
  bpg_pos := by decide

/-- Block 15 is free and not metadata, and there is no block to be had.  And the data blocks 8199 and
8207 of two groups have one bit. -/
theorem balloc_misses :
    (DataBlock twelves 15 ∧ bbGet twelves (allBut twelves 15 8) 15 = false ∧
      (balloc twelves (allBut twelves 15 8)).2 = 0) ∧
    DataBlock shared 8199 ∧ DataBlock shared 8207 ∧ bit shared 8199 = bit shared 8207 := by
  have hdata : DataBlock twelves 15 := ⟨by decide, by decide, by decide⟩
  refine ⟨⟨hdata, by decide, ?_⟩, ⟨by decide, by decide, by decide⟩,
    ⟨by decide, by decide, by decide⟩, by decide⟩
  exact allBut_none (g := twelves) (i := 8) (j := 6) twelves_apart rfl (by decide) (by decide) hdata
    (by decide)

end SamaraOS.Ext2
