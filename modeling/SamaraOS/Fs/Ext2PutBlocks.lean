import SamaraOS.Fs.Ext2Blocks

/-!
# What `put_blocks` does to the bitmap and the list

Bits are set by the allocator and cleared for the blocks that a shorter list has no room for.
-/

namespace SamaraOS.Ext2

open List

variable {g : Geo} {v v' : Vol} {e : Ent}

theorem bit_inj (hfits : g.Fits) {b b' : Nat} (hb : g.firstData ≤ b) (hb' : g.firstData ≤ b')
    (h : bit g b = bit g b') : b = b' := by
  have hpos : 0 < 8 * g.bs := Nat.lt_of_lt_of_le g.bpg_pos hfits
  have hlt : ∀ i, i % g.bpg < 8 * g.bs := fun i =>
    Nat.lt_of_lt_of_le (Nat.mod_lt i g.bpg_pos) hfits
  simp only [bit] at h
  have hmod := congrArg (· % (8 * g.bs)) h
  have hdiv := congrArg (· / (8 * g.bs)) h
  simp only [Nat.mul_comm _ (8 * g.bs), Nat.mul_add_mod,
    Nat.mod_eq_of_lt (hlt _)] at hmod
  simp only [Nat.mul_comm _ (8 * g.bs), Nat.mul_add_div hpos, Nat.div_eq_of_lt (hlt _),
    Nat.add_zero] at hdiv
  have hi : b - g.firstData = b' - g.firstData := by
    rw [← Nat.div_add_mod (b - g.firstData) g.bpg, hdiv, hmod, Nat.div_add_mod]
  omega

def Grows (v v' : Vol) : Prop := ∀ k, v.bbm k = true → v'.bbm k = true

theorem Grows.of_eq (h : v'.bbm = v.bbm) : Grows v v' := fun _ hk => h ▸ hk

theorem Grows.trans {v'' : Vol} (h : Grows v v') (h' : Grows v' v'') : Grows v v'' :=
  fun k hk => h' k (h k hk)

theorem bbSet_grows (b : Nat) : Grows v (bbSet g v b true) := by
  intro k hk
  unfold bbSet
  split
  · exact hk
  split
  · exact hk
  simp only [Function.update_apply]
  split
  · rfl
  · exact hk

theorem bbSet_other {b d : Nat} (on : Bool)
    (h : g.firstData ≤ d → d < g.nblocks → bit g b ≠ bit g d) :
    bbGet g (bbSet g v d on) b = bbGet g v b := by
  unfold bbSet
  split
  · rfl
  next hrange =>
  split
  · rfl
  exact Function.update_of_ne (h (by omega) (by omega)) _ _

theorem bbSet_ne (hfits : g.Fits) {b d : Nat} (hb : g.firstData ≤ b) (hne : b ≠ d) (on : Bool) :
    bbGet g (bbSet g v d on) b = bbGet g v b :=
  bbSet_other on fun hd _ h => hne (bit_inj hfits hb hd h)

theorem bbSet_self {b : Nat} (hb : g.firstData ≤ b) (hlt : b < g.nblocks) :
    bbGet g (bbSet g v b true) b = true := by
  unfold bbSet
  rw [if_neg (by omega), if_neg (by simp)]
  exact Function.update_self ..

def DataBlock (g : Geo) (b : Nat) : Prop :=
  g.firstData ≤ b ∧ b < g.nblocks ∧ isMeta g b = false

/-- The block that `balloc` looks at in round `t`. -/
def place (g : Geo) (v : Vol) (t : Nat) : Nat := g.firstData + (v.acur + t) % span g

theorem place_lt {t : Nat} (h : t < span g) : place g v t < g.nblocks := by
  have hlt : (v.acur + t) % span g < span g := Nat.mod_lt _ (by omega)
  unfold place
  unfold span at hlt ⊢
  omega

/-- What the rounds keep holds of the result: full bytes and blocks in use are passed over, free
metadata blocks are marked, and the first other one is taken. -/
theorem ballocFrom_rule {P : Nat → Vol → Vol × Nat → Prop}
    (done : ∀ t v, span g ≤ t → P t v (v, 0))
    (full : ∀ t v r, t < span g → (v.acur + t) % span g % 8 = 0 →
      (v.acur + t) % span g + 8 ≤ span g → byteFull g v (place g v t) = true →
      P (t + 8) v r → P t v r)
    (used : ∀ t v r, t < span g → bbGet g v (place g v t) = true → P (t + 1) v r → P t v r)
    (barred : ∀ t v r, t < span g → isMeta g (place g v t) = true →
      P (t + 1) (bbSet g v (place g v t) true) r → P t v r)
    (found : ∀ t v acur bhash, t < span g → bbGet g v (place g v t) = false →
      isMeta g (place g v t) = false →
      P t v ({ bbSet g v (place g v t) true with acur := acur, bhash := bhash }, place g v t))
    (fuel t : Nat) (v : Vol) (h : span g ≤ t + fuel) : P t v (ballocFrom g fuel t v) := by
  induction fuel generalizing t v with
  | zero => exact done t v h
  | succ fuel ih =>
    rw [ballocFrom]
    split
    next hspan => exact done t v hspan
    next hspan =>
    have hlt : t < span g := by omega
    simp only
    split
    next hbyte => exact full t v _ hlt hbyte.1 hbyte.2.1 hbyte.2.2 (ih (t + 8) v (by omega))
    split
    next hget => exact used t v _ hlt hget (ih (t + 1) v (by omega))
    next hget =>
    split
    next hmeta => exact barred t v _ hlt hmeta (ih (t + 1) _ (by omega))
    next hmeta =>
    rw [Bool.not_eq_true] at hget hmeta
    exact found t v _ _ hlt hget hmeta

structure Given (g : Geo) (v : Vol) (r : Vol × Nat) : Prop where
  grows : Grows v r.1
  free : r.2 ≠ 0 → bbGet g v r.2 = false
  fresh : r.2 ≠ 0 → bbGet g r.1 r.2 = true ∧ DataBlock g r.2

theorem balloc_given (g : Geo) (v : Vol) : Given g v (balloc g v) := by
  refine ballocFrom_rule (P := fun _ v r => Given g v r) ?_ (fun _ _ _ _ _ _ _ h => h)
    (fun _ _ _ _ _ h => h) ?_ ?_ _ 0 v (by omega)
  · exact fun _ _ _ => ⟨.of_eq rfl, fun h => absurd rfl h, fun h => absurd rfl h⟩
  · rintro t v r - - ⟨hgrow, hfree, hfresh⟩
    refine ⟨(bbSet_grows _).trans hgrow, fun hr => ?_, hfresh⟩
    have hun := hfree hr
    contrapose! hun
    simp only [ne_eq, Bool.not_eq_false] at hun ⊢
    exact bbSet_grows _ _ hun
  intro t v acur bhash hlt hget hmeta
  refine ⟨bbSet_grows _, fun _ => hget, fun _ => ⟨bbSet_self ?_ (place_lt hlt), ?_⟩⟩
  · exact Nat.le_add_right _ _
  · exact ⟨Nat.le_add_right _ _, place_lt hlt, hmeta⟩

theorem wblk_bbm (b : Nat) (buf : List UInt8) : (wblk v b buf).1.bbm = v.bbm := by
  unfold wblk ataWrite
  simp only
  split
  · rfl
  · split <;> rfl

theorem wdata_bbm (b : Nat) (buf : List UInt8) : (wdata g v b buf).1.bbm = v.bbm := by
  unfold wdata
  split
  · rfl
  · exact wblk_bbm b buf

theorem wdataAll_bbm (ws : List (Nat × List UInt8)) : (wdataAll g ws v).1.bbm = v.bbm := by
  induction ws generalizing v with
  | nil => rfl
  | cons w ws ih =>
    rw [wdataAll]
    split
    · exact ih.trans (wdata_bbm _ _)
    · exact wdata_bbm _ _

theorem writeBlocks_spec (data : List UInt8) (len : Nat) :
    (writeBlocks g v e data len).1.bbm = v.bbm ∧ (writeBlocks g v e data len).2.1.bl = e.bl := by
  unfold writeBlocks
  simp only
  split
  · exact ⟨wdataAll_bbm _, rfl⟩
  split
  · exact ⟨wdataAll_bbm _, rfl⟩
  split
  · exact ⟨(wdata_bbm _ _).trans (wdataAll_bbm _), rfl⟩
  split
  · exact ⟨(wdata_bbm _ _).trans (wdataAll_bbm _), rfl⟩
  · exact ⟨((wdataAll_bbm _).trans (wdata_bbm _ _)).trans (wdataAll_bbm _), rfl⟩

def nonzero (bl : List Nat) : List Nat := bl.filter (· ≠ 0)

theorem mem_nonzero {bl : List Nat} {b : Nat} : b ∈ nonzero bl ↔ b ∈ bl ∧ b ≠ 0 := by
  simp [nonzero]

theorem relist_spec (hfits : g.Fits) (n : Nat) (bl nl : List Nat) (hnl : nl.length ≤ n) :
    (relist g n bl nl v).2 = (nl ++ nonzero bl).take n ++
        replicate (n - (nl ++ nonzero bl).length) 0 ∧
      ∀ b, g.firstData ≤ b → b ∉ (nl ++ nonzero bl).drop n →
        bbGet g (relist g n bl nl v).1 b = bbGet g v b := by
  induction bl generalizing nl v with
  | nil => simp [relist, nonzero, take_of_length_le hnl]
  | cons d bl ih =>
    rw [relist]
    split
    next hd =>
      have hnz : nonzero (d :: bl) = nonzero bl := by simp [nonzero, hd]
      rw [hnz]
      exact ih nl hnl
    next hd =>
    have hnz : nonzero (d :: bl) = d :: nonzero bl := by simp [nonzero, hd]
    rw [hnz]
    split
    next hlt =>
      rw [append_cons nl d (nonzero bl)]
      exact ih (nl ++ [d]) (by simp; omega)
    next hge =>
    have hlen : nl.length = n := by omega
    subst hlen
    obtain ⟨hlist, hbits⟩ := ih (v := bbSet g v d false) nl hnl
    simp only [take_left, drop_left, length_append] at hlist hbits ⊢
    refine ⟨?_, fun b hb hmem => ?_⟩
    · rw [hlist]
      simp
    rw [hbits b hb fun h => hmem (mem_cons_of_mem _ h)]
    exact bbSet_ne hfits hb (fun h => hmem (h ▸ mem_cons_self)) false

theorem fillHoles_spec (bl : List Nat) :
    Grows v (fillHoles g bl v).1 ∧ (fillHoles g bl v).2.1.length = bl.length ∧
      ∀ b ∈ bl, b ≠ 0 → b ∈ (fillHoles g bl v).2.1 := by
  induction bl generalizing v with
  | nil => exact ⟨.of_eq rfl, rfl, by simp⟩
  | cons d bl ih =>
    rw [fillHoles]
    simp only
    split
    · obtain ⟨hgrow, hlen, hmem⟩ := ih (v := v)
      refine ⟨hgrow, by simp [hlen], fun b hb h0 => ?_⟩
      rcases mem_cons.1 hb with rfl | hb
      · exact mem_cons_self
      · exact mem_cons_of_mem _ (hmem b hb h0)
    next hd =>
    have hcons : ∀ (l : List Nat) (x b : Nat), b ∈ d :: bl → b ≠ 0 →
        (b ∈ bl → b ∈ l) → b ∈ x :: l := by
      intro l x b hb h0 hl
      rcases mem_cons.1 hb with rfl | hb
      · exact absurd (not_not.1 hd) h0
      · exact mem_cons_of_mem _ (hl hb)
    have hball : Grows v (balloc g v).1 := (balloc_given g v).grows
    split
    · exact ⟨hball, rfl, fun b hb h0 => hcons _ _ b hb h0 id⟩
    obtain ⟨hgrow, hlen, hmem⟩ := ih (v := (balloc g v).1)
    exact ⟨hball.trans hgrow, by simp [hlen], fun b hb h0 =>
      hcons _ _ b hb h0 fun h => hmem b h h0⟩

theorem ofList_bl (nb : Nat) (bl ib : List Nat) : (Ent.ofList nb bl ib).bl = bl :=
  take_append_drop nb bl

theorem go_spec (data : List UInt8) (len : Nat) : Grows v (putBlocks.go g data len e v).1 ∧
      (putBlocks.go g data len e v).2.1.bl = (fillHoles g e.bl v).2.1 := by
  unfold putBlocks.go
  simp only
  split
  · exact ⟨(fillHoles_spec e.bl).1, ofList_bl _ _ _⟩
  obtain ⟨hbbm, hbl⟩ := writeBlocks_spec (g := g) (v := (fillHoles g e.bl v).1)
    (e := Ent.ofList e.data.length (fillHoles g e.bl v).2.1 e.ib) data len
  exact ⟨(fillHoles_spec e.bl).1.trans (.of_eq hbbm), hbl.trans (ofList_bl _ _ _)⟩

def smallGeo : Geo where
  bs := 1024
  firstData := 1
  nblocks := 64
  bpg := 8192
  ngroups := 1
  gdtBlocks := 1
  itb := 2
  sparse := true
  mgdt := fun _ => (3, 4, 5)
  bpg_pos := by decide

def smallVol : Vol where
  bbm := fun k => k < 11
  io := [true]

def smallEnt : Ent := ⟨[10, 11], [], [10, 11]⟩

end SamaraOS.Ext2
