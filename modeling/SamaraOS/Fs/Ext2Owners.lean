import SamaraOS.Fs.Ext2PutBlocks
import SamaraOS.Fs.Ext2Table

/-!
# Who owns what on an ext2 volume

No block is in two entries or twice in one, no inode in two entries, and what an entry has
is marked in the bitmaps and outside the metadata.  The allocators hand out what is not
marked, so write-back keeps this for every tree and whichever writes fail.  Mount does not: an
inode with an entry by `orphan` gets another one when a later name of it is taken over.
-/

namespace SamaraOS.Ext2

open Function List

/-! ## Allocated blocks -/

section

variable {g : Geo} {v : Vol} {e : Ent}

structure Taken (g : Geo) (v v' : Vol) (bl bl' : List Nat) : Prop where
  nodup : (nonzero bl').Nodup
  used : ∀ b ∈ nonzero bl', bbGet g v' b = true
  source : ∀ b ∈ nonzero bl', b ∈ nonzero bl ∨ bbGet g v b = false ∧ DataBlock g b
  /-- The blocks of others stay marked. -/
  others : ∀ b, g.firstData ≤ b → b ∉ nonzero bl → bbGet g v b = true → bbGet g v' b = true

section

variable (data : List UInt8) (len : Nat) (bl : List Nat)

theorem nonzero_cons {b : Nat} (h : b ≠ 0) : nonzero (b :: bl) = b :: nonzero bl := by
  simp [nonzero, h]

theorem nonzero_zero : nonzero (0 :: bl) = nonzero bl := by
  simp [nonzero]

theorem fillHoles_taken (hn : (nonzero bl).Nodup) (hused : ∀ b ∈ nonzero bl, bbGet g v b = true) :
    Taken g v (fillHoles g bl v).1 bl (fillHoles g bl v).2.1 := by
  induction bl generalizing v with
  | nil => exact ⟨nodup_nil, by simp [fillHoles, nonzero], by simp [fillHoles, nonzero],
      fun _ _ _ h => h⟩
  | cons d bl ih =>
    by_cases hd : d = 0
    · subst hd
      rw [fillHoles, if_neg (by simp)]
      simp only
      have hgrow : Grows v (balloc g v).1 := (balloc_given g v).grows
      split
      · refine ⟨by rwa [nonzero_zero], fun b hb => ?_, fun b hb => .inl hb,
          fun b _ _ h => hgrow _ h⟩
        exact hgrow _ (hused b hb)
      next ha =>
      have hfree := (balloc_given g v).free ha
      obtain ⟨hset, hdata⟩ := (balloc_given g v).fresh ha
      have hrest := ih hn fun b hb => hgrow _ (hused b hb)
      have hgrow' : Grows (balloc g v).1 (fillHoles g bl (balloc g v).1).1 :=
        (fillHoles_spec bl).1
      have hnot : (balloc g v).2 ∉ nonzero (fillHoles g bl (balloc g v).1).2.1 := by
        intro hmem
        rcases hrest.source _ hmem with hold | ⟨hun, -⟩
        · have hbusy := hused _ hold
          rw [hfree] at hbusy
          cases hbusy
        rw [hset] at hun
        cases hun
      refine ⟨?_, fun b hb => ?_, fun b hb => ?_, fun b _ _ h => hgrow' _ (hgrow _ h)⟩
      · rw [nonzero_cons _ ha]
        exact nodup_cons.2 ⟨hnot, hrest.nodup⟩
      · rw [nonzero_cons _ ha] at hb
        rcases mem_cons.1 hb with rfl | hb
        · exact hgrow' _ hset
        · exact hrest.used b hb
      rw [nonzero_cons _ ha] at hb
      rcases mem_cons.1 hb with rfl | hb
      · exact .inr ⟨hfree, hdata⟩
      refine (hrest.source b hb).imp id fun hun => ⟨?_, hun.2⟩
      rw [← Bool.not_eq_true]
      intro hbusy
      have := hgrow _ hbusy
      rw [show (balloc g v).1.bbm (bit g b) = false from hun.1] at this
      cases this
    rw [nonzero_cons _ hd] at hn hused
    rw [fillHoles, if_pos hd]
    have hrest := ih (nodup_cons.1 hn).2 fun b hb => hused b (mem_cons_of_mem _ hb)
    have hgrow : Grows v (fillHoles g bl v).1 := (fillHoles_spec bl).1
    refine ⟨?_, fun b hb => ?_, fun b hb => ?_, fun b _ _ h => hgrow _ h⟩
    · rw [nonzero_cons _ hd]
      refine nodup_cons.2 ⟨fun hmem => ?_, hrest.nodup⟩
      rcases hrest.source d hmem with hold | ⟨hun, -⟩
      · exact (nodup_cons.1 hn).1 hold
      rw [hused d mem_cons_self] at hun
      cases hun
    · rw [nonzero_cons _ hd] at hb
      rcases mem_cons.1 hb with rfl | hb
      · exact hgrow _ (hused b mem_cons_self)
      · exact hrest.used b hb
    rw [nonzero_cons _ hd] at hb ⊢
    rcases mem_cons.1 hb with rfl | hb
    · exact .inl mem_cons_self
    · exact (hrest.source b hb).imp (mem_cons_of_mem _) id

section

variable (hn : (nonzero e.bl).Nodup) (hused : ∀ b ∈ nonzero e.bl, bbGet g v b = true)

include hn hused

theorem go_taken :
    Taken g v (putBlocks.go g data len e v).1 e.bl (putBlocks.go g data len e v).2.1.bl := by
  have hfill := fillHoles_taken e.bl hn hused
  have hbl := (go_spec (g := g) (v := v) (e := e) data len).2
  have hbbm : (putBlocks.go g data len e v).1.bbm = (fillHoles g e.bl v).1.bbm := by
    unfold putBlocks.go
    simp only
    split
    · rfl
    · exact (writeBlocks_spec data len).1
  have hget : ∀ b, bbGet g (putBlocks.go g data len e v).1 b =
      bbGet g (fillHoles g e.bl v).1 b := fun b => congrFun hbbm _
  rw [hbl]
  refine ⟨hfill.nodup, fun b hb => ?_, hfill.source, fun b hb hnot h => ?_⟩
  · rw [hget]
    exact hfill.used b hb
  rw [hget]
  exact hfill.others b hb hnot h

theorem taken_refl : Taken g v v e.bl e.bl :=
  ⟨hn, hused, fun _ hb => .inl hb, fun _ _ _ h => h⟩

end

theorem nonzero_take_pad (l : List Nat) (n k : Nat) :
    nonzero ((nonzero l).take n ++ replicate k 0) = (nonzero l).take n := by
  have hzero : nonzero (replicate k 0) = [] := by simp [nonzero]
  have hkeep : nonzero ((nonzero l).take n) = (nonzero l).take n :=
    filter_eq_self.2 fun b hb => by simpa using (mem_nonzero.1 (mem_of_mem_take hb)).2
  rw [nonzero, filter_append]
  exact (congrArg₂ (· ++ ·) hkeep hzero).trans (append_nil _)

theorem putBlocks_taken (hfits : g.Fits) (mem : Bool) (hn : (nonzero e.bl).Nodup)
    (hin : ∀ b ∈ nonzero e.bl, g.firstData ≤ b) (hused : ∀ b ∈ nonzero e.bl, bbGet g v b = true) :
    Taken g v (putBlocks g v e data len mem).1 e.bl (putBlocks g v e data len mem).2.1.bl := by
  unfold putBlocks
  simp only
  split
  · exact taken_refl hn hused
  split
  · exact go_taken data len hn hused
  split
  · exact taken_refl hn hused
  generalize blocksFor g len + metaFor g (blocksFor g len) = n
  generalize blocksFor g len = nb
  obtain ⟨hlist, hbits⟩ := relist_spec (g := g) (v := v) hfits n e.bl [] (Nat.zero_le _)
  simp only [nil_append] at hlist hbits
  have hnz : nonzero (Ent.ofList nb (relist g n e.bl [] v).2 e.ib).bl = (nonzero e.bl).take n := by
    rw [ofList_bl, hlist, nonzero_take_pad]
  have hsub : ∀ b ∈ (nonzero e.bl).take n, b ∈ nonzero e.bl := fun b => mem_of_mem_take
  have hdisj : ∀ b ∈ (nonzero e.bl).take n, b ∉ (nonzero e.bl).drop n := by
    intro b hb hb'
    rw [← take_append_drop n (nonzero e.bl), nodup_append] at hn
    exact hn.2.2 b hb b hb' rfl
  have hgo := go_taken (g := g) (v := (relist g n e.bl [] v).1)
    (e := Ent.ofList nb (relist g n e.bl [] v).2 e.ib) data len
    (by rw [hnz]; exact hn.sublist (take_sublist n _))
    (by
      intro b hb
      rw [hnz] at hb
      rw [hbits b (hin b (hsub b hb)) (hdisj b hb)]
      exact hused b (hsub b hb))
  refine ⟨hgo.nodup, hgo.used, fun b hb => ?_, fun b hb hnot h => ?_⟩
  · rcases hgo.source b hb with hold | ⟨hun, hdata⟩
    · rw [hnz] at hold
      exact .inl (hsub b hold)
    by_cases hmem : b ∈ (nonzero e.bl).drop n
    · exact .inl (mem_of_mem_drop hmem)
    rw [hbits b hdata.1 hmem] at hun
    exact .inr ⟨hun, hdata⟩
  refine hgo.others b hb (fun hmem => hnot (hsub b (hnz ▸ hmem))) ?_
  rw [hbits b hb fun hmem => hnot (mem_of_mem_drop hmem)]
  exact h

end

end

/-! ## Owners -/

section

variable {g : Super} {T : Table} {v : Vol} {nm m : Name}

def Entry.blocks (x : Entry) : List Nat := nonzero x.ent.bl

def owned (ents : List Entry) : List Nat := ents.flatMap Entry.blocks

theorem freeBlocks_other (l : List Nat) {b : Nat} (hb : g.firstData ≤ b) (hnot : b ∉ l) :
    bbGet g.toGeo (l.foldl (fun v b => bbSet g.toGeo v b false) v) b = bbGet g.toGeo v b := by
  induction l generalizing v with
  | nil => rfl
  | cons d l ih =>
    rw [mem_cons, not_or] at hnot
    rw [foldl_cons, ih hnot.2, bbSet_ne g.fits hb hnot.1]

theorem freeBlocks_taken (e : Ent) (ib : List Nat) :
    Taken g.toGeo v (freeBlocks g v e) e.bl (Ent.bl ⟨[], [], ib⟩) :=
  ⟨nodup_nil, by simp [Ent.bl, nonzero], by simp [Ent.bl, nonzero], fun b hb hnot h =>
    (freeBlocks_other (nonzero e.bl) hb hnot).trans h⟩

structure Owners (g : Super) (v : Vol) (ibm : Nat → Bool) (ents : List Entry) : Prop where
  inodes : (ents.map Entry.ino).Nodup
  inodeBits : ∀ x ∈ ents, ibm x.ino = true
  blocks : (owned ents).Nodup
  blockBits : ∀ b ∈ owned ents, bbGet g.toGeo v b = true
  data : ∀ b ∈ owned ents, DataBlock g.toGeo b

variable {ibm : Nat → Bool} {pre post ents : List Entry} {x : Entry}

theorem mem_owned {b : Nat} : b ∈ owned ents ↔ ∃ x ∈ ents, b ∈ x.blocks :=
  mem_flatMap

theorem owned_split (pre post : List Entry) (x : Entry) :
    owned (pre ++ x :: post) = owned pre ++ (x.blocks ++ owned post) := by
  simp [owned]

section

variable (h : Owners g v ibm (pre ++ x :: post))

include h

theorem Owners.replace {v' : Vol} {e : Ent} (ht : Taken g.toGeo v v' x.ent.bl e.bl) :
    Owners g v' ibm (pre ++ { x with ent := e } :: post) := by
  have hb := h.blocks
  rw [owned_split] at hb
  obtain ⟨hpre, hmid, hdisj⟩ := nodup_append.1 hb
  obtain ⟨hx, hpost, hdisj'⟩ := nodup_append.1 hmid
  have hother : ∀ b, b ∈ owned pre ∨ b ∈ owned post → b ∈ owned (pre ++ x :: post) ∧
      b ∉ x.blocks := by
    rintro b (hmem | hmem)
    · refine ⟨by rw [owned_split]; exact mem_append_left _ hmem, fun hbx => ?_⟩
      exact hdisj b hmem b (mem_append_left _ hbx) rfl
    refine ⟨?_, fun hbx => hdisj' b hbx b hmem rfl⟩
    rw [owned_split]
    exact mem_append_right _ (mem_append_right _ hmem)
  -- a block of the new list is in no other entry
  have hnew : ∀ b ∈ nonzero e.bl, ¬(b ∈ owned pre ∨ b ∈ owned post) := by
    intro b hbe hmem
    obtain ⟨hown, hnot⟩ := hother b hmem
    rcases ht.source b hbe with hold | ⟨hun, -⟩
    · exact hnot hold
    rw [h.blockBits b hown] at hun
    cases hun
  have hcases : ∀ b ∈ owned (pre ++ { x with ent := e } :: post),
      b ∈ nonzero e.bl ∨ (b ∈ owned pre ∨ b ∈ owned post) := by
    intro b hmem
    rw [owned_split] at hmem
    rcases mem_append.1 hmem with hmem | hmem
    · exact .inr (.inl hmem)
    rcases mem_append.1 hmem with hmem | hmem
    · exact .inl hmem
    · exact .inr (.inr hmem)
  refine ⟨by simpa using h.inodes, fun y hy => ?_, ?_, fun b hmem => ?_, fun b hmem => ?_⟩
  · rcases mem_append.1 hy with hy | hy
    · exact h.inodeBits y (mem_append_left _ hy)
    rcases mem_cons.1 hy with rfl | hy
    · exact h.inodeBits x (by simp)
    · exact h.inodeBits y (by simp [hy])
  · rw [owned_split]
    refine nodup_append.2 ⟨hpre, nodup_append.2 ⟨ht.nodup, hpost, ?_⟩, ?_⟩
    · rintro b hbe _ hb' rfl
      exact hnew b hbe (.inr hb')
    rintro b hbp _ hb' rfl
    rcases mem_append.1 hb' with hb' | hb'
    · exact hnew b hb' (.inl hbp)
    · exact hdisj b hbp b (mem_append_right _ hb') rfl
  · rcases hcases b hmem with hbe | hbo
    · exact ht.used b hbe
    obtain ⟨hown, hnot⟩ := hother b hbo
    exact ht.others b (h.data b hown).1 hnot (h.blockBits b hown)
  rcases hcases b hmem with hbe | hbo
  · rcases ht.source b hbe with hold | ⟨-, hdata⟩
    · refine h.data b ?_
      rw [owned_split]
      exact mem_append_right _ (mem_append_left _ hold)
    · exact hdata
  · exact h.data b (hother b hbo).1

theorem Owners.entry : (nonzero x.ent.bl).Nodup ∧
    (∀ b ∈ nonzero x.ent.bl, g.firstData ≤ b) ∧ ∀ b ∈ nonzero x.ent.bl, bbGet g.toGeo v b = true :=
    by
  have hmem : ∀ b ∈ nonzero x.ent.bl, b ∈ owned (pre ++ x :: post) := fun b hb => by
    rw [owned_split]
    exact mem_append_right _ (mem_append_left _ hb)
  have hb := h.blocks
  rw [owned_split] at hb
  exact ⟨(nodup_append.1 (nodup_append.1 hb).2.1).1,
    fun b hb => (h.data b (hmem b hb)).1, fun b hb => h.blockBits b (hmem b hb)⟩

theorem Owners.act (a : Action) :
    Owners g (act g v x.ent a).1 ibm (pre ++ { x with ent := (act g v x.ent a).2 } :: post) := by
  obtain ⟨hn, hin, hused⟩ := h.entry
  cases a with
  | keep => exact h.replace (taken_refl hn hused)
  | put data len mem => exact h.replace (putBlocks_taken data len g.fits mem hn hin hused)
  | inline ib => exact h.replace (freeBlocks_taken x.ent ib)

omit h in
theorem Owners.puts {todo : List Entry} (done : List Entry) (h : Owners g T.vol T.ibm (done ++ todo))
    (actions : List Action) :
    Owners g (putsFrom g todo actions done T).vol (putsFrom g todo actions done T).ibm
      (putsFrom g todo actions done T).ents := by
  induction todo generalizing done actions T with
  | nil => simpa [putsFrom] using h
  | cons x todo ih =>
    rw [putsFrom]
    apply ih
    simpa using h.act (actions.headD .keep)

theorem Owners.remove (f : Nat) : Owners g (freeBlocks g v x.ent)
      (if f ≤ x.ino then update ibm x.ino false else ibm) (pre ++ post) := by
  have hr := h.replace (freeBlocks_taken (v := v) x.ent [])
  have howned : owned (pre ++ { x with ent := ⟨[], [], []⟩ } :: post) = owned (pre ++ post) := by
    simp [owned, Entry.blocks, Ent.bl, nonzero]
  have hi := h.inodes
  rw [map_append, map_cons, nodup_append, nodup_cons] at hi
  refine ⟨?_, fun y hy => ?_, howned ▸ hr.blocks, howned ▸ hr.blockBits, howned ▸ hr.data⟩
  · rw [map_append, nodup_append]
    exact ⟨hi.1, hi.2.1.2, fun a ha b hb => hi.2.2 a ha b (mem_cons_of_mem _ hb)⟩
  have hbit : ibm y.ino = true := by
    refine h.inodeBits y ?_
    rcases mem_append.1 hy with hy | hy
    · exact mem_append_left _ hy
    · exact mem_append_right _ (mem_cons_of_mem _ hy)
  have hne : y.ino ≠ x.ino := by
    intro heq
    rcases mem_append.1 hy with hy | hy
    · exact hi.2.2 y.ino (mem_map_of_mem hy) x.ino (by simp) heq
    · exact hi.2.1.1 (heq ▸ mem_map_of_mem hy)
  split
  · rw [update_of_ne hne]
    exact hbit
  · exact hbit

end

theorem Owners.sweep {todo : List Entry} (kept : List Entry) (h : Owners g T.vol T.ibm (kept ++ todo))
    (gone : List Bool) :
    Owners g (sweepFrom g todo gone kept T).vol (sweepFrom g todo gone kept T).ibm
      (sweepFrom g todo gone kept T).ents := by
  induction todo generalizing kept gone T with
  | nil => simpa [sweepFrom] using h
  | cons x todo ih =>
    rw [sweepFrom]
    split
    · apply ih
      exact h.remove g.firstIno
    apply ih
    simpa using h

theorem iallocFrom_spec (fuel t : Nat) :
    (iallocFrom g fuel t T).1.vol = T.vol ∧ (iallocFrom g fuel t T).1.ents = T.ents ∧
      (∀ i, T.ibm i = true → (iallocFrom g fuel t T).1.ibm i = true) ∧
      ((iallocFrom g fuel t T).2 ≠ 0 → T.ibm (iallocFrom g fuel t T).2 = false ∧
        (iallocFrom g fuel t T).1.ibm (iallocFrom g fuel t T).2 = true) := by
  induction fuel generalizing t with
  | zero => exact ⟨rfl, rfl, fun _ h => h, fun h => absurd rfl h⟩
  | succ fuel ih =>
    rw [iallocFrom]
    split
    · exact ih (t + 1)
    next hfree =>
    refine ⟨rfl, rfl, fun i hi => ?_, fun _ => ⟨by simpa using hfree, update_self ..⟩⟩
    simp only [update_apply]
    split
    · rfl
    · exact hi

section

variable (h : Owners g T.vol T.ibm T.ents)

include h

theorem Owners.newEntry (mem : Bool) :
    Owners g (newEntry g T mem).vol (newEntry g T mem).ibm (newEntry g T mem).ents := by
  obtain ⟨hvol, hents, hbits, hnew⟩ := iallocFrom_spec (g := g) (T := T) g.ninodes 0
  have hsame : Owners g (ialloc g T).1.vol (ialloc g T).1.ibm (ialloc g T).1.ents := by
    rw [ialloc, hvol, hents]
    exact ⟨h.inodes, fun x hx => hbits _ (h.inodeBits x hx), h.blocks, h.blockBits, h.data⟩
  unfold Ext2.newEntry
  simp only
  split
  · exact hsame
  next hino =>
  obtain ⟨hfree, hset⟩ := hnew hino
  split
  swap
  · exact hsame
  have howned : owned ((ialloc g T).1.ents ++ [⟨(ialloc g T).2, .empty, true⟩]) =
      owned (ialloc g T).1.ents := by
    simp [owned, Entry.blocks, Ent.empty, Ent.bl, nonzero]
  refine ⟨?_, fun x hx => ?_, howned ▸ hsame.blocks, howned ▸ hsame.blockBits,
    howned ▸ hsame.data⟩
  · rw [map_append, nodup_append]
    refine ⟨hsame.inodes, by simp, fun a ha b hb heq => ?_⟩
    obtain ⟨y, hy, rfl⟩ := mem_map.1 ha
    have hbusy := h.inodeBits y (hents ▸ hy)
    rw [heq, mem_singleton.1 hb] at hbusy
    rw [show T.ibm (ialloc g T).2 = false from hfree] at hbusy
    cases hbusy
  rcases mem_append.1 hx with hx | hx
  · exact hsame.inodeBits x hx
  rw [mem_singleton.1 hx]
  exact hset

theorem Owners.syncTable (c : Changes) :
    Owners g (syncTable g T c).vol (syncTable g T c).ibm (syncTable g T c).ents := by
  have hnew : ∀ (new : List Bool) (T : Table), Owners g T.vol T.ibm T.ents →
      Owners g (new.foldl (Ext2.newEntry g) T).vol (new.foldl (Ext2.newEntry g) T).ibm
        (new.foldl (Ext2.newEntry g) T).ents := by
    intro new
    induction new with
    | nil => exact fun T hT => hT
    | cons mem new ih => exact fun T hT => ih _ (hT.newEntry mem)
  have hio : Owners g { T.vol with io := c.io } T.ibm T.ents :=
    ⟨h.inodes, h.inodeBits, h.blocks, h.blockBits, h.data⟩
  have h1 := hnew c.new { T with vol := { T.vol with io := c.io } } hio
  have h2 := Owners.sweep [] h1 c.gone
  exact .puts [] h2 c.actions

theorem Owners.syncs (cs : List Changes) :
    Owners g (syncs g T cs).vol (syncs g T cs).ibm (syncs g T cs).ents := by
  induction cs generalizing T with
  | nil => exact h
  | cons c cs ih => exact ih (h.syncTable c)

end

/-! ## Mount -/

/-- A consistent image: what its names refer to is marked, no block belongs to two inodes, and
an inode that is met again has several names and says so. -/
structure Image (g : Super) (v : Vol) (ibm : Nat → Bool) (img : Nat → Ent) (names : List Name) :
    Prop where
  inodes : ∀ nm ∈ names, ibm nm.ino = true
  nodup : ∀ nm ∈ names, (nonzero (img nm.ino).bl).Nodup
  apart : ∀ nm ∈ names, ∀ nm' ∈ names, nm.ino ≠ nm'.ino →
    ∀ b ∈ nonzero (img nm.ino).bl, b ∉ nonzero (img nm'.ino).bl
  bits : ∀ nm ∈ names, ∀ b ∈ nonzero (img nm.ino).bl, bbGet g.toGeo v b = true
  data : ∀ nm ∈ names, ∀ b ∈ nonzero (img nm.ino).bl, DataBlock g.toGeo b
  several : ∀ pre nm post, names = pre ++ nm :: post → nm.taken = true →
    (∃ m ∈ pre, m.ino = nm.ino) → nm.several = true

/-- If an inode has a name that the tree takes over, the first of its names is one, and no later
one is a link that replaces a directory. -/
structure TakenFirst (names : List Name) : Prop where
  first : ∀ nm ∈ names, nm.taken = true → ∀ m, names.find? (fun x => x.ino = nm.ino) = some m →
    m.taken = true
  again : ∀ pre nm post, names = pre ++ nm :: post → nm.taken = true → nm.replaces = true →
    ∀ m ∈ pre, m.ino ≠ nm.ino

variable {img : Nat → Ent} {names : List Name}

structure Loaded (img : Nat → Ent) (pre : List Name) (ents : List Entry) : Prop where
  met : ∀ m ∈ pre, ∃ x ∈ ents, x.ino = m.ino
  entry : ∀ x ∈ ents, x.ent = img x.ino ∧ ∃ m ∈ pre, m.ino = x.ino
  orphan : ∀ x ∈ ents, x.node = false →
    ∃ m, pre.find? (fun y => y.ino = x.ino) = some m ∧ m.taken = false

theorem Owners.add {y : Entry} (h : Owners g v ibm ents)
    (hino : ∀ x ∈ ents, x.ino ≠ y.ino) (hbit : ibm y.ino = true) (hn : y.blocks.Nodup)
    (hbits : ∀ b ∈ y.blocks, bbGet g.toGeo v b = true) (hdata : ∀ b ∈ y.blocks, DataBlock g.toGeo b)
    (hapart : ∀ b ∈ y.blocks, b ∉ owned ents) : Owners g v ibm (ents ++ [y]) := by
  have howned : owned (ents ++ [y]) = owned ents ++ y.blocks := by simp [owned]
  refine ⟨?_, fun x hx => ?_, ?_, fun b hb => ?_, fun b hb => ?_⟩
  · rw [map_append, nodup_append]
    refine ⟨h.inodes, by simp, fun a ha b hb heq => ?_⟩
    obtain ⟨x, hx, rfl⟩ := mem_map.1 ha
    exact hino x hx (heq.trans (mem_singleton.1 hb))
  · rcases mem_append.1 hx with hx | hx
    · exact h.inodeBits x hx
    rw [mem_singleton.1 hx]
    exact hbit
  · rw [howned, nodup_append]
    refine ⟨h.blocks, hn, fun a ha b hb heq => ?_⟩
    exact hapart b hb (heq ▸ ha)
  · rw [howned] at hb
    exact (mem_append.1 hb).elim (h.blockBits b) (hbits b)
  rw [howned] at hb
  exact (mem_append.1 hb).elim (h.data b) (hdata b)

theorem find?_append_of_some {pre post : List Name} {p : Name → Bool}
    (h : pre.find? p = some m) : (pre ++ post).find? p = some m := by
  rw [find?_append, h]
  rfl

theorem Loaded.same {pre : List Name} (h : Loaded img pre ents)
    (hx : ∃ x ∈ ents, x.ino = nm.ino) : Loaded img (pre ++ [nm]) ents := by
  refine ⟨fun m hm => ?_, fun x hxm => ?_, fun x hxm hnode => ?_⟩
  · rcases mem_append.1 hm with hm | hm
    · exact h.met m hm
    rw [mem_singleton.1 hm]
    exact hx
  · obtain ⟨hent, m, hm, hino⟩ := h.entry x hxm
    exact ⟨hent, m, mem_append_left _ hm, hino⟩
  obtain ⟨m, hm, ht⟩ := h.orphan x hxm hnode
  exact ⟨m, find?_append_of_some hm, ht⟩

theorem Loaded.add {pre : List Name} (h : Loaded img pre ents)
    (hx : ∀ x ∈ ents, x.ino ≠ nm.ino) {b : Bool} (hb : b = nm.taken) :
    Loaded img (pre ++ [nm]) (ents ++ [⟨nm.ino, img nm.ino, b⟩]) := by
  have hnone : pre.find? (fun y => y.ino = nm.ino) = none := by
    rw [find?_eq_none]
    intro m hm heq
    obtain ⟨x, hxm, hino⟩ := h.met m hm
    exact hx x hxm (hino.trans (by simpa using heq))
  refine ⟨fun m hm => ?_, fun x hxm => ?_, fun x hxm hnode => ?_⟩
  · rcases mem_append.1 hm with hm | hm
    · obtain ⟨x, hxm, hino⟩ := h.met m hm
      exact ⟨x, mem_append_left _ hxm, hino⟩
    rw [mem_singleton.1 hm]
    exact ⟨_, mem_append_right _ mem_cons_self, rfl⟩
  · rcases mem_append.1 hxm with hxm | hxm
    · obtain ⟨hent, m, hm, hino⟩ := h.entry x hxm
      exact ⟨hent, m, mem_append_left _ hm, hino⟩
    rw [mem_singleton.1 hxm]
    exact ⟨rfl, nm, by simp, rfl⟩
  rcases mem_append.1 hxm with hxm | hxm
  · obtain ⟨m, hm, ht⟩ := h.orphan x hxm hnode
    exact ⟨m, find?_append_of_some hm, ht⟩
  rw [mem_singleton.1 hxm] at hnode ⊢
  refine ⟨nm, ?_, hb ▸ hnode⟩
  rw [find?_append, hnone]
  simp

theorem Owners.loadName (himg : Image g T.vol T.ibm img names) (htaken : TakenFirst names)
    {pre post : List Name} (hsplit : names = pre ++ nm :: post)
    (h : Owners g T.vol T.ibm T.ents) (hl : Loaded img pre T.ents) :
    Owners g (loadName img T nm).vol (loadName img T nm).ibm (loadName img T nm).ents ∧
      Loaded img (pre ++ [nm]) (loadName img T nm).ents := by
  have hnm : nm ∈ names := by simp [hsplit]
  have hpre : ∀ m ∈ pre, m ∈ names := fun m hm => by simp [hsplit, hm]
  have hnew : (∀ x ∈ T.ents, x.ino ≠ nm.ino) → ∀ b,
      Owners g T.vol T.ibm (T.ents ++ [⟨nm.ino, img nm.ino, b⟩]) := by
    intro hx b
    refine h.add hx (himg.inodes nm hnm) (himg.nodup nm hnm) (himg.bits nm hnm)
      (himg.data nm hnm) fun c hc hmem => ?_
    obtain ⟨x, hxm, hcx⟩ := mem_owned.1 hmem
    obtain ⟨hent, m, hm, hino⟩ := hl.entry x hxm
    rw [Entry.blocks, hent, ← hino] at hcx
    exact himg.apart nm hnm m (hpre m hm) (fun heq => hx x hxm (hino.symm.trans heq.symm)) c hc hcx
  unfold Ext2.loadName
  by_cases hseen : ∃ x ∈ T.ents, x.ino = nm.ino
  · obtain ⟨x, hxm, hino⟩ := hseen
    have hany : T.ents.any (fun x => x.ino = nm.ino) = true :=
      any_eq_true.2 ⟨x, hxm, by simpa using hino⟩
    split
    swap
    · exact ⟨h, hl.same ⟨x, hxm, hino⟩⟩
    next ht =>
    have hnode : x.node = true := by
      rw [← Bool.not_eq_false]
      intro hf
      obtain ⟨m, hm, hmt⟩ := hl.orphan x hxm hf
      have hfind : names.find? (fun y => y.ino = nm.ino) = some m := by
        rw [hsplit, ← hino]
        exact find?_append_of_some hm
      rw [htaken.first nm hnm ht m hfind] at hmt
      cases hmt
    obtain ⟨-, m, hm, hmi⟩ := hl.entry x hxm
    have hsev := himg.several pre nm post hsplit ht ⟨m, hm, hmi.trans hino⟩
    have hrep : nm.replaces = false := by
      rw [← Bool.not_eq_true]
      exact fun hrep => htaken.again pre nm post hsplit ht hrep m hm (hmi.trans hino)
    rw [if_pos (by
      rw [hsev, hrep, Bool.not_false, Bool.true_and, Bool.true_and]
      exact any_eq_true.2 ⟨x, hxm, by simp [hino, hnode]⟩)]
    exact ⟨h, hl.same ⟨x, hxm, hino⟩⟩
  have hx : ∀ x ∈ T.ents, x.ino ≠ nm.ino := fun x hxm hino => hseen ⟨x, hxm, hino⟩
  split
  next ht =>
    rw [if_neg (by
      rw [Bool.and_eq_true, any_eq_true]
      rintro ⟨-, x, hxm, hc⟩
      rw [Bool.and_eq_true] at hc
      exact hx x hxm (by simpa using hc.1))]
    exact ⟨hnew hx true, hl.add hx ht.symm⟩
  next ht =>
  rw [if_neg (by
    rw [any_eq_true]
    rintro ⟨x, hxm, hc⟩
    exact hx x hxm (by simpa using hc))]
  exact ⟨hnew hx false, hl.add hx (by simpa using ht)⟩

theorem loadName_frame (img : Nat → Ent) (T : Table) (nm : Name) :
    (loadName img T nm).vol = T.vol ∧ (loadName img T nm).ibm = T.ibm ∧
      T.ents <+: (loadName img T nm).ents := by
  unfold loadName
  split
  · split
    · exact ⟨rfl, rfl, prefix_rfl⟩
    · exact ⟨rfl, rfl, prefix_append _ _⟩
  split
  · exact ⟨rfl, rfl, prefix_rfl⟩
  · exact ⟨rfl, rfl, prefix_append _ _⟩

theorem Owners.load (himg : Image g T.vol T.ibm img names) (htaken : TakenFirst names)
    {pre post : List Name} (hsplit : names = pre ++ post) (h : Owners g T.vol T.ibm T.ents)
    (hl : Loaded img pre T.ents) :
    Owners g (load img T post).vol (load img T post).ibm (load img T post).ents := by
  induction post generalizing pre T with
  | nil => exact h
  | cons nm post ih =>
    obtain ⟨hvol, hibm, -⟩ := loadName_frame img T nm
    obtain ⟨ho, hl'⟩ := Owners.loadName himg htaken hsplit h hl
    exact ih (by rw [hvol, hibm]; exact himg) (by simp [hsplit]) ho hl'

theorem load_before (img : Nat → Ent) (T : Table) (post : List Name) :
    T.ents <+: (load img T post).ents := by
  induction post generalizing T with
  | nil => exact prefix_rfl
  | cons nm post ih => exact (loadName_frame img T nm).2.2.trans (ih _)

theorem load_mono (post : List Name) {x : Entry} (hx : x ∈ T.ents) : x ∈ (load img T post).ents :=
  (load_before img T post).subset hx

theorem load_met (img : Nat → Ent) (T : Table) (hnm : nm ∈ names) :
    ∃ x ∈ (load img T names).ents, x.ino = nm.ino := by
  induction names generalizing T with
  | nil => cases hnm
  | cons m names ih =>
    rcases mem_cons.1 hnm with rfl | hnm
    swap
    · exact ih _ hnm
    have hone : ∃ x ∈ (loadName img T nm).ents, x.ino = nm.ino := by
      unfold loadName
      split
      · split
        next hany =>
          rw [Bool.and_eq_true, any_eq_true] at hany
          obtain ⟨-, x, hx, hc⟩ := hany
          rw [Bool.and_eq_true] at hc
          exact ⟨x, hx, by simpa using hc.1⟩
        · exact ⟨_, mem_append_right _ mem_cons_self, rfl⟩
      split
      next hany =>
        obtain ⟨x, hx, hc⟩ := any_eq_true.1 hany
        exact ⟨x, hx, by simpa using hc⟩
      · exact ⟨_, mem_append_right _ mem_cons_self, rfl⟩
    obtain ⟨x, hx, hc⟩ := hone
    exact ⟨x, load_mono names hx, hc⟩

theorem load_replaces (img : Nat → Ent) {pre post : List Name} (ht : nm.taken = true)
    (hrep : nm.replaces = true) (hm : m ∈ pre) (hino : m.ino = nm.ino) :
    ¬ ((load img T (pre ++ nm :: post)).ents.map Entry.ino).Nodup := by
  obtain ⟨x, hx, hxi⟩ := load_met img T hm
  have hstep : (loadName img (load img T pre) nm).ents =
      (load img T pre).ents ++ [⟨nm.ino, img nm.ino, true⟩] := by
    simp [loadName, ht, hrep]
  have hpre := load_before img (loadName img (load img T pre) nm) post
  rw [hstep] at hpre
  rw [load, foldl_append, foldl_cons]
  intro hn
  have hshort := hn.sublist (hpre.map Entry.ino).sublist
  rw [map_append, nodup_append] at hshort
  exact hshort.2.2 _ (mem_map_of_mem hx) _ (by simp) (hxi.trans hino)

theorem load_taken (img : Nat → Ent) (hnm : nm ∈ names) (ht : nm.taken = true) :
    ∃ x ∈ (load img T names).ents, x.ino = nm.ino ∧ x.node = true := by
  induction names generalizing T with
  | nil => cases hnm
  | cons m names ih =>
    rcases mem_cons.1 hnm with rfl | hnm
    swap
    · exact ih hnm
    have hone : ∃ x ∈ (loadName img T nm).ents, x.ino = nm.ino ∧ x.node = true := by
      rw [loadName, if_pos ht]
      split
      next hany =>
        rw [Bool.and_eq_true, any_eq_true] at hany
        obtain ⟨-, x, hx, hc⟩ := hany
        rw [Bool.and_eq_true] at hc
        exact ⟨x, hx, by simpa using hc.1, hc.2⟩
      · exact ⟨_, mem_append_right _ mem_cons_self, rfl, rfl⟩
    obtain ⟨x, hx, hc⟩ := hone
    exact ⟨x, load_mono names hx, hc⟩

theorem load_orphan (img : Nat → Ent) {i : Nat} (hfind : names.find? (fun x => x.ino = i) = some m)
    (ht : m.taken = false) (hnone : ∀ x ∈ T.ents, x.ino ≠ i) :
    ∃ x ∈ (load img T names).ents, x.ino = i ∧ x.node = false := by
  induction names generalizing T with
  | nil => cases hfind
  | cons nm names ih =>
    rw [find?_cons] at hfind
    split at hfind
    next heq =>
      cases hfind
      have hi : m.ino = i := by simpa using heq
      subst hi
      refine ⟨⟨m.ino, img m.ino, false⟩, load_mono names ?_, rfl, rfl⟩
      rw [loadName, if_neg (by simp [ht]), if_neg (by
        rw [any_eq_true]
        rintro ⟨x, hx, hc⟩
        exact hnone x hx (by simpa using hc))]
      exact mem_append_right _ mem_cons_self
    next heq =>
    refine ih hfind fun x hx => ?_
    have hne : nm.ino ≠ i := by simpa using heq
    unfold loadName at hx
    split at hx
    · split at hx
      · exact hnone x hx
      rcases mem_append.1 hx with hx | hx
      · exact hnone x hx
      rw [mem_singleton.1 hx]
      exact hne
    split at hx
    · exact hnone x hx
    rcases mem_append.1 hx with hx | hx
    · exact hnone x hx
    rw [mem_singleton.1 hx]
    exact hne

end

/-- From a consistent image the table is in order after mount and any syncs exactly if no
inode that the tree takes over is first met under a name that it does not, or met again as a link
that replaces a directory. -/
theorem ext2_owners_iff (g : Super) (v : Vol) (ibm : Nat → Bool) (img : Nat → Ent)
    (names : List Name) (himg : Image g v ibm img names) :
    (∀ cs : List Changes,
      let T := syncs g (load img { vol := v, ibm := ibm } names) cs
      Owners g T.vol T.ibm T.ents) ↔ TakenFirst names := by
  constructor
  · intro h
    have hmount : ((load img { vol := v, ibm := ibm } names).ents.map Entry.ino).Nodup :=
      (h []).inodes
    refine ⟨fun nm hnm ht m hfind => ?_, fun pre nm post hsplit ht hrep m hm hino => ?_⟩
    swap
    · rw [hsplit] at hmount
      exact load_replaces img ht hrep hm hino hmount
    obtain ⟨x, hx, hxi, hxn⟩ := load_taken (T := { vol := v, ibm := ibm }) img hnm ht
    rw [← Bool.not_eq_false]
    intro hm
    obtain ⟨y, hy, hyi, hyn⟩ := load_orphan (T := { vol := v, ibm := ibm }) img hfind hm
      (by simp)
    have heq := inj_on_of_nodup_map hmount hx hy (hxi.trans hyi.symm)
    rw [heq, hyn] at hxn
    cases hxn
  intro htaken cs
  have hempty : Owners g v ibm [] :=
    ⟨nodup_nil, by simp, nodup_nil, by simp [owned], by simp [owned]⟩
  have hloaded : Loaded img [] [] := ⟨by simp, by simp, by simp⟩
  exact .syncs (.load (T := { vol := v, ibm := ibm }) himg htaken rfl hempty hloaded) cs

def smallSuper : Super := { smallGeo with
  ninodes := 64
  firstIno := 11
  fits := by unfold Geo.Fits; decide }

def smallImage (ino : Nat) : Ent := if ino = 2 then ⟨[9], [], [9]⟩ else smallEnt

def smallTable : Table := { vol := smallVol, ibm := fun i => i ≤ 12 }

def twoNames (first dir : Bool) : List Name :=
  [⟨2, true, false, false⟩, ⟨12, first, true, false⟩, ⟨12, !first || dir, true, dir⟩]

theorem image_two (first dir : Bool) :
    Image smallSuper smallTable.vol smallTable.ibm smallImage (twoNames first dir) := by
  constructor
  · cases first <;> cases dir <;> decide +kernel
  · cases first <;> cases dir <;> decide +kernel
  · cases first <;> cases dir <;> decide +kernel
  · cases first <;> cases dir <;> decide +kernel
  · unfold DataBlock
    cases first <;> cases dir <;> decide +kernel
  rintro pre nm post hsplit - ⟨m, hm, hino⟩
  rcases pre with _ | ⟨a, _ | ⟨b, _ | ⟨c, pre⟩⟩⟩
  · cases hm
  · cases hsplit
    rfl
  · cases hsplit
    rfl
  · simp [twoNames] at hsplit

theorem takenFirst_two : TakenFirst (twoNames true false) := by
  refine ⟨fun nm hnm ht m hfind => ?_, fun pre nm post hsplit _ hrep => ?_⟩
  · simp only [twoNames, mem_cons, not_mem_nil, or_false] at hnm
    rcases hnm with rfl | rfl | rfl
    · cases hfind
      rfl
    · cases hfind
      rfl
    · cases ht
  have hnone : ∀ nm ∈ twoNames true false, nm.replaces = false := by decide
  exact absurd ((hnone nm (by simp [hsplit])).symm.trans hrep) (by decide)

/-- The name that is taken over comes first; a sync finds a new node and a longer file. -/
theorem ext2_owners_iff_two :
    let T := syncs smallSuper (load smallImage smallTable (twoNames true false))
      [⟨[true], [], [.keep, .put (replicate 2100 7) 2100 true], []⟩]
    Owners smallSuper T.vol T.ibm T.ents :=
  (ext2_owners_iff smallSuper smallTable.vol smallTable.ibm smallImage (twoNames true false)
    (image_two true false)).2 takenFirst_two _

/-- The name that is not taken over comes first, or the second name is a link that replaces a
directory: two entries have the inode and its blocks. -/
theorem mount_owns_twice :
    Image smallSuper smallTable.vol smallTable.ibm smallImage (twoNames false false) ∧
      (load smallImage smallTable (twoNames false false)).ents.map Entry.ino = [2, 12, 12] ∧
      owned (load smallImage smallTable (twoNames false false)).ents = [9, 10, 11, 10, 11] ∧
    Image smallSuper smallTable.vol smallTable.ibm smallImage (twoNames true true) ∧
      (load smallImage smallTable (twoNames true true)).ents.map Entry.ino = [2, 12, 12] :=
  ⟨image_two false false, by decide +kernel, by decide +kernel, image_two true true,
    by decide +kernel⟩

end SamaraOS.Ext2
