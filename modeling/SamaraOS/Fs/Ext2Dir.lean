import SamaraOS.Fs.Ext2Blocks

/-!
# Directories of an ext2 volume as bytes (ext2.c)

`dir_add` writes one record behind the other and stretches the last one of a block to its
end, `load_dir` steps from record to record.  What is written is read back.
-/

namespace SamaraOS.Ext2

open List

structure Rec where
  ino : Nat
  name : List UInt8
  deriving DecidableEq, Repr, Inhabited

structure Rec.Fits (r : Rec) : Prop where
  ino : r.ino < 2 ^ 32
  name : r.name.length < 2 ^ 8

def wr16 (n : Nat) : List UInt8 := [UInt8.ofNat n, UInt8.ofNat (n / 2 ^ 8)]

def recLen (nl : Nat) : Nat := (8 + nl + 3) / 4 * 4

/-- A record that takes `rl` bytes; the buffer was cleared before. -/
def record (r : Rec) (type : UInt8) (rl : Nat) : List UInt8 :=
  wr32 r.ino ++ (wr16 rl ++ (UInt8.ofNat r.name.length :: type ::
    (r.name ++ replicate (rl - 8 - r.name.length) 0)))

/-- `db_t`, with `len` as the length of `buf`. -/
structure Db where
  buf : List UInt8 := []
  last : Nat := 0

def Db.stretch (d : Db) (stop : Nat) : Db :=
  { d with
    buf := d.buf.take (d.last + 4) ++ (wr16 (stop - d.last) ++ d.buf.drop (d.last + 6)) ++
      replicate (stop - d.buf.length) 0 }

def dirAdd (bs : Nat) (d : Db) (x : Rec × UInt8) : Db :=
  let rl := recLen x.1.name.length
  let off := d.buf.length
  -- would cross a block
  let d := if off / bs ≠ (off + rl - 1) / bs then d.stretch ((off / bs + 1) * bs) else d
  { buf := d.buf ++ record x.1 x.2 rl, last := d.buf.length }

def dirBytes (bs : Nat) (xs : List (Rec × UInt8)) : List UInt8 :=
  let d := xs.foldl (dirAdd bs) {}
  (d.stretch ((d.buf.length + bs - 1) / bs * bs)).buf

def rd16 (p : List UInt8) : Nat := (p.getD 0 0).toNat + (p.getD 1 0).toNat * 2 ^ 8

def rd32 (p : List UInt8) : Nat := rd16 p + rd16 (p.drop 2) * 2 ^ 16

/-- The loop of `load_dir` and `orphan` over the records, `p` is what is left. -/
def recordsFrom : Nat → List UInt8 → List Rec
  | 0, _ => []
  | fuel + 1, p =>
    if p.length < 8 then []
    else
      let rl := rd16 (p.drop 4)
      if rl < 8 then []
      else ⟨rd32 p, (p.drop 8).take (p.getD 6 0).toNat⟩ :: recordsFrom fuel (p.drop rl)

def records (p : List UInt8) : List Rec := recordsFrom p.length p

theorem rd16_wr16 {n : Nat} (h : n < 2 ^ 16) (p : List UInt8) : rd16 (wr16 n ++ p) = n := by
  simp only [rd16, wr16, cons_append, nil_append, getD_cons_zero,
    getD_cons_succ, UInt8.toNat_ofNat']
  omega

theorem rd32_wr32 {n : Nat} (h : n < 2 ^ 32) (p : List UInt8) : rd32 (wr32 n ++ p) = n := by
  simp only [rd32, rd16, wr32, cons_append, nil_append, getD_cons_zero,
    getD_cons_succ, drop_succ_cons, drop_zero, UInt8.toNat_ofNat']
  omega

theorem wr32_length (n : Nat) : (wr32 n).length = 4 := rfl

variable {bs rl stop : Nat} {xs : List (Rec × UInt8 × Nat)} {d : Db} {x : Rec × UInt8} {r : Rec}

theorem record_length (type : UInt8) (h : 8 + r.name.length ≤ rl) :
    (record r type rl).length = rl := by
  simp only [record, wr32, wr16, length_append, length_cons, length_nil,
    length_replicate]
  omega

theorem le_recLen (nl : Nat) : 8 + nl ≤ recLen nl := by
  unfold recLen
  omega

theorem recLen_pos (nl : Nat) : 0 < recLen nl :=
  Nat.lt_of_lt_of_le (by omega) (le_recLen nl)

theorem recLen_le {nl : Nat} (h : nl < 2 ^ 8) : recLen nl ≤ 264 := by
  unfold recLen
  omega

theorem recordsFrom_record (hr : r.Fits) (type : UInt8)
    (hlo : 8 + r.name.length ≤ rl) (hhi : rl < 2 ^ 16) (fuel : Nat) (rest : List UInt8) :
    recordsFrom (fuel + 1) (record r type rl ++ rest) = r :: recordsFrom fuel rest := by
  have hlen : (record r type rl ++ rest).length = rl + rest.length := by
    rw [length_append, record_length type hlo]
  have hrl : rd16 ((record r type rl ++ rest).drop 4) = rl := by
    exact rd16_wr16 hhi _
  have hino : rd32 (record r type rl ++ rest) = r.ino := by
    exact rd32_wr32 hr.ino _
  have hnl : ((record r type rl ++ rest).getD 6 0).toNat = r.name.length := by
    exact Nat.mod_eq_of_lt hr.name
  have hname : ((record r type rl ++ rest).drop 8).take r.name.length = r.name := by
    simp only [record, wr32, wr16, cons_append, nil_append, drop_succ_cons,
      drop_zero, append_assoc]
    exact take_left
  have hdrop : (record r type rl ++ rest).drop rl = rest :=
    drop_left' (record_length type hlo)
  rw [recordsFrom, if_neg (by omega), hrl, if_neg (by omega), hino, hnl, hname, hdrop]

theorem recordsFrom_nil (fuel : Nat) : recordsFrom fuel [] = [] := by
  cases fuel <;> rfl

/-! ## The buffer of `dir_add` -/

def laidOut (xs : List (Rec × UInt8 × Nat)) : List UInt8 :=
  xs.flatMap fun x => record x.1 x.2.1 x.2.2

def Closed (x : Rec × UInt8 × Nat) : Prop :=
  x.1.Fits ∧ 8 + x.1.name.length ≤ x.2.2 ∧ x.2.2 < 2 ^ 16

theorem laidOut_concat (xs : List (Rec × UInt8 × Nat)) (x : Rec × UInt8 × Nat) :
    laidOut (xs ++ [x]) = laidOut xs ++ record x.1 x.2.1 x.2.2 := by
  rw [laidOut, flatMap_append, flatMap_singleton, laidOut]

/-- Each record is inside one block, and its length is a multiple of 4 where the block size is. -/
inductive Tiled (bs : Nat) : List (Rec × UInt8 × Nat) → Prop
  | nil : Tiled bs []
  | concat {xs : List (Rec × UInt8 × Nat)} {x : Rec × UInt8 × Nat} (init : Tiled bs xs)
      (closed : Closed x) (mult : 4 ∣ bs → 4 ∣ x.2.2)
      (inside : (laidOut xs).length / bs = ((laidOut xs).length + x.2.2 - 1) / bs) :
      Tiled bs (xs ++ [x])

theorem Tiled.closed (h : Tiled bs xs) : ∀ x ∈ xs, Closed x := by
  induction h with
  | nil => exact fun _ hx => absurd hx not_mem_nil
  | concat _ hlast _ _ ih =>
    intro x hx
    rcases mem_append.1 hx with hx | hx
    · exact ih x hx
    · rwa [mem_singleton.1 hx]

theorem Tiled.dvd (h : Tiled bs xs) (h4 : 4 ∣ bs) : 4 ∣ (laidOut xs).length := by
  induction h with
  | nil => exact Nat.dvd_zero 4
  | concat _ hlast hmult _ ih =>
    rw [laidOut_concat, length_append, record_length _ hlast.2.1]
    exact Nat.dvd_add ih (hmult h4)

theorem recordsFrom_laidOut (h : ∀ x ∈ xs, Closed x) :
    ∀ fuel, xs.length ≤ fuel → recordsFrom fuel (laidOut xs) = xs.map (·.1) := by
  induction xs with
  | nil => intro fuel _; exact recordsFrom_nil fuel
  | cons x xs ih =>
    intro fuel hfuel
    obtain ⟨hfits, hlo, hhi⟩ := h x (mem_cons_self ..)
    obtain ⟨fuel, rfl⟩ := Nat.exists_eq_add_of_lt (Nat.lt_of_lt_of_le (Nat.succ_pos _) hfuel)
    rw [Nat.zero_add, laidOut, flatMap_cons, recordsFrom_record hfits _ hlo hhi, map_cons]
    congr 1
    apply ih (fun y hy => h y (mem_cons_of_mem _ hy))
    simp only [length_cons] at hfuel
    omega

theorem length_le_laidOut (h : ∀ x ∈ xs, Closed x) : xs.length ≤ (laidOut xs).length := by
  induction xs with
  | nil => exact Nat.le_refl 0
  | cons x xs ih =>
    have hx := (h x (mem_cons_self ..)).2.1
    have ih := ih fun y hy => h y (mem_cons_of_mem _ hy)
    rw [laidOut, flatMap_cons, length_append, record_length _ hx, length_cons]
    rw [laidOut] at ih
    omega

structure Laid (bs : Nat) (d : Db) (xs : List (Rec × UInt8 × Nat)) (x : Rec × UInt8) : Prop where
  buf : d.buf = laidOut xs ++ record x.1 x.2 (recLen x.1.name.length)
  last : d.last = (laidOut xs).length
  tiled : Tiled bs xs
  fits : x.1.Fits
  inside : d.last / bs = (d.buf.length - 1) / bs

theorem Laid.length (h : Laid bs d xs x) : d.buf.length = d.last + recLen x.1.name.length := by
  rw [h.buf, length_append, record_length _ (le_recLen _), h.last]

theorem Laid.stretch (h : Laid bs d xs x) (hle : d.buf.length ≤ stop) :
    (d.stretch stop).buf = laidOut (xs ++ [(x.1, x.2, stop - d.last)]) := by
  have hlen := h.length
  have hrec := le_recLen x.1.name.length
  have hhead : d.buf.take (d.last + 4) = laidOut xs ++ wr32 x.1.ino := by
    rw [h.buf, record, ← append_assoc, h.last]
    apply take_left'
    rw [length_append, wr32_length]
  have htail : d.buf.drop (d.last + 6) = UInt8.ofNat x.1.name.length :: x.2 ::
      (x.1.name ++ replicate (recLen x.1.name.length - 8 - x.1.name.length) 0) := by
    rw [h.buf, record, ← append_assoc, ← append_assoc, h.last]
    apply drop_left'
    rw [length_append, length_append, wr32_length]
    rfl
  have hzero : recLen x.1.name.length - 8 - x.1.name.length + (stop - d.buf.length) =
      stop - d.last - 8 - x.1.name.length := by omega
  rw [Db.stretch, hhead, htail, laidOut_concat, record, ← hzero, replicate_add]
  simp only [append_assoc, cons_append]

theorem Laid.stretch_length (h : Laid bs d xs x) (hle : d.buf.length ≤ stop) :
    (d.stretch stop).buf.length = stop := by
  have hlen := h.length
  have hrec := le_recLen x.1.name.length
  rw [h.stretch hle, laidOut_concat, length_append, ← h.last,
    record_length x.2 (show 8 + x.1.name.length ≤ stop - d.last by omega)]
  omega

section

variable {bs : Nat} (hlo : 264 ≤ bs) (hhi : bs ≤ 4096)
  {d : Db} {xs : List (Rec × UInt8 × Nat)} {x : Rec × UInt8}

/-- The end of the block that the last record is in. -/
def Db.blockEnd (bs : Nat) (d : Db) : Nat := ((d.buf.length - 1) / bs + 1) * bs

include hlo in
theorem Db.le_blockEnd (d : Db) : d.buf.length ≤ d.blockEnd bs := by
  have hlt := Nat.lt_mul_div_succ (d.buf.length - 1) (show 0 < bs by omega)
  rw [Nat.mul_comm] at hlt
  exact Nat.le_of_pred_lt hlt

include hlo hhi in
theorem Laid.stretched (h : Laid bs d xs x) :
    Tiled bs (xs ++ [(x.1, x.2, d.blockEnd bs - d.last)]) := by
  have hlen := h.length
  have hrec := le_recLen x.1.name.length
  have hrec' := recLen_le h.fits.name
  have hle := d.le_blockEnd hlo
  have hend : d.blockEnd bs ≤ d.buf.length - 1 + bs := by
    rw [Db.blockEnd, Nat.succ_mul]
    exact Nat.add_le_add_right (Nat.div_mul_le_self _ _) _
  refine .concat h.tiled ⟨h.fits, ?_, ?_⟩ (fun h4 => ?_) ?_
  · simp only
    omega
  · simp only
    omega
  · exact Nat.dvd_sub (Nat.dvd_mul_left_of_dvd h4 _) (h.last ▸ h.tiled.dvd h4)
  simp only
  rw [← h.last, Nat.add_sub_cancel' (by omega), h.inside, Db.blockEnd, Nat.succ_mul,
    Nat.add_sub_assoc (by omega), Nat.mul_comm, Nat.mul_add_div (by omega),
    Nat.div_eq_of_lt (show bs - 1 < bs by omega), Nat.add_zero]

include hlo in
theorem block_of_start {rl : Nat} (hpos : 0 < rl) (hrl : rl ≤ 264) (k : Nat) :
    k * bs / bs = (k * bs + rl - 1) / bs := by
  have hbs : 0 < bs := by omega
  have hlt : rl - 1 < bs := by omega
  rw [Nat.mul_div_cancel _ hbs, Nat.add_sub_assoc hpos, Nat.mul_comm, Nat.mul_add_div hbs,
    Nat.div_eq_of_lt hlt, Nat.add_zero]

include hlo in
theorem Laid.first (hx : x.1.Fits) : Laid bs (dirAdd bs {} x) [] x := by
  have hblock := block_of_start hlo (recLen_pos x.1.name.length) (recLen_le hx.name) 0
  rw [Nat.zero_mul] at hblock
  have hadd : dirAdd bs {} x = { buf := record x.1 x.2 (recLen x.1.name.length), last := 0 } := by
    rw [dirAdd]
    simp only [length_nil]
    rw [if_neg (not_not.2 hblock)]
    rfl
  rw [hadd]
  refine ⟨rfl, rfl, .nil, hx, ?_⟩
  simp only
  rw [record_length _ (le_recLen _)]
  simpa using hblock

include hlo hhi in
theorem Laid.add {y : Rec × UInt8} (h : Laid bs d xs x) (hy : y.1.Fits) :
    ∃ rl, Laid bs (dirAdd bs d y) (xs ++ [(x.1, x.2, rl)]) y := by
  have hlen := h.length
  have hpos := recLen_pos x.1.name.length
  by_cases hcross : d.buf.length / bs ≠ (d.buf.length + recLen y.1.name.length - 1) / bs
  · have hk : (d.buf.length / bs + 1) * bs = d.blockEnd bs := by
      -- a record at the start of a block does not cross its end
      have hmid : ¬ bs ∣ d.buf.length - 1 + 1 := by
        rw [Nat.sub_add_cancel (by omega)]
        rintro ⟨k, hk⟩
        rw [Nat.mul_comm] at hk
        exact hcross (hk ▸ block_of_start hlo (recLen_pos _) (recLen_le hy.name) k)
      have hdiv := @Nat.succ_div (d.buf.length - 1) bs
      rw [if_neg hmid, Nat.sub_add_cancel (by omega)] at hdiv
      rw [Db.blockEnd, hdiv]
    have hle := d.le_blockEnd hlo
    have hbuf := h.stretch hle
    have hsize := h.stretch_length hle
    refine ⟨d.blockEnd bs - d.last, ?_⟩
    have hadd : dirAdd bs d y =
        { buf := (d.stretch (d.blockEnd bs)).buf ++ record y.1 y.2 (recLen y.1.name.length)
          last := (d.stretch (d.blockEnd bs)).buf.length } := by
      rw [dirAdd, if_pos hcross, hk]
    rw [hadd]
    refine ⟨by rw [hbuf], by rw [hbuf], h.stretched hlo hhi, hy, ?_⟩
    simp only [length_append, hsize, record_length _ (le_recLen _)]
    exact block_of_start hlo (recLen_pos _) (recLen_le hy.name) _
  have hbuf : d.buf = laidOut (xs ++ [(x.1, x.2, recLen x.1.name.length)]) := by
    rw [laidOut_concat, ← h.buf]
  refine ⟨recLen x.1.name.length, ?_⟩
  have hadd : dirAdd bs d y =
      { buf := d.buf ++ record y.1 y.2 (recLen y.1.name.length), last := d.buf.length } := by
    rw [dirAdd, if_neg hcross]
  rw [hadd]
  refine ⟨by rw [← hbuf], by rw [← hbuf], .concat h.tiled ⟨h.fits, le_recLen _, ?_⟩
    (fun _ => Nat.dvd_mul_left 4 _) ?_, hy, ?_⟩
  · exact Nat.lt_of_le_of_lt (recLen_le h.fits.name) (by decide)
  · rw [← h.last, h.inside, hlen]
  simp only [length_append, record_length _ (le_recLen _)]
  exact not_not.1 hcross

include hlo hhi in
theorem Laid.fold (ys : List (Rec × UInt8)) : ∀ {d : Db} {xs : List (Rec × UInt8 × Nat)}
    {x : Rec × UInt8}, Laid bs d xs x → (∀ y ∈ ys, y.1.Fits) → ∃ xs' x', Laid bs
    (ys.foldl (dirAdd bs) d) xs' x' ∧ xs'.map (fun r => (r.1, r.2.1)) ++ [x'] = xs.map
    (fun r => (r.1, r.2.1)) ++ [x] ++ ys := by
  induction ys with
  | nil =>
    intro d xs x h _
    exact ⟨xs, x, h, by simp⟩
  | cons y ys ih =>
    intro d xs x h hys
    obtain ⟨rl, hadd⟩ := h.add hlo hhi (hys y (mem_cons_self ..))
    obtain ⟨xs', x', hlaid, hmap⟩ := ih hadd fun z hz => hys z (mem_cons_of_mem _ hz)
    refine ⟨xs', x', hlaid, ?_⟩
    rw [hmap]
    simp

include hlo hhi in
theorem dirBytes_tiled {xs : List (Rec × UInt8)} (hne : xs ≠ []) (h : ∀ x ∈ xs, x.1.Fits) :
    ∃ rs, dirBytes bs xs = laidOut rs ∧ Tiled bs rs ∧ bs ∣ (dirBytes bs xs).length ∧
      rs.map (fun r => (r.1, r.2.1)) = xs := by
  obtain ⟨x, xs, rfl⟩ := exists_cons_of_ne_nil hne
  have hfirst := Laid.first hlo (h x (mem_cons_self ..))
  obtain ⟨ys, y, hlaid, hmap⟩ := hfirst.fold hlo hhi xs
    fun z hz => h z (mem_cons_of_mem _ hz)
  rw [dirBytes, foldl_cons]
  generalize xs.foldl (dirAdd bs) (dirAdd bs {} x) = d at hlaid
  have hend : (d.buf.length + bs - 1) / bs * bs = d.blockEnd bs := by
    have hlen := hlaid.length
    have hpos := recLen_pos y.1.name.length
    rw [Db.blockEnd, ← Nat.add_div_right _ (show 0 < bs by omega)]
    congr 2
    omega
  have hle := d.le_blockEnd hlo
  rw [hend]
  refine ⟨_, hlaid.stretch hle, hlaid.stretched hlo hhi, ?_, ?_⟩
  · rw [hlaid.stretch_length hle]
    exact Nat.dvd_mul_left bs _
  · simpa using hmap

include hlo hhi in
/-- What `sync_vol` writes for a directory is what `load_dir` reads from it. -/
theorem records_dirBytes {xs : List (Rec × UInt8)} (hne : xs ≠ []) (h : ∀ x ∈ xs, x.1.Fits) :
    records (dirBytes bs xs) = xs.map (·.1) := by
  obtain ⟨rs, hrs, htiled, -, rfl⟩ := dirBytes_tiled hlo hhi hne h
  rw [hrs, records, recordsFrom_laidOut htiled.closed _ (length_le_laidOut htiled.closed), map_map]
  rfl

end

end SamaraOS.Ext2
