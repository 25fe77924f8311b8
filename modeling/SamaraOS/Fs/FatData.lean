import Mathlib

/-!
# Writing FAT clusters back

A sync hands every file and directory to `write_clusters`, which skips a cluster whose
remembered hash is that of the bytes to be written.  The memory is filled by `write_clusters`
itself and, at mount time, by `load_entry`, which hashes the file's bytes padded with zeros, not
the cluster it read.
-/

namespace SamaraOS.FatData

open Function List

abbrev Byte := Nat

def fnvStep (h b : Nat) : Nat := Nat.xor h b * 16777619 % 2 ^ 32

/-- Zero means "unknown" in `clus_hash`. -/
def fnv (bytes : List Byte) : Nat :=
  let h := bytes.foldl fnvStep 2166136261
  if h = 0 then 1 else h

theorem fnv_ne_zero (bytes : List Byte) : fnv bytes ≠ 0 := by
  unfold fnv
  dsimp only
  split_ifs with h
  · decide
  · exact h

def padTo (n : Nat) (bytes : List Byte) : List Byte :=
  bytes.take n ++ replicate (n - bytes.length) 0

theorem length_padTo (n : Nat) (bytes : List Byte) : (padTo n bytes).length = n := by
  rw [padTo, length_append, length_take, length_replicate]
  omega

/-! ## The volume -/

structure Vol where
  spc : Nat
  nclus : Nat
  /-- `fat_get` -/
  fat : Nat → Nat
  /-- the least value that `is_eoc` takes for an end mark -/
  eoc : Nat
  disk : Nat → List Byte
  clusHash : Nat → Nat
  spc_pos : 0 < spc
  disk_length : ∀ c, (disk c).length = spc * 512

def Vol.csize (v : Vol) : Nat := v.spc * 512

theorem Vol.length_disk (v : Vol) (c : Nat) : (v.disk c).length = v.csize := v.disk_length c

theorem Vol.csize_pos (v : Vol) : 0 < v.csize := Nat.mul_pos v.spc_pos (by decide)

def readChain (v : Vol) (size : Nat) : Nat → Nat → Nat → List Nat
  | 0, _, _ => []
  | fuel + 1, n, c =>
    if 2 ≤ c ∧ c < v.nclus + 2 then
      c :: (if size ≠ 0 ∧ size ≤ (n + 1) * v.csize then []
        else if v.eoc ≤ v.fat c ∨ v.fat c < 2 then []
        else readChain v size fuel (n + 1) (v.fat c))
    else []

def loaded (v : Vol) (size i c : Nat) : List Byte :=
  padTo v.csize ((v.disk c).take (size - i * v.csize))

def record (v : Vol) (size : Nat) : Nat → List Nat → (Nat → Nat) → Nat → Nat
  | _, [], hash => hash
  | i, c :: cs, hash =>
    record v size (i + 1) cs (update hash c (fnv (loaded v size i c)))

def chainMax : Nat := 2 ^ 20

def loadEntry (v : Vol) (first size : Nat) (scratch : Bool) : Vol :=
  if size ≠ 0 ∧ 2 ≤ first ∧ scratch = true then
    { v with clusHash := record v size 0 (readChain v size chainMax 0 first) v.clusHash }
  else v

def clusters (v : Vol) (data : List Byte) : Nat := (data.length + v.csize - 1) / v.csize

def source (v : Vol) (data : List Byte) (i : Nat) : List Byte :=
  padTo v.csize ((data.take (data.length % 2 ^ 32)).drop (i * v.csize % 2 ^ 32))

def block (v : Vol) (data : List Byte) (i : Nat) : List Byte :=
  padTo v.csize (data.drop (i * v.csize))

def Vol.put (v : Vol) (c : Nat) (bytes : List Byte) (h : bytes.length = v.csize) : Vol :=
  { v with
    disk := update v.disk c bytes
    clusHash := update v.clusHash c (fnv bytes)
    disk_length := by
      intro c'
      by_cases hc : c' = c
      · subst hc
        rw [update_self]
        exact h
      rw [update_of_ne hc]
      exact v.disk_length c' }

/-- One turn of the loop of `write_clusters`; `ok` is the answer of `ata_write`. -/
def writeCluster (v : Vol) (c : Nat) (bytes : List Byte) (h : bytes.length = v.csize) (ok : Bool) :
    Option Vol :=
  if v.clusHash c = fnv bytes then some v
  else if ok then some (v.put c bytes h)
  else none

theorem length_source (v : Vol) (data : List Byte) (i : Nat) : (source v data i).length = v.csize :=
  length_padTo _ _

def writeFrom (first : Nat) (data : List Byte) (ok : Nat → Bool) : Nat → Nat → Vol → Vol × Bool
  | 0, _, v => (v, true)
  | k + 1, i, v =>
    match writeCluster v (first + i) (source v data i) (length_source v data i) (ok i) with
    | none => (v, false)
    | some v' => writeFrom first data ok k (i + 1) v'

def writeClusters (v : Vol) (first : Nat) (data : List Byte) (ok : Nat → Bool) : Vol × Bool :=
  writeFrom first data ok (clusters v data) 0 v

/-- Files change in memory as they like, so a write takes any bytes.  `mount` forgets the hashes
and reads the FAT again; `sync` ends with a new FAT. -/
inductive Op
  | mount (fat : Nat → Nat)
  | load (first size : Nat) (scratch : Bool)
  | write (first : Nat) (data : List Byte) (ok : Nat → Bool)
  | newFat (fat : Nat → Nat)

def step (v : Vol) : Op → Vol
  | .mount fat => { v with fat := fat, clusHash := fun _ => 0 }
  | .load first size scratch => loadEntry v first size scratch
  | .write first data ok => (writeClusters v first data ok).1
  | .newFat fat => { v with fat := fat }

def run (v : Vol) (ops : List Op) : Vol := ops.foldl step v

def ZeroSlack (v : Vol) (first size : Nat) : Prop :=
  ∀ c i, (readChain v size chainMax 0 first)[i]? = some c →
    ∀ b ∈ (v.disk c).drop (size - i * v.csize), b = 0

/-- The new bytes of a cluster do not have the hash of other bytes on the disk. -/
def NoCollision (v : Vol) (first : Nat) (data : List Byte) : Prop :=
  ∀ i < clusters v data,
    fnv (v.disk (first + i)) = fnv (block v data i) → v.disk (first + i) = block v data i

def OpOk (v : Vol) : Op → Prop
  -- the 32-bit products of `read_chain` do not wrap
  | .load first size _ => size + v.csize ≤ 2 ^ 32 ∧ ZeroSlack v first size
  | .write first data _ => data.length < 2 ^ 32 ∧ NoCollision v first data
  | _ => True

def RunOk : Vol → List Op → Prop
  | _, [] => True
  | v, op :: ops => OpOk v op ∧ RunOk (step v op) ops

def Remembers (v : Vol) : Prop := ∀ c, v.clusHash c ≠ 0 → v.clusHash c = fnv (v.disk c)

variable {bytes : List Byte} {ops : List Op} {op : Op} {size : Nat}

theorem padTo_take {n k : Nat} (hn : bytes.length = n)
    (hzero : ∀ b ∈ bytes.drop k, b = 0) : padTo n (bytes.take k) = bytes := by
  have htail : bytes.drop k = replicate (n - k) 0 :=
    eq_replicate_iff.2 ⟨by rw [length_drop, hn], hzero⟩
  rw [padTo, take_take, length_take, hn, show n - min k n = n - k by omega, ← htail]
  rcases Nat.le_total k n with hk | hk
  · rw [Nat.min_eq_right hk, take_append_drop]
  rw [Nat.min_eq_left hk, take_of_length_le (by omega), drop_eq_nil_of_le (by omega), append_nil]

theorem record_remembers {v : Vol} {cs : List Nat} {i : Nat} {hash : Nat → Nat}
    (hcs : ∀ c j, cs[j]? = some c → ∀ b ∈ (v.disk c).drop (size - (i + j) * v.csize), b = 0)
    (h : ∀ c, hash c ≠ 0 → hash c = fnv (v.disk c)) (c : Nat)
    (hc : record v size i cs hash c ≠ 0) : record v size i cs hash c = fnv (v.disk c) := by
  induction cs generalizing i hash with
  | nil => exact h c hc
  | cons d cs ih =>
    refine ih (i := i + 1) (fun c' j hj => ?_) (fun c' hc' => ?_) hc
    · have hnext := hcs c' (j + 1) (by simpa using hj)
      rwa [show i + (j + 1) = i + 1 + j by omega] at hnext
    by_cases hd : c' = d
    · subst hd
      have hfirst := hcs c' 0 (by simp)
      rw [Nat.add_zero] at hfirst
      rw [update_self, loaded, padTo_take (v.length_disk c') hfirst]
    rw [update_of_ne hd] at hc' ⊢
    exact h c' hc'

theorem Remembers.load {v : Vol} (h : Remembers v) {first : Nat}
    (hslack : ZeroSlack v first size) (scratch : Bool) :
    Remembers (loadEntry v first size scratch) := by
  unfold loadEntry
  split_ifs
  · refine record_remembers (fun c j hj => ?_) h
    rw [Nat.zero_add]
    exact hslack c j hj
  · exact h

theorem source_eq_block {v : Vol} {data : List Byte} (hlen : data.length < 2 ^ 32) {i : Nat}
    (hi : i < clusters v data) : source v data i = block v data i := by
  have hoff : i * v.csize < data.length := by
    have hpos := v.csize_pos
    have hle : (i + 1) * v.csize ≤ data.length + v.csize - 1 :=
      (Nat.le_div_iff_mul_le hpos).1 hi
    rw [Nat.succ_mul] at hle
    omega
  rw [source, block, Nat.mod_eq_of_lt hlen, take_length, Nat.mod_eq_of_lt (by omega)]

theorem Remembers.put {v : Vol} (h : Remembers v) {c : Nat} (hb : bytes.length = v.csize) : Remembers (v.put c bytes hb) := by
  intro c' hc'
  unfold Vol.put at hc' ⊢
  dsimp only at hc' ⊢
  by_cases hc : c' = c
  · subst hc
    rw [update_self, update_self]
  rw [update_of_ne hc] at hc' ⊢
  rw [update_of_ne hc]
  exact h c' hc'

theorem writeCluster_spec {v v' : Vol} (h : Remembers v) {c : Nat} {hb : bytes.length = v.csize} {ok : Bool}
    (hcoll : fnv (v.disk c) = fnv bytes → v.disk c = bytes)
    (hw : writeCluster v c bytes hb ok = some v') :
    Remembers v' ∧ v'.spc = v.spc ∧ v'.disk = update v.disk c bytes := by
  unfold writeCluster at hw
  split_ifs at hw with hsame hok
  · obtain rfl := Option.some.inj hw
    refine ⟨h, rfl, ?_⟩
    have hne : v.clusHash c ≠ 0 := by
      rw [hsame]
      exact fnv_ne_zero bytes
    have hdisk : v.disk c = bytes := hcoll ((h c hne).symm.trans hsame)
    rw [← hdisk, update_eq_self]
  obtain rfl := Option.some.inj hw
  exact ⟨h.put hb, rfl, rfl⟩

/-! ## The whole loop -/

theorem block_congr {v v' : Vol} (h : v'.spc = v.spc) (data : List Byte) (i : Nat) :
    block v' data i = block v data i ∧ source v' data i = source v data i := by
  simp [block, source, Vol.csize, h]

theorem writeFrom_spec {first : Nat} {data : List Byte} {ok : Nat → Bool} {k i : Nat} {v : Vol}
    (h : Remembers v) (hsrc : ∀ j, i ≤ j → j < i + k → source v data j = block v data j)
    (hcoll : ∀ j, i ≤ j → j < i + k →
      fnv (v.disk (first + j)) = fnv (block v data j) → v.disk (first + j) = block v data j) :
    Remembers (writeFrom first data ok k i v).1 ∧
      (∀ c, c < first + i → (writeFrom first data ok k i v).1.disk c = v.disk c) ∧
      ((writeFrom first data ok k i v).2 = true → ∀ j, i ≤ j → j < i + k →
        (writeFrom first data ok k i v).1.disk (first + j) = block v data j) := by
  induction k generalizing i v with
  | zero => exact ⟨h, fun _ _ => rfl, fun _ j hj hj' => by omega⟩
  | succ k ih =>
    rw [writeFrom]
    cases hw : writeCluster v (first + i) (source v data i) (length_source v data i) (ok i) with
    | none => exact ⟨h, fun _ _ => rfl, fun hfalse => by simp at hfalse⟩
    | some v' =>
      have hi := hsrc i (by omega) (by omega)
      obtain ⟨h', hspc, hdisk⟩ := writeCluster_spec h (by
        rw [hi]
        exact hcoll i (by omega) (by omega)) hw
      -- the clusters still to come are as they were
      have hlater : ∀ j, i + 1 ≤ j → v'.disk (first + j) = v.disk (first + j) := by
        intro j hj
        rw [hdisk, update_of_ne (by omega)]
      obtain ⟨hrem, hbefore, hafter⟩ := ih (i := i + 1) h' (fun j hj hj' => by
          rw [(block_congr hspc data j).1, (block_congr hspc data j).2]
          exact hsrc j (by omega) (by omega))
        (fun j hj hj' => by
          rw [(block_congr hspc data j).1, hlater j hj]
          exact hcoll j (by omega) (by omega))
      refine ⟨hrem, fun c hc => ?_, fun hok j hj hj' => ?_⟩
      · rw [hbefore c (by omega), hdisk, update_of_ne (by omega)]
      rcases Nat.eq_or_lt_of_le hj with rfl | hlt
      · rw [hbefore _ (by omega), hdisk, update_self, hi]
      · rw [hafter hok j hlt (by omega), (block_congr hspc data j).1]

theorem writeClusters_spec {v : Vol} (h : Remembers v) {first : Nat} {data : List Byte}
    (hlen : data.length < 2 ^ 32) (hcoll : NoCollision v first data) (ok : Nat → Bool) :
    Remembers (writeClusters v first data ok).1 ∧
      ((writeClusters v first data ok).2 = true → ∀ i < clusters v data,
        (writeClusters v first data ok).1.disk (first + i) = block v data i) := by
  obtain ⟨hrem, -, hblocks⟩ := @writeFrom_spec first data ok (clusters v data) 0 v h
    (fun j _ hj => source_eq_block hlen (by omega))
    (fun j _ hj => hcoll j (by omega))
  exact ⟨hrem, fun hok i hi => hblocks hok i (by omega) (by omega)⟩

theorem writeFrom_spc (first : Nat) (data : List Byte) (ok : Nat → Bool) (k i : Nat) (v : Vol) :
    (writeFrom first data ok k i v).1.spc = v.spc := by
  induction k generalizing i v with
  | zero => rfl
  | succ k ih =>
    rw [writeFrom]
    cases hw : writeCluster v (first + i) (source v data i) (length_source v data i) (ok i) with
    | none => rfl
    | some v' =>
      have hspc : v'.spc = v.spc := by
        unfold writeCluster at hw
        split_ifs at hw
        · rw [Option.some.inj hw]
        rw [← Option.some.inj hw]
        rfl
      exact (ih (i + 1) v').trans hspc

theorem step_spc (v : Vol) (op : Op) : (step v op).spc = v.spc := by
  cases op with
  | mount fat | newFat fat => rfl
  | load first size scratch =>
    rw [step, loadEntry]
    split_ifs <;> rfl
  | write first data ok => exact writeFrom_spc first data ok _ 0 v

theorem run_spc (v : Vol) (ops : List Op) : (run v ops).spc = v.spc := by
  induction ops generalizing v with
  | nil => rfl
  | cons op ops ih => exact (ih (step v op)).trans (step_spc v op)

theorem Remembers.step {v : Vol} (h : Remembers v) (hop : OpOk v op) :
    Remembers (step v op) := by
  cases op with
  | mount fat => exact fun c hc => absurd rfl hc
  | load first size scratch => exact h.load hop.2 scratch
  | write first data ok => exact (writeClusters_spec h hop.1 hop.2 ok).1
  | newFat fat => exact h

theorem Remembers.run {v : Vol} (h : Remembers v) (hops : RunOk v ops) :
    Remembers (run v ops) := by
  induction ops generalizing v with
  | nil => exact h
  | cons op ops ih => exact ih (h.step hops.1) hops.2

theorem runOk_append {v : Vol} (h : RunOk v (ops ++ [op])) :
    RunOk v ops ∧ OpOk (FatData.run v ops) op := by
  induction ops generalizing v with
  | nil => exact ⟨trivial, h.1⟩
  | cons o ops ih =>
    obtain ⟨hrest, hlast⟩ := ih h.2
    exact ⟨⟨h.1, hrest⟩, hlast⟩

/-- In every history of a mounted volume whose loads meet zero slack and whose writes meet no hash
collision, a write that returns 0 leaves the file's bytes, padded with zeros, in its clusters. -/
theorem write_back (v : Vol) (fat : Nat → Nat) (ops : List Op) (first : Nat) (data : List Byte)
    (ok : Nat → Bool) (h : RunOk v (.mount fat :: ops ++ [.write first data ok]))
    (hret : (writeClusters (run v (.mount fat :: ops)) first data ok).2 = true) :
    ∀ i < (data.length + v.csize - 1) / v.csize,
      (run v (.mount fat :: ops ++ [.write first data ok])).disk (first + i) =
        padTo v.csize (data.drop (i * v.csize)) := by
  obtain ⟨hops, hlast⟩ := runOk_append h
  have hmount : Remembers (step v (.mount fat)) := fun c hc => absurd rfl hc
  have hrem : Remembers (run v (.mount fat :: ops)) := hmount.run hops.2
  have hcsize : (run v (.mount fat :: ops)).csize = v.csize := by
    rw [Vol.csize, Vol.csize, run_spc]
  have hblocks := (writeClusters_spec hrem hlast.1 hlast.2 ok).2 hret
  rw [clusters, hcsize] at hblocks
  intro i hi
  have hrun : run v (.mount fat :: ops ++ [.write first data ok]) =
      (writeClusters (run v (.mount fat :: ops)) first data ok).1 := foldl_append
  rw [hrun, hblocks i hi, block, hcsize]

def filledWith (bytes : List Byte) (h : bytes.length = 512) : Vol :=
  ⟨1, 16, fun _ => 0xFFFF, 0xFFF8, fun _ => bytes, fun _ => 0, by decide, fun _ => h⟩

def sevens : Vol := filledWith (replicate 512 7) (by decide +kernel)

theorem sevens_zeroSlack : ZeroSlack (step sevens (.mount fun _ => 0xFFFF)) 2 512 := by
  have hchain : readChain (step sevens (.mount fun _ => 0xFFFF)) 512 chainMax 0 2 = [2] := by
    decide +kernel
  intro c i hi
  rw [hchain] at hi
  obtain ⟨rfl, rfl⟩ : i = 0 ∧ c = 2 := by
    cases i with
    | zero => simpa using hi.symm
    | succ i => simp at hi
  have hempty : ((step sevens (.mount fun _ => 0xFFFF)).disk 2).drop
      (512 - 0 * (step sevens (.mount fun _ => 0xFFFF)).csize) = [] := by
    decide +kernel
  rw [hempty]
  simp

theorem sevens_noCollision : NoCollision (run sevens [.mount fun _ => 0xFFFF, .load 2 512 true]) 2
      (replicate 512 9) := by
  unfold NoCollision
  decide +kernel

theorem write_back_sevens :
    (run sevens (.mount (fun _ => 0xFFFF) :: [.load 2 512 true] ++
      [.write 2 (replicate 512 9) fun _ => true])).disk (2 + 0) =
        padTo sevens.csize ((replicate 512 9).drop (0 * sevens.csize)) :=
  write_back sevens (fun _ => 0xFFFF) [.load 2 512 true] 2 (replicate 512 9) (fun _ => true)
    ⟨trivial, ⟨by decide, sevens_zeroSlack⟩, ⟨by decide +kernel, sevens_noCollision⟩, trivial⟩
    (by decide +kernel) 0 (by decide +kernel)

def stale : Vol := filledWith ([104, 105] ++ replicate 510 0xFF) (by decide +kernel)

/-- A two-byte file with stale bytes behind its end is loaded and extended by two zeros.  The write
returns 0 and the disk keeps the stale bytes, now inside the file. -/
theorem write_back_skipped :
    (writeClusters (run stale [.mount fun _ => 0xFFFF, .load 2 2 true]) 2 [104, 105, 0, 0]
        fun _ => true).2 = true ∧
      (run stale [.mount fun _ => 0xFFFF, .load 2 2 true,
        .write 2 [104, 105, 0, 0] fun _ => true]).disk 2 = [104, 105] ++ replicate 510 0xFF ∧
      [104, 105] ++ replicate 510 0xFF ≠ padTo stale.csize [104, 105, 0, 0] := by
  decide +kernel

end SamaraOS.FatData
