import SamaraOS.Fs.Ext2PutBlocks

/-!
# Write-back of an ext2 volume (ext2.c)

`sync_vol` with its error paths, the flag that says that a volume has changes, and the two
callers that clear it.  What the tree asks to be written is the argument of a sync: the
blocks of every entry, then the inode tables, bitmaps and descriptors, which depend on the
entries that went through and on what the rest of the sync gets, and the superblock.  The layout of
those blocks is left out.
-/

namespace SamaraOS.Ext2

open Function List

abbrev Write := Nat × List UInt8

/-- What `sync_vol` gets after the entries.  Nothing of it is an error when it is missing. -/
structure Tail where
  /-- Which of the blocks of inode tables can not be read; their inodes are left out. -/
  unread : List Nat := []
  /-- There is memory to count the directories of the groups. -/
  dirs : Bool := true
  /-- There is memory for the descriptors; without it they are not written. -/
  gbuf : Bool := true
  deriving DecidableEq, Repr

structure Plan where
  ents : List (List Write)
  /-- For the entries that were written. -/
  tables : List Bool → Tail → List Write
  superAt : Nat
  super : List UInt8

def Plan.written (p : Plan) : List Bool := p.ents.map fun _ => true

def Plan.writes (p : Plan) : List Write := p.ents.flatten ++ p.tables p.written {}

def Plan.OnDisk (p : Plan) (v : Vol) : Prop :=
  (∀ w ∈ p.writes, v.disk w.1 = w.2) ∧ v.disk p.superAt = p.super

structure SyncMem where
  maps : Bool
  rebuild : Bool
  rebuild' : Bool
  /-- Whether there is room for the buffers of an entry. -/
  bufs : List Bool := []
  /-- The group descriptors in memory are those of the mount. -/
  intact : Bool := true
  tail : Tail := {}

/-- Nothing is wanting. -/
structure SyncMem.Full (m : SyncMem) : Prop where
  maps : m.maps = true
  rebuild : m.rebuild = true
  rebuild' : m.rebuild' = true
  bufs : ∀ b ∈ m.bufs, b = true
  intact : m.intact = true
  tail : m.tail = {}

section

variable (g : Geo)

def syncEnts : List (List Write) → List Bool → Vol → Vol × List Bool × Bool
  | [], _, v => (v, [], true)
  | ws :: ents, bufs, v =>
    if bufs.headD true then
      let r := wdataAll g ws v
      let rest := syncEnts ents bufs.tail r.1
      (rest.1, r.2 :: rest.2.1, r.2 && rest.2.2)
    else (v, (ws :: ents).map fun _ => false, false)

def syncTables (ws : List Write) (v : Vol) : Vol := ws.foldl (fun v w => (wblk v w.1 w.2).1) v

inductive Outcome where
  | ok
  | failed
  /-- Failed, and the volume is read-only from now on. -/
  | readOnly
  deriving DecidableEq, Repr

def syncVol (p : Plan) (m : SyncMem) (v : Vol) : Vol × Outcome :=
  if !m.maps then (v, .failed)
  else if !m.rebuild then (v, .failed)
  else if !m.rebuild' then (v, .readOnly)
  else
    let r := syncEnts g p.ents m.bufs v
    if !m.intact then (r.1, .readOnly)
    else
      let v := syncTables (p.tables r.2.1 m.tail) r.1
      let v := (ataWrite v p.superAt p.super).1
      (v, if r.2.2 then .ok else .failed)

end

structure Mounted where
  vol : Vol
  plan : Plan
  ro : Bool := false
  dirty : Bool := false
  dirtyMs : Nat := 0
  dirtySince : Nat := 0

section

variable (g : Geo) (s : Mounted)

def change (p : Plan) (now : Nat) : Mounted :=
  if s.ro then s
  else
    { s with
      plan := p
      dirtySince := if s.dirty then s.dirtySince else now
      dirty := true
      dirtyMs := now }

def runSync (m : SyncMem) : Mounted × Outcome :=
  let r := syncVol g s.plan m s.vol
  ({ s with vol := r.1, dirty := false, ro := s.ro || r.2 = .readOnly }, r.2)

def syncAll (m : SyncMem) (io : List Bool) : Mounted :=
  if s.dirty then (runSync g { s with vol := { s.vol with io := io } } m).1 else s

def due (now : Nat) (hurry : Bool) : Bool :=
  s.dirty && (1000 < (now + 2 ^ 32 - s.dirtyMs % 2 ^ 32) % 2 ^ 32 ||
    3000 < (now + 2 ^ 32 - s.dirtySince % 2 ^ 32) % 2 ^ 32 || hurry)

def daemon (m : SyncMem) (io : List Bool) (now : Nat) (hurry other : Bool) : Mounted :=
  if (due s now hurry || other) && s.dirty then
    let r := runSync g { s with vol := { s.vol with io := io } } m
    if r.2 ≠ .ok ∧ r.1.ro = false then { r.1 with dirty := true } else r.1
  else s

end

inductive SyncEvent where
  | change (p : Plan) (now : Nat)
  | syncAll (m : SyncMem) (io : List Bool)
  | daemon (m : SyncMem) (io : List Bool) (now : Nat) (hurry other : Bool)

def syncNext (g : Geo) (s : Mounted) : SyncEvent → Mounted
  | .change p now => change s p now
  | .syncAll m io => syncAll g s m io
  | .daemon m io now hurry other => daemon g s m io now hurry other

def syncPlay (g : Geo) (s : Mounted) (events : List SyncEvent) : Mounted :=
  events.foldl (syncNext g) s

/-! ## Writes that take effect -/

/-- Every write of the plan takes effect: the disk has no errors, and no write is skipped
for a hash while the block has something else. -/
structure Trusty (g : Geo) (p : Plan) (v : Vol) : Prop where
  works : ∀ b ∈ v.io, b = false
  apart : (p.writes.map Prod.fst).Nodup
  super : p.superAt ∉ p.writes.map Prod.fst
  data : ∀ w ∈ p.ents.flatten, isMeta g w.1 = false
  hashes : ∀ w ∈ p.writes, v.bhash w.1 = fnv w.2 → v.disk w.1 = w.2

section

variable {g : Geo} {v : Vol}

theorem headD_works {io : List Bool} (h : ∀ b ∈ io, b = false) : io.headD false = false := by
  cases io with
  | nil => rfl
  | cons b io => exact h b mem_cons_self

theorem wblk_takes (w : Write) (hio : ∀ b ∈ v.io, b = false)
    (hh : v.bhash w.1 = fnv w.2 → v.disk w.1 = w.2) :
    (wblk v w.1 w.2).2 = true ∧ (wblk v w.1 w.2).1.disk w.1 = w.2 ∧
      (∀ b ∈ (wblk v w.1 w.2).1.io, b = false) ∧
      ∀ b ≠ w.1, (wblk v w.1 w.2).1.disk b = v.disk b ∧ (wblk v w.1 w.2).1.bhash b = v.bhash b := by
  unfold wblk
  simp only
  split
  next heq => exact ⟨rfl, hh heq, hio, fun _ _ => ⟨rfl, rfl⟩⟩
  simp only [ataWrite, headD_works hio, Bool.false_eq_true, if_false]
  refine ⟨trivial, update_self .., fun b hb => hio b (mem_of_mem_tail hb), fun b hb => ?_⟩
  exact ⟨update_of_ne hb .., update_of_ne hb ..⟩

structure Left (v : Vol) (done left : List Write) : Prop where
  works : ∀ b ∈ v.io, b = false
  there : ∀ w ∈ done, v.disk w.1 = w.2
  apart : ((done ++ left).map Prod.fst).Nodup
  hashes : ∀ w ∈ left, v.bhash w.1 = fnv w.2 → v.disk w.1 = w.2

theorem Left.wblk {done left : List Write} {w : Write} (h : Left v done (w :: left)) :
    Left (Ext2.wblk v w.1 w.2).1 (done ++ [w]) left ∧ (Ext2.wblk v w.1 w.2).2 = true := by
  obtain ⟨hok, hdisk, hio, hother⟩ := wblk_takes w h.works (h.hashes w mem_cons_self)
  have hne : ∀ x ∈ done ++ left, x.1 ≠ w.1 := by
    have hn := h.apart
    rw [map_append, map_cons, nodup_append, nodup_cons] at hn
    intro x hx heq
    rcases mem_append.1 hx with hx | hx
    · exact hn.2.2 x.1 (mem_map_of_mem hx) w.1 (by simp) heq
    · exact hn.2.1.1 (heq ▸ mem_map_of_mem hx)
  refine ⟨⟨hio, fun x hx => ?_, by simpa using h.apart, fun x hx => ?_⟩, hok⟩
  · rcases mem_append.1 hx with hx | hx
    · rw [(hother x.1 (hne x (mem_append_left _ hx))).1]
      exact h.there x hx
    rw [mem_singleton.1 hx]
    exact hdisk
  obtain ⟨hd, hb⟩ := hother x.1 (hne x (mem_append_right _ hx))
  rw [hd, hb]
  exact h.hashes x (mem_cons_of_mem _ hx)

theorem Left.wdataAll {done left ws : List Write} (h : Left v done (ws ++ left))
    (hdata : ∀ w ∈ ws, isMeta g w.1 = false) :
    Left (Ext2.wdataAll g ws v).1 (done ++ ws) left ∧ (Ext2.wdataAll g ws v).2 = true := by
  induction ws generalizing v done with
  | nil => simpa [Ext2.wdataAll] using h
  | cons w ws ih =>
    obtain ⟨b, buf⟩ := w
    obtain ⟨hleft, hok⟩ := h.wblk
    have hw : wdata g v b buf = Ext2.wblk v b buf := by
      rw [wdata, hdata (b, buf) mem_cons_self]
      rfl
    obtain ⟨hrest, hrok⟩ := ih hleft fun x hx => hdata x (mem_cons_of_mem _ hx)
    rw [Ext2.wdataAll]
    simp only [hw]
    rw [if_pos hok]
    exact ⟨by simpa using hrest, hrok⟩

theorem Left.syncTables {done ws : List Write} (h : Left v done ws) :
    Left (Ext2.syncTables ws v) (done ++ ws) [] := by
  induction ws generalizing v done with
  | nil => simpa [Ext2.syncTables] using h
  | cons w ws ih =>
    have hrest := ih h.wblk.1
    rw [append_assoc, singleton_append] at hrest
    exact hrest

theorem Left.syncEnts {done left : List Write} {ents : List (List Write)} {bufs : List Bool}
    (h : Left v done (ents.flatten ++ left)) (hdata : ∀ w ∈ ents.flatten, isMeta g w.1 = false)
    (hok : (syncEnts g ents bufs v).2.2 = true) :
    Left (Ext2.syncEnts g ents bufs v).1 (done ++ ents.flatten) left ∧
      (Ext2.syncEnts g ents bufs v).2.1 = ents.map fun _ => true := by
  induction ents generalizing v done bufs with
  | nil => simpa [Ext2.syncEnts] using h
  | cons ws ents ih =>
    rw [Ext2.syncEnts] at hok ⊢
    split at hok
    next hbuf =>
      rw [if_pos hbuf]
      rw [flatten_cons, append_assoc] at h
      obtain ⟨hws, hwok⟩ := h.wdataAll fun w hw => hdata w (mem_append_left _ hw)
      simp only [hwok, Bool.true_and] at hok ⊢
      obtain ⟨hrest, hres⟩ := ih hws (fun w hw => hdata w (mem_append_right _ hw)) hok
      exact ⟨by simpa using hrest, by simp [hres]⟩
    · cases hok

theorem Left.syncEnts_ok {done left : List Write} {ents : List (List Write)} {bufs : List Bool}
    (h : Left v done (ents.flatten ++ left)) (hdata : ∀ w ∈ ents.flatten, isMeta g w.1 = false)
    (hbufs : ∀ b ∈ bufs, b = true) : (Ext2.syncEnts g ents bufs v).2.2 = true := by
  induction ents generalizing v done bufs with
  | nil => rfl
  | cons ws ents ih =>
    have hbuf : bufs.headD true = true := by
      cases bufs with
      | nil => rfl
      | cons b bufs => exact hbufs b mem_cons_self
    rw [Ext2.syncEnts, if_pos hbuf]
    rw [flatten_cons, append_assoc] at h
    obtain ⟨hws, hwok⟩ := h.wdataAll fun w hw => hdata w (mem_append_left _ hw)
    simp only [hwok, Bool.true_and]
    exact ih hws (fun w hw => hdata w (mem_append_right _ hw)) fun b hb =>
      hbufs b (mem_of_mem_tail hb)

theorem Trusty.left {p : Plan} (h : Trusty g p v) :
    Left v [] (p.ents.flatten ++ p.tables p.written {}) :=
  ⟨h.works, by simp, h.apart, h.hashes⟩

theorem syncVol_ok {p : Plan} {m : SyncMem} (h : Trusty g p v) (hm : m.Full) :
    (syncVol g p m v).2 = .ok := by
  simp [syncVol, hm.maps, hm.rebuild, hm.rebuild', hm.intact, h.left.syncEnts_ok h.data hm.bufs]

theorem syncVol_onDisk {p : Plan} {m : SyncMem} (h : Trusty g p v) (htail : m.tail = {})
    (hok : (syncVol g p m v).2 = .ok) : p.OnDisk (syncVol g p m v).1 := by
  unfold syncVol at hok ⊢
  split at hok
  · cases hok
  split at hok
  · cases hok
  split at hok
  · cases hok
  next hmaps hr hr' =>
  rw [if_neg hmaps, if_neg hr, if_neg hr']
  simp only at hok ⊢
  split at hok
  · cases hok
  next hintact =>
  rw [if_neg hintact, htail]
  split at hok
  swap
  · cases hok
  next hents =>
  obtain ⟨hdone, hres⟩ := h.left.syncEnts h.data hents
  have hwritten : p.written = (Ext2.syncEnts g p.ents m.bufs v).2.1 := hres.symm
  have htables := hdone.syncTables
  rw [hwritten, nil_append] at htables
  simp only [ataWrite, headD_works htables.works, Bool.false_eq_true, if_false]
  refine ⟨fun w hw => ?_, update_self ..⟩
  have hne : w.1 ≠ p.superAt := fun heq => h.super (heq ▸ mem_map_of_mem hw)
  rw [Plan.writes, hwritten] at hw
  exact (update_of_ne hne _ _).trans (htables.there w hw)

end

/-! ## Runs -/

/-- The writes of a sync take effect; one by `ext2_sync_all` gets all it needs, and one by the
daemon may want for the memory whose lack is an error. -/
def SyncOk (g : Geo) (s : Mounted) : SyncEvent → Prop
  | .change _ _ => True
  | .syncAll m io => s.dirty = true → Trusty g s.plan { s.vol with io := io } ∧ m.Full
  | .daemon m io _ _ _ => s.dirty = true → Trusty g s.plan { s.vol with io := io } ∧
      m.rebuild' = true ∧ m.intact = true ∧ m.tail = {}

def SyncOkRun (g : Geo) (s : Mounted) : List SyncEvent → Prop
  | [] => True
  | e :: events => SyncOk g s e ∧ SyncOkRun g (syncNext g s e) events

/-- The tree is on the disk, or the volume is dirty and can be written. -/
def Remembered (s : Mounted) : Prop := s.ro = false ∧ (s.dirty = true ∨ s.plan.OnDisk s.vol)

section

variable {g : Geo} {s : Mounted}

theorem syncVol_not_readOnly (p : Plan) (v : Vol) {m : SyncMem} (hr : m.rebuild' = true)
    (hi : m.intact = true) : (syncVol g p m v).2 ≠ .readOnly := by
  unfold syncVol
  split
  · simp
  split
  · simp
  simp only [hr, hi, Bool.not_true, Bool.false_eq_true, if_false]
  split <;> simp

theorem Remembered.next (h : Remembered s) {e : SyncEvent} (hok : SyncOk g s e) :
    Remembered (syncNext g s e) := by
  cases e with
  | change p now =>
    simp only [syncNext, change, h.1, Bool.false_eq_true, if_false]
    exact ⟨rfl, .inl rfl⟩
  | syncAll m io =>
    simp only [syncNext, syncAll]
    split
    next hd =>
      obtain ⟨htrust, hm⟩ := hok hd
      have hsync := syncVol_ok htrust hm
      refine ⟨?_, .inr (syncVol_onDisk htrust hm.tail hsync)⟩
      simp only [runSync, h.1, hsync]
      rfl
    · exact h
  | daemon m io now hurry other =>
    simp only [syncNext, daemon]
    split
    swap
    · exact h
    next hc =>
    rw [Bool.and_eq_true] at hc
    obtain ⟨htrust, hr, hi, htail⟩ := hok hc.2
    have hro := syncVol_not_readOnly (g := g) s.plan { s.vol with io := io } hr hi
    have hrw : (runSync g { s with vol := { s.vol with io := io } } m).1.ro = false := by
      simp [runSync, h.1, hro]
    split
    · exact ⟨hrw, .inl rfl⟩
    next hne =>
    have hsync : (syncVol g s.plan m { s.vol with io := io }).2 = .ok := by
      by_contra hbad
      exact hne ⟨hbad, hrw⟩
    exact ⟨hrw, .inr (syncVol_onDisk htrust htail hsync)⟩

theorem Remembered.play (h : Remembered s) {events : List SyncEvent}
    (hok : SyncOkRun g s events) : Remembered (syncPlay g s events) := by
  induction events generalizing s with
  | nil => exact h
  | cons e events ih => exact ih (h.next hok.1) hok.2

theorem daemon_onDisk {m : SyncMem} {io : List Bool} {now : Nat} (hurry other : Bool)
    (hd : s.dirty = true) (hquiet : 1000 < (now + 2 ^ 32 - s.dirtyMs % 2 ^ 32) % 2 ^ 32)
    (htrust : Trusty g s.plan { s.vol with io := io }) (hm : m.Full) :
    (daemon g s m io now hurry other).plan = s.plan ∧
      s.plan.OnDisk (daemon g s m io now hurry other).vol := by
  have hdue : due s now hurry = true := by
    rw [due, hd, decide_eq_true hquiet]
    rfl
  have hout : (runSync g { s with vol := { s.vol with io := io } } m).2 = .ok :=
    syncVol_ok htrust hm
  unfold daemon
  rw [if_pos (by simp [hdue, hd])]
  rw [if_neg fun hc => hc.1 hout]
  exact ⟨rfl, syncVol_onDisk htrust hm.tail hout⟩

end

def onePlan : Plan where
  ents := [[(10, [7])]]
  tables := fun ok tail => if ok = [true] ∧ tail = {} then [(5, [2])] else [(5, [1])]
  superAt := 1
  super := [3]

def freshMount : Mounted where
  vol := { smallVol with io := [] }
  plan := ⟨[], fun _ _ => [], 1, []⟩

def plenty : SyncMem := { maps := true, rebuild := true, rebuild' := true }

def shortRun : List SyncEvent :=
  [.change onePlan 0, .daemon { plenty with maps := false } [] 5000 false false]

theorem remembered_fresh : Remembered freshMount := ⟨rfl, .inr (by constructor <;> decide +kernel)⟩

theorem syncOkRun_short : SyncOkRun smallGeo freshMount shortRun :=
  ⟨trivial, fun _ => ⟨by constructor <;> decide +kernel, rfl, rfl, rfl⟩, trivial⟩

def failedAll : List SyncEvent :=
  [.change onePlan 0, .syncAll plenty [true], .daemon plenty [] 5000 true true,
    .syncAll plenty [], .daemon plenty [] 10000 true true]

def failedDaemon : List SyncEvent :=
  [.change onePlan 0, .daemon plenty [true] 5000 true true, .daemon plenty [] 10000 true true]

end SamaraOS.Ext2
