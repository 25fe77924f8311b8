import SamaraOS.Core.PageCacheInv

/-!
# What the page cache may drop

`pc_reclaim` drops pages that nobody maps, of records that are not shared.  Such a page has
nothing to write back as long as `pc_sync_all` takes back the mark of a shared record only
when it could write.
-/

namespace SamaraOS.PageCache

open Function List

section

variable {s : Sys} {n fr : Nat} {c c' : Pcn} {g : Nat → Nat}

/-! ## Clean pages -/

def Sys.Clean (s : Sys) : Prop :=
  ∀ x ∈ s.cache, x.shared = false → ∀ (i : Nat) (e : Entry), x.fr[i]? = some (some e) →
    i < (s.files x.node).pages → s.dirty e.frame = false

structure Narrows (s s' : Sys) : Prop where
  files : s'.files = s.files
  dirty : ∀ f, s'.dirty f = true → s.dirty f = true
  entry : ∀ x ∈ s'.cache, x.shared = false → ∀ (i : Nat) (e : Entry), x.fr[i]? = some (some e) →
    i < (s.files x.node).pages → s'.dirty e.frame = false ∨
      ∃ y ∈ s.cache, y.node = x.node ∧ y.shared = false ∧
        ∃ e' : Entry, y.fr[i]? = some (some e') ∧ e'.frame = e.frame

variable {s' s₀ : Sys} {got : List Dropped}

theorem Narrows.clean (h : Narrows s s') (hs : s.Clean) : s'.Clean := by
  intro x hx hsh i e he hi
  rw [h.files] at hi
  rcases h.entry x hx hsh i e he hi with hd | ⟨y, hy, hn, hysh, e', he', hf⟩
  · exact hd
  by_contra hdirty
  rw [← hn] at hi
  have := hs y hy hysh i e' he' hi
  rw [hf] at this
  have hd := h.dirty e.frame (by simpa using hdirty)
  rw [this] at hd
  cases hd

theorem Narrows.of_eq (hc : s'.cache = s.cache) (hd : s'.dirty = s.dirty)
    (hf : s'.files = s.files) : Narrows s s' :=
  ⟨hf, fun f => by rw [hd]; exact id, fun x hx hsh i e he _ =>
    .inr ⟨x, hc ▸ hx, rfl, hsh, e, he, rfl⟩⟩

theorem Narrows.trans {s'' : Sys} (h : Narrows s s') (h' : Narrows s' s'') : Narrows s s'' := by
  refine ⟨h'.files.trans h.files, fun f hf => h.dirty f (h'.dirty f hf),
    fun x hx hsh i e he hi => ?_⟩
  rcases h'.entry x hx hsh i e he (h.files ▸ hi) with hd | ⟨y, hy, hn, hysh, e', he', hf⟩
  · exact .inl hd
  rcases h.entry y hy hysh i e' he' (hn ▸ hi) with hd | ⟨z, hz, hnz, hzsh, e'', he'', hf'⟩
  · refine .inl ?_
    by_contra hdirty
    have := h'.dirty e.frame (by simpa using hdirty)
    rw [← hf, hd] at this
    cases this
  · exact .inr ⟨z, hz, hnz.trans hn, hzsh, e'', he'', hf'.trans hf⟩

theorem Narrows.setPcn (hc : pcnOf s n = some c)
    (hcache : s'.cache = (PageCache.setPcn s n c').cache) (hfiles : s'.files = s.files)
    (hdirty : ∀ f, s'.dirty f = true → s.dirty f = true) (hnode : c'.node = c.node) (hentry :
    c'.shared = false → ∀ (i : Nat) (e : Entry), c'.fr[i]? = some (some e) → i < (s.files
    c.node).pages → s'.dirty e.frame = false ∨ (c.shared = false ∧ ∃ e' : Entry, c.fr[i]? = some
    (some e') ∧ e'.frame = e.frame)) : Narrows s s' := by
  refine ⟨hfiles, hdirty, fun x hx hsh i e he hi => ?_⟩
  rw [hcache] at hx
  rcases mem_setPcn hx with hx | rfl
  · exact .inr ⟨x, hx, rfl, hsh, e, he, rfl⟩
  rcases hentry hsh i e he (hnode ▸ hi) with hd | ⟨hcsh, e', he', hf⟩
  · exact .inl hd
  · exact .inr ⟨c, (pcnOf_some hc).2.1, hnode.symm, hcsh, e', he', hf⟩

theorem SameFrames.narrows (hc : pcnOf s n = some c) (hs : SameFrames c c') :
    Narrows s (PageCache.setPcn s n c') :=
  .setPcn hc rfl rfl (fun _ => id) hs.node fun hsh i e he _ =>
    .inr ⟨hs.shared ▸ hsh, hs.entry i e he⟩

section

variable (space va n i : Nat)

theorem getNl_narrows (a : Alloc) : Narrows s (getNl s n i a).1 := by
  have hpcn : ∀ s', getPcn s n a = some s' → Narrows s s' := by
    intro s' hs
    unfold getPcn at hs
    split at hs
    · cases hs
      exact .of_eq rfl rfl rfl
    split at hs
    · cases hs
      refine ⟨rfl, fun _ => id, fun x hx hsh j e he _ => ?_⟩
      rcases mem_cons.1 hx with rfl | hx
      · simp at he
      · exact .inr ⟨x, hx, rfl, hsh, e, he, rfl⟩
    · cases hs
  have hgrow : ∀ s' s'', growPcn s' n i a = some s'' → Narrows s' s'' := by
    intro s' s'' hs
    unfold growPcn at hs
    split at hs
    · cases hs
    next c hc =>
    split at hs
    · cases hs
      exact .of_eq rfl rfl rfl
    split at hs
    · cases hs
      exact (sameFrames_grow c _).narrows hc
    · cases hs
  have htake : ∀ s' : Sys, Narrows s' (takeFrame s' n i a).1 := by
    intro s'
    unfold takeFrame
    split
    · exact .of_eq rfl rfl rfl
    next c hc =>
    split
    next e he =>
      refine .setPcn hc rfl rfl (fun _ => id) rfl fun hsh j x hx _ => ?_
      refine .inr ⟨hsh, ?_⟩
      rcases getElem?_set_entry hx with ⟨rfl, heq⟩ | ⟨-, hx⟩
      · cases heq
        exact ⟨e, getElem?_of_getD he, rfl⟩
      · exact ⟨x, hx, rfl⟩
    split
    · exact .of_eq rfl rfl rfl
    next fr hfr =>
    refine .setPcn hc rfl rfl (fun f hf => ?_) rfl fun hsh j x hx _ => ?_
    · simp only [pmmRef, update_apply] at hf
      split at hf
      · cases hf
      · exact hf
    rcases getElem?_set_entry hx with ⟨-, heq⟩ | ⟨-, hx⟩
    · cases heq
      exact .inl (by simp [pmmRef])
    · exact .inr ⟨hsh, x, hx, rfl⟩
  unfold getNl
  split
  · exact .of_eq rfl rfl rfl
  split
  · exact .of_eq rfl rfl rfl
  next s' hs =>
  split
  · exact hpcn s' hs
  next s'' hs' => exact ((hpcn s' hs).trans (hgrow s' s'' hs')).trans (htake s'')

theorem setShared_narrows : Narrows s (setShared s n) := by
  unfold setShared
  split
  · exact .of_eq rfl rfl rfl
  next c hc =>
  split
  · exact .of_eq rfl rfl rfl
  · exact .setPcn hc rfl rfl (fun _ => id) rfl (by simp)

theorem unmap_narrows : Narrows s (unmap s space va) := by
  unfold unmap
  split
  · exact .of_eq rfl rfl rfl
  · split <;> exact .of_eq rfl rfl rfl

theorem unmapAll_narrows (k va : Nat) : Narrows s (pcMap.unmapAll space k va s) := by
  induction k generalizing s va with
  | zero => exact .of_eq rfl rfl rfl
  | succ k ih => exact (unmap_narrows space va).trans (ih (va + 1))

theorem vmmMapCache_narrows (fr : Nat) (w sh table : Bool) :
    Narrows s (pmmUnref (vmmMapCache s space va fr w sh table).1 fr) := by
  unfold vmmMapCache
  split
  · have href : Narrows s (pmmRef s fr) := .of_eq rfl rfl rfl
    exact (href.trans (unmap_narrows space va)).trans (.of_eq rfl rfl rfl)
  · exact .of_eq rfl rfl rfl

theorem pcMap_narrows (w sh : Bool) (allocs : List Alloc) (va i : Nat) :
    Narrows s (pcMap space n w sh allocs va i s) := by
  induction allocs generalizing s va i with
  | nil => exact .of_eq rfl rfl rfl
  | cons a np ih =>
    have hget : Narrows s (getNl s n i a).1 := getNl_narrows n i a
    rw [pcMap]
    split
    · exact unmapAll_narrows space _ va
    split
    next s' hs =>
      rw [hs] at hget
      exact hget
    next s' fr hs =>
    rw [hs] at hget
    have hshared : Narrows s (if sh then setShared s' n else s') := by
      split
      · exact hget.trans (setShared_narrows n)
      · exact hget
    have hmap := hshared.trans (vmmMapCache_narrows space va fr w sh a.table)
    simp only
    generalize (if sh = true then setShared s' n else s') = s'' at hmap ⊢
    split
    · exact hmap.trans (ih _ _)
    · exact hmap

end

theorem unrefAll_narrows (frames : List Nat) : Narrows s (unrefAll s frames) := by
  induction frames generalizing s with
  | nil => exact .of_eq rfl rfl rfl
  | cons f frames ih =>
    have hone : Narrows s (pmmUnref s f) := .of_eq rfl rfl rfl
    exact hone.trans ih

def Sys.CleanBut (s : Sys) (n : Nat) : Prop :=
  ∀ x ∈ s.cache, x.node ≠ n → x.shared = false → ∀ (i : Nat) (e : Entry),
    x.fr[i]? = some (some e) → i < (s.files x.node).pages → s.dirty e.frame = false

theorem Sys.Clean.but (h : s.Clean) (n : Nat) : s.CleanBut n := fun x hx _ => h x hx

theorem dropNl_clean (hinv : s.Inv g) (h : s.CleanBut n) : (dropNl s n).Clean := by
  unfold dropNl
  cases hc : pcnOf s n with
  | none => exact fun x hx => h x hx (pcnOf_none hc x hx)
  | some c =>
    obtain ⟨hidx, -, hcn⟩ := pcnOf_some hc
    refine (unrefAll_narrows c.frames).clean fun x hx => ?_
    have hsub : (s.cache.eraseIdx (indexOf s n)).Sublist s.cache := eraseIdx_sublist _ _
    refine h x (hsub.subset hx) fun hxn => ?_
    -- no second record of `n`
    have hcx : x = c := hinv.unique (hsub.subset hx) (pcnOf_some hc).2.1 (hxn.trans hcn.symm)
    have hnodup : s.cache.Nodup := hinv.keys.of_map
    rw [hcx, mem_eraseIdx_iff_getElem?] at hx
    obtain ⟨j, hj, hjc⟩ := hx
    have hlt := (List.getElem?_eq_some_iff.1 hidx).1
    exact hj ((getElem?_inj hlt hnodup).1 (hidx.trans hjc.symm)).symm

theorem pcChanged_clean (hinv : s.Inv g) (h : s.CleanBut n) : (pcChanged s n).Clean := by
  unfold pcChanged
  cases hc : pcnOf s n with
  | none => exact fun x hx => h x hx (pcnOf_none hc x hx)
  | some c =>
    simp only
    split
    swap
    · exact dropNl_clean hinv h
    next hsh =>
    intro x hx hxs i e he hi
    simp only
    split
    · rfl
    refine h x hx (fun hxn => ?_) hxs i e he hi
    have := hinv.unique hx (pcnOf_some hc).2.1 (hxn.trans (pcnOf_some hc).2.2.symm)
    rw [this, hsh] at hxs
    cases hxs

theorem syncNl_narrows (c : Pcn) (first fin : Nat) : Narrows s (syncNl s c first fin) := by
  unfold syncNl
  split
  · refine ⟨rfl, fun f hf => ?_, fun x hx hsh i e he _ => .inr ⟨x, hx, rfl, hsh, e, he, rfl⟩⟩
    simp only at hf
    split at hf
    · cases hf
    · exact hf
  · exact .of_eq rfl rfl rfl

/-- Where `pc_sync_all` takes back the mark of a shared record, there is nothing to write
back or a buffer to write to. -/
def Sys.Backed (s : Sys) : Prop :=
  ∀ x ∈ s.cache, x.shared = true → (∀ fr ∈ x.frames, s.refcnt fr ≤ 1) →
    (s.files x.node).own = true ∨ ∀ (i : Nat) (e : Entry), x.fr[i]? = some (some e) →
      i < (s.files x.node).pages → s.dirty e.frame = false

theorem syncNl_dirty {i : Nat} {e : Entry} (hown : (s.files c.node).own = true)
    (he : c.fr[i]? = some (some e)) (hi : i < (s.files c.node).pages) :
    (syncNl s c 0 c.fr.length).dirty e.frame = false := by
  have hlt := (List.getElem?_eq_some_iff.1 he).1
  unfold syncNl
  rw [if_pos hown]
  simp only
  rw [if_pos]
  refine ⟨i, hlt, Nat.zero_le _, hlt, hi, ?_⟩
  rw [getD_eq_getElem?_getD, he]
  rfl

@[simp] theorem syncNl_cache (s : Sys) (c : Pcn) (first fin : Nat) :
    (syncNl s c first fin).cache = s.cache := by
  unfold syncNl
  split <;> rfl

@[simp] theorem syncNl_refcnt (s : Sys) (c : Pcn) (first fin : Nat) :
    (syncNl s c first fin).refcnt = s.refcnt := by
  unfold syncNl
  split <;> rfl

theorem syncOne_narrows (h : s.Backed) (n : Nat) : Narrows s (syncOne s n) := by
  unfold syncOne
  split
  · exact .of_eq rfl rfl rfl
  next c hc =>
  obtain ⟨-, hmem, hcn⟩ := pcnOf_some hc
  split
  swap
  · exact .of_eq rfl rfl rfl
  next hsh =>
  have hsync : Narrows s (syncNl s c 0 c.fr.length) := syncNl_narrows c 0 c.fr.length
  simp only
  split
  · exact hsync
  next hunused =>
  refine .setPcn hc (?_ : _ = (setPcn s n { c with shared := false }).cache) hsync.files
    hsync.dirty rfl fun _ i e he hi => .inl ?_
  · simp only [setPcn, indexOf, syncNl_cache]
  have hone : ∀ fr ∈ c.frames, s.refcnt fr ≤ 1 := by
    intro fr hfr
    obtain ⟨j, x, hx, rfl⟩ := mem_frames.1 hfr
    simpa using not_used hunused hx
  rcases h c hmem hsh hone with hown | hclean
  · exact syncNl_dirty hown he hi
  by_contra hd
  have := hsync.dirty e.frame (by simpa [setPcn] using hd)
  rw [hclean i e he hi] at this
  cases this

theorem Sys.Backed.syncOne (h : s.Backed) (n : Nat) : (syncOne s n).Backed := by
  have hfiles : (PageCache.syncOne s n).files = s.files := (syncOne_narrows h n).files
  have hdirty := (syncOne_narrows h n).dirty
  have hrefs : (PageCache.syncOne s n).refcnt = s.refcnt := by
    unfold PageCache.syncOne
    split
    · rfl
    split
    · simp only
      split <;> simp [setPcn]
    · rfl
  have hcache : ∀ x ∈ (PageCache.syncOne s n).cache, x.shared = true → x ∈ s.cache := by
    intro x hx hsh
    unfold PageCache.syncOne at hx
    split at hx
    · exact hx
    split at hx
    · simp only at hx
      split at hx
      · simpa using hx
      rcases mem_setPcn hx with hx | rfl
      · simpa using hx
      · cases hsh
    · exact hx
  intro x hx hsh hone
  rw [hfiles]
  rw [hrefs] at hone
  refine (h x (hcache x hx hsh) hsh hone).imp_right fun hclean i e he hi => ?_
  by_contra hd
  have := hdirty e.frame (by simpa using hd)
  rw [hclean i e he hi] at this
  cases this

theorem pcSyncAll_narrows (h : s.Backed) : Narrows s (pcSyncAll s) := by
  unfold pcSyncAll
  split
  · exact .of_eq rfl rfl rfl
  next hne =>
  clear hne
  generalize s.cache.map Pcn.node = nodes
  induction nodes generalizing s with
  | nil => exact .of_eq rfl rfl rfl
  | cons n nodes ih => exact (syncOne_narrows h n).trans (ih (h.syncOne n))

def Safe (s : Sys) (d : Dropped) : Prop :=
  (∀ p ∈ s.ptes, p.frame ≠ d.frame) ∧ (d.page < (s.files d.node).pages → s.dirty d.frame = false)

theorem visit_narrows (hc : pcnOf s n = some c) (i : Nat) :
    Narrows s (visit s n c i).1 ∧ (visit s n c i).1.ptes = s.ptes ∧
      (visit s n c i).1.dirty = s.dirty := by
  unfold visit
  split
  · exact ⟨.of_eq rfl rfl rfl, rfl, rfl⟩
  next e he =>
  split
  · refine ⟨.setPcn hc rfl rfl (fun _ => id) rfl fun hsh j x hx _ => ?_, rfl, rfl⟩
    refine .inr ⟨hsh, ?_⟩
    rcases getElem?_set_entry hx with ⟨rfl, heq⟩ | ⟨-, hx⟩
    · cases heq
      exact ⟨e, getElem?_of_getD he, rfl⟩
    · exact ⟨x, hx, rfl⟩
  split
  · exact ⟨.of_eq rfl rfl rfl, rfl, rfl⟩
  split
  · exact ⟨.of_eq rfl rfl rfl, rfl, rfl⟩
  refine ⟨.setPcn hc rfl rfl (fun _ => id) rfl fun hsh j x hx _ => ?_, rfl, rfl⟩
  rcases getElem?_set_entry hx with ⟨-, heq⟩ | ⟨-, hx⟩
  · cases heq
  · exact .inr ⟨hsh, x, hx, rfl⟩

/-- The clock on its way from `s₀`, with what it has dropped. -/
structure Fine (s₀ s : Sys) (got : List Dropped) : Prop where
  inv : s.Inv fun _ => 0
  ptes : s.ptes = s₀.ptes
  dirty : s.dirty = s₀.dirty
  files : s.files = s₀.files
  unmapped : ∀ d ∈ got, ∀ p ∈ s₀.ptes, p.frame ≠ d.frame
  safe : s₀.Clean → s.Clean ∧ ∀ d ∈ got, Safe s₀ d

section

variable (h : Fine s₀ s got)

include h

theorem Fine.setHand (hand : Option Nat) (i : Nat) :
    Fine s₀ { s with handN := hand, handI := i } got :=
  ⟨⟨h.inv.keys, h.inv.pages, h.inv.shared, h.inv.counts, h.inv.home, h.inv.closed⟩, h.ptes, h.dirty,
    h.files, h.unmapped, h.safe⟩

theorem Fine.visit (hc : pcnOf s n = some c) {i : Nat} (hi : i < c.fr.length) :
    Fine s₀ (visit s n c i).1 (got ++ (visit s n c i).2.toList) := by
  obtain ⟨hinv, hdrop⟩ := visit_cases h.inv hc hi
  obtain ⟨hnarrow, hptes, hdirty⟩ := visit_narrows hc i
  have hmem : ∀ d ∈ got ++ (PageCache.visit s n c i).2.toList,
      d ∈ got ∨ (PageCache.visit s n c i).2 = some d := by
    intro d hd
    rcases mem_append.1 hd with hd | hd
    · exact .inl hd
    · exact .inr (Option.mem_toList.1 hd)
  refine ⟨hinv, hptes.trans h.ptes, hdirty.trans h.dirty, hnarrow.files.trans h.files,
    fun d hd => ?_, fun hclean => ⟨hnarrow.clean (h.safe hclean).1, fun d hd => ?_⟩⟩
  · rcases hmem d hd with hd | hd
    · exact h.unmapped d hd
    rw [← h.ptes]
    exact (hdrop d hd).2.2.2.2
  rcases hmem d hd with hd | hd
  · exact (h.safe hclean).2 d hd
  obtain ⟨hn, hp, ⟨e, he, hf⟩, hsh, hun⟩ := hdrop d hd
  obtain ⟨-, hcm, hcn⟩ := pcnOf_some hc
  refine ⟨h.ptes ▸ hun, fun hlt => ?_⟩
  rw [hp, hn, ← h.files, ← hcn] at hlt
  rw [← h.dirty, ← hf]
  exact (h.safe hclean).1 c hcm hsh i e he hlt

theorem Fine.reclaimLoop {want fuel steps : Nat} :
    Fine s₀ (reclaimLoop want fuel steps got s).1 (reclaimLoop want fuel steps got s).2 := by
  induction fuel generalizing s steps got with
  | zero => exact h
  | succ fuel ih =>
    rw [PageCache.reclaimLoop]
    split
    · exact h
    next n hn =>
    split
    · exact h
    next c hc =>
    split
    · exact h
    split
    · simp only
      split
      · exact h.setHand _ _
      · exact ih (h.setHand _ _)
    next hi =>
    have hand := h.setHand s.handN (s.handI + 1)
    exact ih (hand.visit hc (Nat.lt_of_not_le hi))

end

theorem pcReclaim_fine (h : s.Inv fun _ => 0) (want : Nat) :
    Fine s (pcReclaim s want).1 (pcReclaim s want).2 := by
  have hstart : Fine s s [] := ⟨h, rfl, rfl, rfl, by simp, fun hc => ⟨hc, by simp⟩⟩
  unfold pcReclaim
  split
  · exact (hstart.setHand _ _).reclaimLoop
  · exact hstart.reclaimLoop

/-! ## Runs -/

theorem Sys.Inv.setFiles (h : s.Inv g) (files : Nat → FileInfo) :
    Sys.Inv { s with files := files } g :=
  ⟨h.keys, h.pages, h.shared, h.counts, h.home, h.closed⟩

theorem Sys.Inv.hold (h : s.Inv g) (h0 : s.refcnt fr = 0) :
    Sys.Inv { s with
      refcnt := update s.refcnt fr 1
      ext := update s.ext fr (s.ext fr + 1) } g := by
  refine ⟨h.keys, h.pages, h.shared, ?_, h.home, h.closed⟩
  refine (h.counts.fresh h0).2.congr fun f => ?_
  simp only [plus, Sys.held, Sys.total, update_apply]
  split
  next heq =>
    subst heq
    omega
  · omega

theorem Sys.Inv.release (h : s.Inv g) (h0 : s.ext fr ≠ 0) :
    (pmmUnref { s with ext := update s.ext fr (s.ext fr - 1) } fr).Inv g := by
  apply Sys.Inv.unref
  refine ⟨h.keys, h.pages, h.shared, ?_, h.home, h.closed⟩
  refine h.counts.congr fun f => ?_
  simp only [plus, Sys.held, Sys.total, update_apply]
  split
  next heq =>
    subst heq
    omega
  · omega

theorem pteAt_mem {space va : Nat} {p : Pte} (h : pteAt s space va = some p) : p ∈ s.ptes :=
  mem_of_find?_eq_some h

theorem Sys.Inv.next (h : s.Inv fun _ => 0) (e : Event) : (next s e).Inv fun _ => 0 := by
  cases e with
  | map space n va first w sh allocs => exact h.pcMap space n w sh allocs va first
  | unmap space va => exact h.unmap space va
  | copy space va space' =>
    simp only [PageCache.next]
    split
    · exact h
    next p hp =>
    refine Sys.Inv.mapPte { p with space := space' } ((h.ref p.frame).unmap space' va) ?_
    intro hrw x hx i e he heq
    rw [unmap_cache] at hx
    by_contra hsh
    have := h.closed x hx (by simpa using hsh) i e he p (pteAt_mem hp) heq.symm
    simp [this] at hrw
  | protect space va w => exact h.vmmSetWritable space va w
  | store space va =>
    simp only [PageCache.next]
    split
    · exact h
    split
    · exact ⟨h.keys, h.pages, h.shared, h.counts, h.home, h.closed⟩
    · exact h
  | changed n => exact h.pcChanged n
  | resize n pages => exact (h.setFiles _).pcChanged n
  | setOwn n own => exact h.setFiles _
  | syncRange n first fin =>
    simp only [PageCache.next, pcSyncRange]
    split
    · exact h
    split
    · exact h.syncNl _ first fin
    · exact h
  | syncAll => exact h.pcSyncAll
  | free n => exact h.dropNl n
  | reclaim want => exact (pcReclaim_fine h want).inv
  | hold fr =>
    simp only [PageCache.next]
    split
    next h0 => exact h.hold h0
    · exact h
  | release fr =>
    simp only [PageCache.next]
    split
    · exact h
    next h0 => exact h.release h0

def Writable (s : Sys) : Event → Prop
  | .syncAll => s.Backed
  | _ => True

def WritableRun (s : Sys) : List Event → Prop
  | [] => True
  | e :: events => Writable s e ∧ WritableRun (next s e) events

theorem Sys.Clean.next (h : s.Clean) (hinv : s.Inv fun _ => 0) {e : Event} (hw : Writable s e) :
    (next s e).Clean := by
  cases e with
  | map space n va first w sh allocs => exact (pcMap_narrows space n w sh allocs va first).clean h
  | unmap space va => exact (unmap_narrows space va).clean h
  | copy space va space' =>
    simp only [PageCache.next]
    split
    · exact h
    next p hp =>
    have href : Narrows s (pmmRef s p.frame) := .of_eq rfl rfl rfl
    exact ((href.trans (unmap_narrows space' va)).trans (.of_eq rfl rfl rfl)).clean h
  | protect space va w =>
    have hnarrow : Narrows s (vmmSetWritable s space va w) := .of_eq rfl rfl rfl
    exact hnarrow.clean h
  | store space va =>
    simp only [PageCache.next]
    split
    · exact h
    next p hp =>
    split
    swap
    · exact h
    next hrw =>
    intro x hx hsh i e he hi
    simp only [update_apply]
    split
    next heq =>
      have := (hinv.closed x hx hsh i e he p (pteAt_mem hp) heq.symm).1
      rw [this] at hrw
      cases hrw
    · exact h x hx hsh i e he hi
  | changed n => exact pcChanged_clean hinv (h.but n)
  | resize n pages =>
    refine pcChanged_clean (hinv.setFiles _) fun x hx hxn hsh i e he hi => ?_
    simp only [update_of_ne hxn] at hi
    exact h x hx hsh i e he hi
  | setOwn n own =>
    intro x hx hsh i e he hi
    refine h x hx hsh i e he ?_
    simp only [PageCache.next, update_apply] at hi
    split at hi
    next heq => rwa [heq]
    · exact hi
  | syncRange n first fin =>
    simp only [PageCache.next, pcSyncRange]
    split
    · exact h
    split
    · exact (syncNl_narrows _ first fin).clean h
    · exact h
  | syncAll => exact (pcSyncAll_narrows hw).clean h
  | free n => exact dropNl_clean hinv (h.but n)
  | reclaim want => exact ((pcReclaim_fine hinv want).safe h).1
  | hold fr | release fr =>
    simp only [PageCache.next]
    split <;> exact h

theorem inv_boot : boot.Inv fun _ => 0 :=
  ⟨nodup_nil, rfl, rfl, fun _ => ⟨Nat.zero_le _, fun _ => rfl⟩, ⟨fun _ => (0, 0), by simp [boot]⟩,
    by simp [boot]⟩

theorem Sys.Inv.play (h : s.Inv fun _ => 0) (events : List Event) :
    (play s events).Inv fun _ => 0 := by
  induction events generalizing s with
  | nil => exact h
  | cons e events ih => exact ih (h.next e)

theorem Sys.Clean.play (h : s.Clean) (hinv : s.Inv fun _ => 0) {events : List Event}
    (hw : WritableRun s events) : (play s events).Clean := by
  induction events generalizing s with
  | nil => exact h
  | cons e events ih => exact ih (h.next hinv hw.1) (hinv.next e) hw.2

end

theorem sum_isShared (cache : List Pcn) : (cache.map isShared).sum = cache.countP Pcn.shared := by
  induction cache with
  | nil => rfl
  | cons c cache ih =>
    rw [map_cons, sum_cons, countP_cons, ih, isShared, Nat.add_comm]

theorem mapped_eq (ptes : List Pte) (f : Nat) :
    mapped ptes f = ptes.countP fun p => p.frame = f := by
  induction ptes with
  | nil => rfl
  | cons p ptes ih =>
    have hp : maps f p = if decide (p.frame = f) = true then 1 else 0 := by
      simp only [maps, decide_eq_true_eq, eq_comm (a := f)]
    rw [countP_cons, ← ih, mapped, map_cons, sum_cons, Nat.add_comm, hp]
    rfl

/-- The counters are what they count, and a frame below the count that sticks has one
reference for each page of the cache, page table entry and other holder. -/
structure Books (s : Sys) : Prop where
  pages : s.npages = (s.cache.map fun c => c.frames.length).sum
  shared : s.nshared = s.cache.countP Pcn.shared
  refs : ∀ f, s.refcnt f < 254 → s.refcnt f =
    (s.cache.map fun c => c.frames.count f).sum + s.ptes.countP (fun p => p.frame = f) + s.ext f

/-- After any calls and failures the books are right and `pc_reclaim` drops no mapped page; and if
every `pc_sync_all` takes back the mark of a shared record only when it could write, it drops no
page that was not written back. -/
theorem page_cache_accounts (events : List Event) (want : Nat) : Books (play boot events) ∧
      (∀ d ∈ (pcReclaim (play boot events) want).2,
        ∀ p ∈ (play boot events).ptes, p.frame ≠ d.frame) ∧
      (WritableRun boot events → ∀ d ∈ (pcReclaim (play boot events) want).2,
        Safe (play boot events) d) := by
  have h : (play boot events).Inv fun _ => 0 := inv_boot.play events
  have hfine := pcReclaim_fine h want
  refine ⟨⟨?_, ?_, fun f hf => ?_⟩, hfine.unmapped, fun hw => ?_⟩
  · simp only [weigh_frames]
    exact h.pages
  · rw [h.shared, sum_isShared]
  · simp only [count_frames]
    rw [← mapped_eq]
    exact (h.counts f).2 hf
  · exact (hfine.safe (Sys.Clean.play (by simp [Sys.Clean, boot]) inv_boot hw)).2

def storeRun (own : Bool) : List Event :=
  [.resize 1 1, .setOwn 1 own, .map 0 1 0 0 true true [⟨true, true, some 5, true⟩],
    .store 0 0, .unmap 0 0, .syncAll]

theorem writableRun_store : WritableRun boot (storeRun true) := by
  refine ⟨trivial, trivial, trivial, trivial, trivial, fun x hx _ _ => .inl ?_, trivial⟩
  exact (by decide +kernel : ∀ x ∈ (play boot ((storeRun true).take 5)).cache,
    ((play boot ((storeRun true).take 5)).files x.node).own = true) x hx

theorem page_cache_accounts_store : WritableRun boot (storeRun true) ∧
    (pcReclaim (play boot (storeRun true)) 1).2 = [⟨1, 0, 5⟩] ∧
      Safe (play boot (storeRun true)) ⟨1, 0, 5⟩ :=
  have hgot : (pcReclaim (play boot (storeRun true)) 1).2 = [⟨1, 0, 5⟩] := by decide +kernel
  ⟨writableRun_store, hgot,
    (page_cache_accounts (storeRun true) 1).2.2 writableRun_store _ (by rw [hgot]; simp)⟩

/-- Without a buffer nothing is written back, and the record is not shared any more. -/
theorem reclaim_drops_store : (pcReclaim (play boot (storeRun false)) 1).2 = [⟨1, 0, 5⟩] ∧
    0 < ((play boot (storeRun false)).files 1).pages ∧
      (play boot (storeRun false)).dirty 5 = true := by
  decide +kernel

/-- A frame is cached in one place, and written through a mapping only in a shared record. -/
theorem cached_frames (events : List Event) : let s := play boot events
    (s.cache.map Pcn.node).Nodup ∧
    (∃ home : Nat → Nat × Nat, ∀ c ∈ s.cache, ∀ (i : Nat) (e : Entry),
      c.fr[i]? = some (some e) → home e.frame = (c.node, i)) ∧
    ∀ c ∈ s.cache, c.shared = false → ∀ (i : Nat) (e : Entry), c.fr[i]? = some (some e) →
      ∀ p ∈ s.ptes, p.frame = e.frame → p.rw = false ∧ p.shared = false :=
  have hinv := inv_boot.play events
  ⟨hinv.keys, hinv.home, hinv.closed⟩

end SamaraOS.PageCache
