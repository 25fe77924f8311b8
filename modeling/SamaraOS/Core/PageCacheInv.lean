import SamaraOS.Lib.Weights
import SamaraOS.Core.PageCache

/-!
# The books of the page cache

The counters of pages and of shared files are what they count, and a frame has one reference
for every record, page table entry and other holder that has it.
-/

namespace SamaraOS.PageCache

open Function Option List

def Counts (refcnt held : Nat → Nat) : Prop :=
  ∀ f, refcnt f ≤ 254 ∧ (refcnt f < 254 → refcnt f = held f)

def plus (held : Nat → Nat) (f : Nat) : Nat → Nat := fun x => held x + if x = f then 1 else 0

theorem plus_add (a g : Nat → Nat) (f : Nat) :
    plus (fun x => a x + g x) f = fun x => a x + plus g f x := by
  funext x
  simp [plus, Nat.add_assoc]

section

variable {refcnt held : Nat → Nat} {f : Nat}

theorem Counts.up (h : Counts refcnt held) :
    Counts (update refcnt f (refUp (refcnt f))) (plus held f) := by
  intro x
  obtain ⟨hle, heq⟩ := h x
  unfold plus refUp
  rw [update_apply]
  split
  next hx =>
    subst hx
    split <;> omega
  · exact ⟨hle, heq⟩

theorem Counts.congr {held' : Nat → Nat} (h : Counts refcnt held) (heq : ∀ f, held f = held' f) :
    Counts refcnt held' :=
  funext heq ▸ h

theorem Counts.down (h : Counts refcnt (plus held f)) :
    Counts (update refcnt f (refDown (refcnt f))) held := by
  intro x
  obtain ⟨hle, heq⟩ := h x
  unfold plus at heq
  unfold refDown
  rw [update_apply]
  split
  next hx =>
    subst hx
    rw [if_pos rfl] at heq
    split <;> omega
  next hx =>
  rw [if_neg hx] at heq
  exact ⟨hle, heq⟩

theorem Counts.fresh (h : Counts refcnt held) (h0 : refcnt f = 0) :
    held f = 0 ∧ Counts (update refcnt f 1) (plus held f) := by
  have hf := (h f).2 (by omega)
  refine ⟨by omega, fun x => ?_⟩
  obtain ⟨hle, heq⟩ := h x
  unfold plus
  rw [update_apply]
  split
  next hx =>
    subst hx
    omega
  · exact ⟨hle, heq⟩

end

def weigh (w : Option Entry → Nat) (c : Pcn) : Nat := (c.fr.map w).sum

def Sys.total (s : Sys) (w : Option Entry → Nat) : Nat := (s.cache.map (weigh w)).sum

def isPage (e : Option Entry) : Nat := if e.isSome then 1 else 0

def onFrame (f : Nat) (e : Option Entry) : Nat := if e.map Entry.frame = some f then 1 else 0

def isShared (c : Pcn) : Nat := if c.shared then 1 else 0

def maps (f : Nat) (p : Pte) : Nat := if f = p.frame then 1 else 0

def mapped (ptes : List Pte) (f : Nat) : Nat := (ptes.map (maps f)).sum

def Sys.held (s : Sys) (f : Nat) : Nat := s.total (onFrame f) + mapped s.ptes f + s.ext f

structure Sys.Inv (s : Sys) (g : Nat → Nat) : Prop where
  keys : (s.cache.map Pcn.node).Nodup
  pages : s.npages = s.total isPage
  shared : s.nshared = (s.cache.map isShared).sum
  counts : Counts s.refcnt fun f => s.held f + g f
  /-- A frame is in one place. -/
  home : ∃ home : Nat → Nat × Nat, ∀ c ∈ s.cache, ∀ (i : Nat) (e : Entry), c.fr[i]? = some (some e) →
    home e.frame = (c.node, i)
  /-- What can be written through a mapping, or shared by one, is in a shared record. -/
  closed : ∀ c ∈ s.cache, c.shared = false → ∀ (i : Nat) (e : Entry), c.fr[i]? = some (some e) →
    ∀ p ∈ s.ptes, p.frame = e.frame → p.rw = false ∧ p.shared = false

theorem weigh_frames (c : Pcn) : c.frames.length = weigh isPage c := by
  unfold Pcn.frames weigh
  induction c.fr with
  | nil => rfl
  | cons e fr ih =>
    cases e <;> simp [isPage, ih, Nat.add_comm]

theorem count_frames (c : Pcn) (f : Nat) : c.frames.count f = weigh (onFrame f) c := by
  unfold Pcn.frames weigh
  induction c.fr with
  | nil => rfl
  | cons e fr ih =>
    cases e with
    | none => simpa [onFrame] using ih
    | some e => simp [onFrame, count_cons, ih, Nat.add_comm]

theorem mem_frames {c : Pcn} {f : Nat} :
    f ∈ c.frames ↔ ∃ (i : Nat) (e : Entry), c.fr[i]? = some (some e) ∧ e.frame = f := by
  simp only [Pcn.frames, mem_filterMap, map_eq_some_iff]
  constructor
  · rintro ⟨o, ho, e, rfl, rfl⟩
    obtain ⟨i, hi⟩ := getElem?_of_mem ho
    exact ⟨i, e, hi, rfl⟩
  rintro ⟨i, e, hi, rfl⟩
  exact ⟨some e, mem_of_getElem? hi, e, rfl, rfl⟩

theorem getElem?_of_getD {xs : List (Option Entry)} {i : Nat} {e : Entry}
    (h : xs.getD i none = some e) : xs[i]? = some (some e) := by
  rw [getD_eq_getElem?_getD] at h
  cases hi : xs[i]? with
  | none => simp [hi] at h
  | some o => rw [← h, hi, getD_some]

section

variable {s s' : Sys} {n j : Nat} {c : Pcn} {w : Option Entry → Nat} {o : Option Entry}

theorem pcnOf_some (h : pcnOf s n = some c) :
    s.cache[indexOf s n]? = some c ∧ c ∈ s.cache ∧ c.node = n := by
  refine ⟨h, mem_of_getElem? h, ?_⟩
  obtain ⟨hlt, heq⟩ := List.getElem?_eq_some_iff.1 h
  have hnode := findIdx_getElem (w := hlt)
  have heq : s.cache[s.cache.findIdx fun c => c.node = n] = c := heq
  simpa [heq] using hnode

theorem pcnOf_none (h : pcnOf s n = none) : ∀ c ∈ s.cache, c.node ≠ n := by
  intro c hc hn
  have hlt : indexOf s n < s.cache.length :=
    findIdx_lt_length_of_exists ⟨c, hc, by simpa using hn⟩
  have := getElem?_eq_none_iff.1 h
  omega

variable {c' : Pcn} {i : Nat} {e : Entry}

theorem Sys.Inv.unique {g : Nat → Nat} (h : s.Inv g) {c : Pcn} (hc : c ∈ s.cache)
    (hc' : c' ∈ s.cache) (hn : c.node = c'.node) : c = c' :=
  inj_on_of_nodup_map h.keys hc hc' hn

theorem total_pos (hc : c ∈ s.cache) {e : Option Entry}
    (he : c.fr[i]? = some e) : w e ≤ s.total w := by
  have h1 : w e ≤ weigh w c :=
    single_le_sum (by simp) _ (mem_map_of_mem (mem_of_getElem? he))
  have h2 : weigh w c ≤ s.total w :=
    single_le_sum (by simp) _ (mem_map_of_mem hc)
  omega

theorem mapped_pos {ptes : List Pte} {p : Pte} (hp : p ∈ ptes) : 0 < mapped ptes p.frame := by
  have : maps p.frame p ≤ mapped ptes p.frame :=
    single_le_sum (by simp) _ (mem_map_of_mem hp)
  rw [maps, if_pos rfl] at this
  exact this

theorem total_setPcn (h : pcnOf s n = some c) (w : Option Entry → Nat) (c' : Pcn) :
    (setPcn s n c').total w + weigh w c = s.total w + weigh w c' :=
  sum_map_set (weigh w) (pcnOf_some h).1 c'

theorem mem_setPcn {x : Pcn} (hx : x ∈ (setPcn s n c').cache) : x ∈ s.cache ∨ x = c' :=
  mem_or_eq_of_mem_set hx

theorem held_eq (hf : ∀ f, s'.total (onFrame f) = s.total (onFrame f))
    (hp : s'.ptes = s.ptes) (he : s'.ext = s.ext) : s'.held = s.held := by
  funext f
  simp only [Sys.held, hf, hp, he]

/-! ## Steps that keep the frames where they are -/

variable {g : Nat → Nat}

theorem Sys.Inv.ref (h : s.Inv g) (f : Nat) : (pmmRef s f).Inv (plus g f) := by
  refine ⟨h.keys, h.pages, h.shared, ?_, h.home, h.closed⟩
  have := h.counts.up (f := f)
  rwa [plus_add] at this

theorem Sys.Inv.unref {f : Nat} (h : s.Inv (plus g f)) : (pmmUnref s f).Inv g := by
  refine ⟨h.keys, h.pages, h.shared, ?_, h.home, h.closed⟩
  apply Counts.down
  rw [plus_add]
  exact h.counts

theorem Sys.Inv.edit (h : s.Inv g) (hc : pcnOf s n = some c) {g' : Nat → Nat}
    (hcache : s'.cache = (PageCache.setPcn s n c').cache) (hptes : s'.ptes = s.ptes)
    (hnode : c'.node = c.node) (hshared : s'.nshared + isShared c = s.nshared + isShared c')
    (hpages : s'.npages + weigh isPage c = s.npages + weigh isPage c')
    (hcounts : Counts s'.refcnt fun f => s'.held f + g' f) (hhome : ∀ home : Nat → Nat × Nat,
      (∀ x ∈ s.cache, ∀ (i : Nat) (e : Entry), x.fr[i]? = some (some e) →
        home e.frame = (x.node, i)) →
      ∃ home' : Nat → Nat × Nat,
        (∀ x ∈ s.cache, x.node ≠ n → ∀ (i : Nat) (e : Entry), x.fr[i]? = some (some e) →
          home' e.frame = (x.node, i)) ∧
        ∀ (i : Nat) (e : Entry), c'.fr[i]? = some (some e) → home' e.frame = (n, i))
    (hclosed : c'.shared = false → ∀ (i : Nat) (e : Entry), c'.fr[i]? = some (some e) →
      ∀ p ∈ s.ptes, p.frame = e.frame → p.rw = false ∧ p.shared = false) : s'.Inv g' := by
  obtain ⟨hidx, hmem, hcn⟩ := pcnOf_some hc
  have hkeys : s'.cache.map Pcn.node = s.cache.map Pcn.node := by
    rw [hcache]
    exact map_set_same Pcn.node hidx hnode
  have hcases : ∀ x ∈ s'.cache, (x ∈ s.cache ∧ x.node ≠ n) ∨ x = c' := by
    intro x hx
    rw [hcache] at hx
    obtain ⟨j, hj⟩ := getElem?_of_mem hx
    simp only [PageCache.setPcn, getElem?_set] at hj
    split at hj
    · split at hj
      · cases hj
        exact .inr rfl
      · cases hj
    next hne =>
    refine .inl ⟨mem_of_getElem? hj, fun hxn => hne ?_⟩
    have hlt : indexOf s n < (s.cache.map Pcn.node).length := by
      rw [length_map]
      exact (List.getElem?_eq_some_iff.1 hidx).1
    refine (getElem?_inj hlt h.keys).1 ?_
    rw [getElem?_map, getElem?_map, hidx, hj, map_some, map_some, hcn, hxn]
  obtain ⟨home, hh⟩ := h.home
  obtain ⟨home', hold, hnew⟩ := hhome home hh
  refine ⟨hkeys ▸ h.keys, ?_, ?_, hcounts, ⟨home', fun x hx i e he => ?_⟩,
    fun x hx hsh i e he p hp => ?_⟩
  · have := total_setPcn hc isPage c'
    have hp := h.pages
    have ht : s'.total isPage = (PageCache.setPcn s n c').total isPage := by
      simp only [Sys.total, hcache]
    omega
  · have := sum_map_set isShared hidx c'
    have hsh := h.shared
    simp only [hcache, PageCache.setPcn]
    omega
  · rcases hcases x hx with ⟨hx, hne⟩ | rfl
    · exact hold x hx hne i e he
    rw [hnode, hcn]
    exact hnew i e he
  rw [hptes] at hp
  rcases hcases x hx with ⟨hx, -⟩ | rfl
  · exact h.closed x hx hsh i e he p hp
  · exact hclosed hsh i e he p hp

structure SameFrames (c c' : Pcn) : Prop where
  node : c'.node = c.node
  shared : c'.shared = c.shared
  pages : weigh isPage c' = weigh isPage c
  frames : ∀ f, weigh (onFrame f) c' = weigh (onFrame f) c
  entry : ∀ (i : Nat) (e : Entry), c'.fr[i]? = some (some e) →
    ∃ e' : Entry, c.fr[i]? = some (some e') ∧ e'.frame = e.frame

theorem Sys.Inv.setPcn (h : s.Inv g) (hc : pcnOf s n = some c) (hs : SameFrames c c') :
    (setPcn s n c').Inv g := by
  obtain ⟨-, hmem, hcn⟩ := pcnOf_some hc
  have hheld : (PageCache.setPcn s n c').held = s.held := by
    refine held_eq (fun f => ?_) rfl rfl
    have := total_setPcn hc (onFrame f) c'
    rw [hs.frames] at this
    omega
  refine h.edit hc rfl rfl hs.node (by simp [isShared, hs.shared, PageCache.setPcn])
    (by rw [hs.pages]; rfl) ?_
    (fun home hh => ⟨home, fun x hx _ => hh x hx, fun i e he => ?_⟩) fun hsh i e he => ?_
  · rw [hheld]
    exact h.counts
  · obtain ⟨e', he', hfr⟩ := hs.entry i e he
    rw [← hfr, ← hcn]
    exact hh c hmem i e' he'
  obtain ⟨e', he', hfr⟩ := hs.entry i e he
  rw [← hfr]
  exact h.closed c hmem (hs.shared ▸ hsh) i e' he'

theorem weigh_set {e : Option Entry} (he : c.fr[i]? = some e)
    (e' : Option Entry) : weigh w { c with fr := c.fr.set i e' } + w e = weigh w c + w e' :=
  sum_map_set w he e'

theorem sameFrames_seen (he : c.fr[i]? = some (some e)) (b : Bool) :
    SameFrames c { c with fr := c.fr.set i (some { e with seen := b }) } := by
  have hweigh : ∀ w : Option Entry → Nat, w (some { e with seen := b }) = w (some e) →
      weigh w { c with fr := c.fr.set i (some { e with seen := b }) } = weigh w c := by
    intro w hw
    have := weigh_set (w := w) he (some { e with seen := b })
    omega
  refine ⟨rfl, rfl, hweigh _ rfl, fun f => hweigh _ rfl, fun j x hx => ?_⟩
  simp only [getElem?_set] at hx
  split at hx
  next heq =>
    subst heq
    split at hx
    · cases hx
      exact ⟨e, he, rfl⟩
    · cases hx
  · exact ⟨x, hx, rfl⟩

theorem sameFrames_grow (c : Pcn) (k : Nat) :
    SameFrames c { c with fr := c.fr ++ List.replicate k none } := by
  have hweigh : ∀ w : Option Entry → Nat, w none = 0 →
      weigh w { c with fr := c.fr ++ List.replicate k none } = weigh w c := by
    intro w hw
    simp [weigh, hw]
  refine ⟨rfl, rfl, hweigh _ rfl, fun f => hweigh _ rfl, fun j x hx => ⟨x, ?_, rfl⟩⟩
  by_cases hj : j < c.fr.length
  · rwa [getElem?_append_left hj] at hx
  rw [getElem?_append_right (by omega), getElem?_replicate] at hx
  split at hx <;> cases hx

theorem Sys.Inv.push (h : s.Inv g) (hnone : pcnOf s n = none) :
    Sys.Inv { s with cache := { node := n } :: s.cache } g := by
  have htotal : ∀ w, Sys.total { s with cache := { node := n } :: s.cache } w = s.total w := by
    intro w
    simp [Sys.total, weigh]
  have hfresh := pcnOf_none hnone
  have hheld : Sys.held { s with cache := { node := n } :: s.cache } = s.held :=
    held_eq (fun f => htotal _) rfl rfl
  obtain ⟨home, hhome⟩ := h.home
  refine ⟨?_, ?_, ?_, ?_, ⟨home, fun x hx i e he => ?_⟩, fun x hx hsh i e he => ?_⟩
  · simp only [map_cons, nodup_cons, List.mem_map, not_exists, not_and]
    exact ⟨fun x hx => hfresh x hx, h.keys⟩
  · rw [htotal]
    exact h.pages
  · simpa [isShared] using h.shared
  · rw [hheld]
    exact h.counts
  · rcases mem_cons.1 hx with rfl | hx
    · simp at he
    · exact hhome x hx i e he
  rcases mem_cons.1 hx with rfl | hx
  · simp at he
  · exact h.closed x hx hsh i e he

/-! ## Steps that move a frame -/

theorem getElem?_set_entry {xs : List (Option Entry)}
    (h : (xs.set i o)[j]? = some (some e)) :
    (j = i ∧ o = some e) ∨ (j ≠ i ∧ xs[j]? = some (some e)) := by
  rw [getElem?_set] at h
  split at h
  next heq =>
    split at h
    · exact .inl ⟨heq.symm, some.inj h⟩
    · cases h
  next hne => exact .inr ⟨Ne.symm hne, h⟩

theorem total_setEntry (hc : pcnOf s n = some c)
    (hi : c.fr[i]? = some o) (o' : Option Entry) (w : Option Entry → Nat) :
    (PageCache.setPcn s n { c with fr := c.fr.set i o' }).total w + w o = s.total w + w o' := by
  have h1 := total_setPcn hc w { c with fr := c.fr.set i o' }
  have h2 := weigh_set (w := w) hi o'
  omega

@[simp] theorem isPage_none : isPage none = 0 := rfl

@[simp] theorem isPage_some (e : Entry) : isPage (some e) = 1 := rfl

@[simp] theorem onFrame_none (f : Nat) : onFrame f none = 0 := rfl

@[simp] theorem onFrame_some (f : Nat) (e : Entry) :
    onFrame f (some e) = if f = e.frame then 1 else 0 := by
  simp [onFrame, eq_comm]

section

variable (h : s.Inv g)

include h

theorem Sys.Inv.newFrame (hc : pcnOf s n = some c) {fr : Nat}
    (hi : c.fr[i]? = some none) (hfree : s.refcnt fr = 0) :
    Sys.Inv { PageCache.setPcn s n { c with fr := c.fr.set i (some ⟨fr, true⟩) } with
      npages := s.npages + 1
      refcnt := update s.refcnt fr 1
      dirty := update s.dirty fr false } g := by
  obtain ⟨-, hmem, hcn⟩ := pcnOf_some hc
  obtain ⟨hheld0, hfresh⟩ := h.counts.fresh hfree
  have hzero : s.total (onFrame fr) = 0 ∧ mapped s.ptes fr = 0 := by
    simp only [Sys.held] at hheld0
    omega
  have hno : ∀ x ∈ s.cache, ∀ (j : Nat) (e : Entry), x.fr[j]? = some (some e) → e.frame ≠ fr := by
    intro x hx j e he heq
    have := total_pos (w := onFrame fr) hx he
    rw [onFrame_some, if_pos heq.symm] at this
    omega
  refine h.edit hc rfl rfl rfl rfl ?_ ?_ (fun home hh => ?_) fun hsh j e he p hp hpf => ?_
  · have := weigh_set (w := isPage) hi (some ⟨fr, true⟩)
    simp only [isPage_none, isPage_some] at this ⊢
    omega
  · refine hfresh.congr fun f => ?_
    have := total_setEntry hc hi (some ⟨fr, true⟩) (onFrame f)
    simp only [onFrame_none, onFrame_some] at this
    simp only [plus, Sys.held, Sys.total, PageCache.setPcn] at this ⊢
    omega
  · refine ⟨update home fr (n, i), fun x hx _ j e he => ?_, fun j e he => ?_⟩
    · rw [update_of_ne (hno x hx j e he)]
      exact hh x hx j e he
    rcases getElem?_set_entry he with ⟨rfl, heq⟩ | ⟨hne, he⟩
    · cases heq
      exact update_self _ _ _
    rw [update_of_ne (hno c hmem j e he), ← hcn]
    exact hh c hmem j e he
  rcases getElem?_set_entry he with ⟨rfl, heq⟩ | ⟨hne, he⟩
  · cases heq
    have := mapped_pos hp
    simp only at hpf
    rw [hpf] at this
    omega
  · exact h.closed c hmem hsh j e he p hp hpf

theorem Sys.Inv.dropFrame (hc : pcnOf s n = some c) (hi : c.fr[i]? = some (some e)) :
    Sys.Inv { PageCache.setPcn s n { c with fr := c.fr.set i none } with npages := s.npages - 1 }
      (plus g e.frame) := by
  obtain ⟨-, hmem, hcn⟩ := pcnOf_some hc
  refine h.edit hc rfl rfl rfl rfl ?_ ?_
    (fun home hh => ⟨home, fun x hx _ => hh x hx, fun j x hx => ?_⟩) fun hsh j x hx => ?_
  · have hpos := total_pos (w := isPage) hmem hi
    have := weigh_set (w := isPage) hi none
    have := h.pages
    simp only [isPage_none, isPage_some] at *
    omega
  · refine h.counts.congr fun f => ?_
    have := total_setEntry hc hi none (onFrame f)
    simp only [onFrame_none, onFrame_some] at this
    simp only [plus, Sys.held, Sys.total, PageCache.setPcn] at this ⊢
    omega
  · rcases getElem?_set_entry hx with ⟨-, heq⟩ | ⟨-, hx⟩
    · cases heq
    rw [← hcn]
    exact hh c hmem j x hx
  rcases getElem?_set_entry hx with ⟨-, heq⟩ | ⟨-, hx⟩
  · cases heq
  · exact h.closed c hmem hsh j x hx

omit h in
theorem Sys.Inv.unrefAll (frames : List Nat) (h : s.Inv fun f => g f + frames.count f) :
    (unrefAll s frames).Inv g := by
  unfold PageCache.unrefAll
  induction frames generalizing s with
  | nil => simpa using h
  | cons f frames ih =>
    apply ih
    apply Sys.Inv.unref
    refine (congrArg (Sys.Inv s) (funext fun x => ?_)).mp h
    simp only [plus, count_cons, beq_iff_eq]
    split
    next heq => simp [heq, Nat.add_assoc]
    next hne => simp [Ne.symm hne]

theorem Sys.Inv.dropNl (n : Nat) : (dropNl s n).Inv g := by
  unfold PageCache.dropNl
  cases hc : pcnOf s n with
  | none => exact h
  | some c =>
    obtain ⟨hidx, hmem, hcn⟩ := pcnOf_some hc
    have hsub : (s.cache.eraseIdx (indexOf s n)).Sublist s.cache := eraseIdx_sublist _ _
    have htotal : ∀ w, ((s.cache.eraseIdx (indexOf s n)).map (weigh w)).sum + weigh w c
        = s.total w := fun w => sum_map_eraseIdx (weigh w) hidx
    obtain ⟨home, hh⟩ := h.home
    apply Sys.Inv.unrefAll
    refine ⟨h.keys.sublist (hsub.map _), ?_, ?_, ?_, ⟨home, fun x hx => hh x (hsub.subset hx)⟩,
      fun x hx => h.closed x (hsub.subset hx)⟩
    · have h1 := htotal isPage
      have h2 := h.pages
      have h3 := weigh_frames c
      simp only [Sys.total] at h1 h2 ⊢
      omega
    · have h1 := sum_map_eraseIdx isShared hidx
      have h2 := h.shared
      unfold isShared at h1 h2 ⊢
      split at h1 <;> simp only [*, if_true, if_false, Bool.false_eq_true] at * <;> omega
    refine h.counts.congr fun f => ?_
    have := htotal (onFrame f)
    have := count_frames c f
    simp only [Sys.held, Sys.total] at *
    omega

/-! ## Mappings -/

theorem Sys.Inv.setFlag (hc : pcnOf s n = some c) (b : Bool) {k : Nat}
    (hk : k + isShared c = s.nshared + isShared { c with shared := b })
    (hclosed : b = false → ∀ (i : Nat) (e : Entry), c.fr[i]? = some (some e) →
      ∀ p ∈ s.ptes, p.frame = e.frame → p.rw = false ∧ p.shared = false) :
    Sys.Inv { PageCache.setPcn s n { c with shared := b } with nshared := k } g := by
  obtain ⟨-, hmem, hcn⟩ := pcnOf_some hc
  refine h.edit hc rfl rfl rfl hk rfl ?_
    (fun home hh => ⟨home, fun x hx _ => hh x hx, fun i e he => ?_⟩) hclosed
  · refine h.counts.congr fun f => ?_
    have := total_setPcn hc (onFrame f) { c with shared := b }
    simp only [weigh] at this
    simp only [Sys.held, Sys.total, PageCache.setPcn] at this ⊢
    omega
  rw [← hcn]
  exact hh c hmem i e he

theorem Sys.Inv.setShared (n : Nat) : (setShared s n).Inv g := by
  unfold PageCache.setShared
  cases hc : pcnOf s n with
  | none => exact h
  | some c =>
    simp only
    split
    · exact h
    next hs => exact h.setFlag hc true (by simp [isShared, hs]) (by simp)

theorem Sys.Inv.unmap (space va : Nat) : (unmap s space va).Inv g := by
  unfold PageCache.unmap
  split
  · exact h
  next i hi =>
  split
  · exact h
  next p hp =>
  apply Sys.Inv.unref
  have hsub : (s.ptes.eraseIdx i).Sublist s.ptes := eraseIdx_sublist _ _
  refine ⟨h.keys, h.pages, h.shared, ?_, h.home,
    fun x hx hsh j e he q hq => h.closed x hx hsh j e he q (hsub.subset hq)⟩
  refine h.counts.congr fun f => ?_
  have := sum_map_eraseIdx (maps f) hp
  simp only [maps] at this
  simp only [plus, Sys.held, mapped, Sys.total]
  omega

omit h in
theorem Sys.Inv.mapPte (p : Pte) (h : s.Inv (plus g p.frame))
    (hrw : p.rw = true ∨ p.shared = true → ∀ x ∈ s.cache, ∀ (i : Nat) (e : Entry), x.fr[i]? = some (some e) →
      e.frame = p.frame → x.shared = true) : Sys.Inv { s with ptes := p :: s.ptes } g := by
  refine ⟨h.keys, h.pages, h.shared, ?_, h.home, fun x hx hsh i e he q hq hqf => ?_⟩
  · refine h.counts.congr fun f => ?_
    simp only [plus, Sys.held, mapped, maps, map_cons, sum_cons, Sys.total]
    omega
  rcases mem_cons.1 hq with rfl | hq
  · by_contra hne
    have hany : q.rw = true ∨ q.shared = true := by
      rwa [not_and_or, Bool.not_eq_false, Bool.not_eq_false] at hne
    have := hrw hany x hx i e he hqf.symm
    rw [hsh] at this
    cases this
  · exact h.closed x hx hsh i e he q hq hqf

/-- What a lookup leaves: a frame of page `i` with a reference for the caller. -/
structure Sys.Got (s : Sys) (g : Nat → Nat) (n i fr : Nat) : Prop where
  inv : s.Inv (plus g fr)
  entry : ∃ c e, pcnOf s n = some c ∧ c.fr[i]? = some (some e) ∧ e.frame = fr

omit h in
theorem pcnOf_setPcn (hc : pcnOf s n = some c) (hn : c'.node = n) :
    pcnOf (PageCache.setPcn s n c') n = some c' := by
  obtain ⟨hidx, -, hcn⟩ := pcnOf_some hc
  have hlt := (List.getElem?_eq_some_iff.1 hidx).1
  have hkeep : indexOf (PageCache.setPcn s n c') n = indexOf s n := by
    unfold indexOf
    have : ∀ xs : List Pcn, xs.findIdx (fun c => decide (c.node = n))
        = (xs.map Pcn.node).findIdx fun m => decide (m = n) := by
      intro xs
      rw [findIdx_map]
      rfl
    rw [this, this, PageCache.setPcn, map_set_same Pcn.node hidx (hn.trans hcn.symm)]
  rw [pcnOf, hkeep, PageCache.setPcn, getElem?_set_self hlt]

theorem takeFrame_cases (hc : pcnOf s n = some c) (hi : i < c.fr.length) (a : Alloc) :
    ((takeFrame s n i a).2 = none ∧ (takeFrame s n i a).1.Inv g) ∨
      ∃ fr, (takeFrame s n i a).2 = some fr ∧ (takeFrame s n i a).1.Got g n i fr := by
  have hget : c.fr[i]? = some (c.fr.getD i none) := by
    rw [getD_eq_getElem?_getD, getElem?_eq_getElem hi, getD_some]
  unfold takeFrame
  rw [hc]
  simp only
  cases he : c.fr.getD i none with
  | some e =>
    rw [he] at hget
    refine .inr ⟨e.frame, rfl, (h.setPcn hc (sameFrames_seen hget true)).ref e.frame, ?_⟩
    refine ⟨_, { e with seen := true }, pcnOf_setPcn hc ?_, ?_, rfl⟩
    · exact (pcnOf_some hc).2.2
    · exact getElem?_set_self hi
  | none =>
    rw [he] at hget
    cases ha : pmmAlloc s a.frame with
    | none => exact .inl ⟨rfl, h⟩
    | some fr =>
      have hfree : s.refcnt fr = 0 := by
        have := (filter_eq_some_iff.1 ha).2
        simpa using this
      refine .inr ⟨fr, rfl, (h.newFrame hc hget hfree).ref fr, ?_⟩
      refine ⟨_, ⟨fr, true⟩, pcnOf_setPcn hc ?_, ?_, rfl⟩
      · exact (pcnOf_some hc).2.2
      · exact getElem?_set_self hi

theorem getNl_cases (n i : Nat) (a : Alloc) : ((getNl s n i a).2 = none ∧ (getNl s n i a).1.Inv g) ∨
      ∃ fr, (getNl s n i a).2 = some fr ∧ (getNl s n i a).1.Got g n i fr := by
  have hpcn : ∀ s', getPcn s n a = some s' → s'.Inv g := by
    intro s' hs
    unfold getPcn at hs
    split at hs
    · cases hs
      exact h
    next hnone =>
    split at hs
    · cases hs
      exact h.push hnone
    · cases hs
  unfold getNl
  split
  · exact .inl ⟨rfl, h⟩
  split
  · exact .inl ⟨rfl, h⟩
  next s' hs =>
  have h' := hpcn s' hs
  split
  · exact .inl ⟨rfl, h'⟩
  next s'' hgrow =>
  unfold growPcn at hgrow
  split at hgrow
  · cases hgrow
  next c hc =>
  split at hgrow
  next hi =>
    cases hgrow
    exact takeFrame_cases h' hc hi a
  next hi =>
  split at hgrow
  · cases hgrow
    refine takeFrame_cases (h'.setPcn hc (sameFrames_grow c _))
      (pcnOf_setPcn hc (pcnOf_some hc).2.2) ?_ a
    simp only [length_append, length_replicate]
    omega
  · cases hgrow

theorem Sys.Inv.only {x : Pcn} {e' : Entry} (hc : c ∈ s.cache)
    (hx : x ∈ s.cache) (hi : c.fr[i]? = some (some e)) (hj : x.fr[j]? = some (some e'))
    (heq : e'.frame = e.frame) : x = c := by
  obtain ⟨home, hh⟩ := h.home
  have h1 := hh c hc i e hi
  have h2 := hh x hx j e' hj
  rw [heq, h1] at h2
  exact h.unique hx hc (congrArg Prod.fst h2).symm

omit h in
theorem setShared_pcn (hc : pcnOf s n = some c) :
    pcnOf (setShared s n) n = some { c with shared := true } := by
  unfold setShared
  rw [hc]
  simp only
  split
  next hs =>
    rw [hc, ← hs]
  · exact pcnOf_setPcn hc (pcnOf_some hc).2.2

omit h in
@[simp] theorem unmap_cache (s : Sys) (space va : Nat) : (unmap s space va).cache = s.cache := by
  unfold unmap
  split
  · rfl
  · split <;> rfl

omit h in
theorem Sys.Inv.vmmMapCache {fr : Nat} (h : s.Got g n i fr) (space va : Nat) (w sh table : Bool)
    (hsh : sh = true → ∃ c, pcnOf s n = some c ∧ c.shared = true) :
    (pmmUnref (vmmMapCache s space va fr w sh table).1 fr).Inv g := by
  apply Sys.Inv.unref
  unfold PageCache.vmmMapCache
  split
  swap
  · exact h.inv
  refine Sys.Inv.mapPte ⟨space, va, fr, sh && w, sh⟩ ((h.inv.ref fr).unmap space va) ?_
  intro hrw x hx j e' hj heq
  obtain ⟨c, e, hc, he, rfl⟩ := h.entry
  simp only [Bool.and_eq_true] at hrw
  obtain ⟨c', hc', hshared⟩ := hsh (hrw.elim And.left id)
  rw [hc] at hc'
  cases hc'
  rw [unmap_cache] at hx
  rw [h.inv.only (pcnOf_some hc).2.1 hx he hj heq]
  exact hshared

theorem Sys.Inv.unmapAll (space k va : Nat) : (pcMap.unmapAll space k va s).Inv g := by
  induction k generalizing s va with
  | zero => exact h
  | succ k ih => exact ih (h.unmap space va) (va + 1)

theorem Sys.Inv.pcMap (space n : Nat) (w sh : Bool) (allocs : List Alloc)
    (va i : Nat) : (pcMap space n w sh allocs va i s).Inv g := by
  induction allocs generalizing s va i with
  | nil => exact h
  | cons a np ih =>
    rw [PageCache.pcMap]
    split
    · exact h.unmapAll space _ va
    rcases getNl_cases h n i a with ⟨hnone, h'⟩ | ⟨fr, hsome, hgot⟩
    · split
      next s' hs =>
        rw [hs] at h'
        exact h'
      next s' fr hs =>
      rw [hs] at hnone
      cases hnone
    split
    next s' hs =>
      rw [hs] at hsome
      cases hsome
    next s' fr' hs =>
    rw [hs] at hsome hgot
    cases hsome
    have hgot' : (if sh then PageCache.setShared s' n else s').Got g n i fr := by
      split
      · obtain ⟨c, e, hc, he, hf⟩ := hgot.entry
        exact ⟨hgot.inv.setShared n, _, e, setShared_pcn hc, he, hf⟩
      · exact hgot
    have hsh : sh = true → ∃ c, pcnOf (if sh then PageCache.setShared s' n else s') n = some c ∧
        c.shared = true := by
      intro hsh
      obtain ⟨c, e, hc, -⟩ := hgot.entry
      rw [if_pos hsh]
      exact ⟨_, setShared_pcn hc, rfl⟩
    have hdone := Sys.Inv.vmmMapCache hgot' space va w sh a.table hsh
    simp only
    generalize (if sh = true then PageCache.setShared s' n else s') = s'' at hdone ⊢
    split
    · exact ih hdone (va + 1) (i + 1)
    · exact hdone

theorem Sys.Inv.syncNl (c : Pcn) (first fin : Nat) : (syncNl s c first fin).Inv g := by
  unfold PageCache.syncNl
  split
  · exact ⟨h.keys, h.pages, h.shared, h.counts, h.home, h.closed⟩
  · exact h

theorem Sys.Inv.unmapped (hc : c ∈ s.cache) (hi : c.fr[i]? = some (some e))
    (hle : s.refcnt e.frame ≤ 1) : ∀ p ∈ s.ptes, p.frame ≠ e.frame := by
  intro p hp hpf
  have hcount := (h.counts e.frame).2 (by omega)
  have h1 := total_pos (w := onFrame e.frame) hc hi
  have h2 := mapped_pos hp
  rw [onFrame_some, if_pos rfl] at h1
  rw [hpf] at h2
  simp only [Sys.held] at hcount
  omega

omit h in
theorem mapped_map {u : Pte → Pte} (hu : ∀ p, (u p).frame = p.frame) (ptes : List Pte) (f : Nat) :
    mapped (ptes.map u) f = mapped ptes f := by
  have hmaps : maps f ∘ u = maps f := by
    funext p
    simp only [comp_apply, maps, hu]
  rw [mapped, List.map_map, hmaps, mapped]

theorem Sys.Inv.vmmSetWritable (space va : Nat) (w : Bool) :
    (vmmSetWritable s space va w).Inv g := by
  refine ⟨h.keys, h.pages, h.shared, h.counts.congr fun f => ?_, h.home,
    fun x hx hsh i e he q hq hqf => ?_⟩
  · have hsame := mapped_map (u := fun p => if p.space = space ∧ p.va = va then
        { p with rw := w && (p.shared || decide (s.refcnt p.frame ≤ 1)) } else p)
      (fun p => by split <;> rfl) s.ptes f
    simp only [Sys.held, PageCache.vmmSetWritable, Sys.total, hsame]
  obtain ⟨p, hp, rfl⟩ := mem_map.1 hq
  split at hqf
  next hat =>
    rw [if_pos hat]
    have hprivate := (h.closed x hx hsh i e he p hp hqf).2
    -- the page is in the cache, so that its frame is not the process's alone
    have hmany : ¬ s.refcnt p.frame ≤ 1 := fun hle =>
      h.unmapped hx he (hqf ▸ hle) p hp hqf
    simp [hprivate, hmany]
  next hat =>
    rw [if_neg hat]
    exact h.closed x hx hsh i e he p hp hqf

omit h in
theorem pcnOf_syncNl (s : Sys) (c : Pcn) (first fin n : Nat) :
    pcnOf (syncNl s c first fin) n = pcnOf s n := by
  unfold syncNl
  split <;> rfl

omit h in
theorem not_used (h : ¬(c.frames.any fun fr => 1 < s.refcnt fr) = true)
    (hi : c.fr[i]? = some (some e)) : s.refcnt e.frame ≤ 1 := by
  simp only [List.any_eq_true, decide_eq_true_eq, not_exists, not_and] at h
  exact Nat.le_of_not_lt (h e.frame (mem_frames.2 ⟨i, e, hi, rfl⟩))

theorem Sys.Inv.syncOne (n : Nat) : (syncOne s n).Inv g := by
  unfold PageCache.syncOne
  cases hc : pcnOf s n with
  | none => exact h
  | some c =>
    simp only
    split
    swap
    · exact h
    next hs =>
    have h' := h.syncNl c 0 c.fr.length
    have hc' : pcnOf (PageCache.syncNl s c 0 c.fr.length) n = some c := by
      rw [pcnOf_syncNl, hc]
    split
    · exact h'
    next hunused =>
    refine h'.setFlag hc' false ?_ fun _ i e he p hp hpf => ?_
    · have hpos : isShared c ≤ (PageCache.syncNl s c 0 c.fr.length).nshared := by
        rw [h'.shared]
        exact single_le_sum (by simp) _ (mem_map_of_mem (pcnOf_some hc').2.1)
      simp only [isShared, hs, if_true, Bool.false_eq_true, if_false] at hpos ⊢
      omega
    · exact absurd hpf (h'.unmapped (pcnOf_some hc').2.1 he (not_used hunused he) p hp)

theorem Sys.Inv.pcSyncAll : (pcSyncAll s).Inv g := by
  unfold PageCache.pcSyncAll
  split
  · exact h
  next hne =>
  clear hne
  generalize s.cache.map Pcn.node = nodes
  induction nodes generalizing s with
  | nil => exact h
  | cons n nodes ih => exact ih (h.syncOne n)

theorem Sys.Inv.pcChanged (n : Nat) : (pcChanged s n).Inv g := by
  unfold PageCache.pcChanged
  split
  · exact h
  split
  · exact ⟨h.keys, h.pages, h.shared, h.counts, h.home, h.closed⟩
  · exact h.dropNl n

theorem visit_cases (hc : pcnOf s n = some c) (hi : i < c.fr.length) :
    (visit s n c i).1.Inv g ∧ ∀ d, (visit s n c i).2 = some d →
      d.node = n ∧ d.page = i ∧ (∃ e, c.fr[i]? = some (some e) ∧ e.frame = d.frame) ∧
        c.shared = false ∧ ∀ p ∈ s.ptes, p.frame ≠ d.frame := by
  have hget : c.fr[i]? = some (c.fr.getD i none) := by
    rw [getD_eq_getElem?_getD, getElem?_eq_getElem hi, getD_some]
  unfold visit
  cases he : c.fr.getD i none with
  | none => exact ⟨h, by simp⟩
  | some e =>
    rw [he] at hget
    simp only
    split
    · exact ⟨h.setPcn hc (sameFrames_seen hget false), by simp⟩
    split
    · exact ⟨h, by simp⟩
    next hone =>
    split
    · exact ⟨h, by simp⟩
    next hsh =>
    refine ⟨?_, fun d hd => ?_⟩
    · exact (h.dropFrame hc hget).unref
    cases hd
    exact ⟨rfl, rfl, ⟨e, hget, rfl⟩, by simpa using hsh,
      h.unmapped (pcnOf_some hc).2.1 hget (by omega)⟩

end

end

end SamaraOS.PageCache
