import SamaraOS.Fs.Shape

/-!
# The operations keep the shape

Each operation of fs.c as edits of the tree and of the cores, and from these that the
shape is kept.
-/

namespace SamaraOS.Fs

open Function Option Store Shape Forest

def Store.Shaped (fs : Store) : Prop :=
  Shape fs.forest fs.core fs.root fs.fresh

abbrev Store.InTree (fs : Store) (n : Id) : Prop :=
  fs.forest.Under fs.root n

variable {fs : Store} {core : Cores} {a dir n t : Id} {nd nt : Node}

theorem isDir_iff : fs.isDir n = true ↔ IsDir fs.core n := by
  simp [Store.isDir, type_eq_core, IsDir]

theorem IsDir.live (h : IsDir core n) : core n ≠ none := by
  obtain ⟨nd, hn, -⟩ := h
  simp [hn]

theorem node_of_core {c : Node} (h : fs.core n = some c) :
    ∃ nd, fs.node n = some nd ∧ nd.core = c := by
  simpa [Store.core] using h

theorem Store.Views.shaped {F : Forest Id} {root fresh : Id}
    (h : fs.Views F core root fresh) (hs : Shape F core root fresh) : fs.Shaped := by
  unfold Store.Shaped
  rwa [h.forest, h.core, h.root, h.fresh]

theorem blank_fit (name : Name) (type : FsType) : (blank name type).Fit :=
  ⟨rfl, fun _ => ⟨rfl, rfl⟩, fun h => absurd rfl h, fun h => by cases h⟩

theorem fsCreate_eq {name : Name} {type : FsType} {fs' : Store}
    (hc : fsCreate fs dir name type = some (fs', n)) :
    fs.isDir dir = true ∧ findChild fs dir name = none ∧ n = fs.fresh ∧
      fs' = linkChild (nodeNew fs name type (some dir)) dir fs.fresh := by
  unfold fsCreate at hc
  split at hc
  · cases hc
  next hd =>
  split at hc
  · cases hc
  next hf =>
  cases hc
  exact ⟨by simpa using hd, by simpa using hf, rfl, rfl⟩

section

variable (h : fs.Shaped)

include h

theorem create_views (hD : IsDir fs.core dir) (name : Name) (type : FsType) :
    (linkChild (nodeNew fs name type (some dir)) dir fs.fresh).Views (fs.forest.hang dir fs.fresh)
      (update fs.core fs.fresh (some (blank name type))) fs.root (fs.fresh + 1) :=
  fs.views.create (h.bound fs.fresh le_rfl) hD.live name type

theorem create_shaped (hd : fs.InTree dir) (hD : IsDir fs.core dir) (name : Name)
    (type : FsType) : (linkChild (nodeNew fs name type (some dir)) dir fs.fresh).Shaped :=
  (create_views h hD name type).shaped (.add h hd hD (blank_fit name type) rfl rfl rfl)

theorem upd_shaped (n : Id) {f : Node → Node} (hf : Store.Inner f) (hkeep : ∀ nd :
    Node, fs.core n = some nd → nd.Fit → (f nd).Fit ∧ (f nd).kind = nd.kind ∧ (f nd).hl = nd.hl ∧ (f
    nd).hn = nd.hn) : (fs.upd n f).Shaped := by
  refine (fs.views.upd n hf).shaped ?_
  cases hn : fs.core n with
  | none =>
    rw [map_none, ← hn, update_eq_self]
    exact h
  | some nd =>
    obtain ⟨hfit, hk, hl, hh⟩ := hkeep nd hn (fit h n nd hn)
    exact touch h hn hfit hk hl hh

theorem hlink_views (ht : fs.node t = some nt) (hD : IsDir fs.core dir) (name : Name) :
    (fsHlink fs t dir name).Views (fs.forest.hang dir fs.fresh)
      (tie (update fs.core fs.fresh (some (blank name nt.type))) fs.fresh t
        (blank name nt.type) nt.core) fs.root (fs.fresh + 1) := by
  have hcore := core_of_node ht
  have htf : t ≠ fs.fresh := (lt_fresh h hcore).ne
  have hdf : dir ≠ fs.fresh := by
    rintro rfl
    exact hD.live (h.bound fs.fresh le_rfl)
  have hnew := fs.views.nodeNew (h.bound fs.fresh le_rfl) name nt.type (some dir)
  have hhl := hnew.upd fs.fresh (f := fun n => { n with hl := some t }) fun _ => ⟨rfl, rfl, rfl⟩
  have hhn := hhl.upd t (f := fun n => { n with hn := fs.fresh :: n.hn, xl := n.xl + 1 })
    fun _ => ⟨rfl, rfl, rfl⟩
  simp only [update_self, update_idem, update_of_ne htf, hcore, map_some] at hhn
  simp only [fsHlink, ht, tie, update_idem]
  refine hhn.linkChild ?_ fs.fresh
  by_cases hdt : dir = t
  · simp [hdt]
  · simpa [hdt, hdf] using hD.live

theorem hlink_shaped (ht : fs.node t = some nt)
    (hdir : nt.type ≠ .dir) (hl : nt.hl = none) (hu : nt.unlinked = false) (hd : fs.InTree dir)
    (hD : IsDir fs.core dir) (name : Name) : (fsHlink fs t dir name).Shaped := by
  have hcore := core_of_node ht
  have htf : t ≠ fs.fresh := (lt_fresh h hcore).ne
  have hadd := add h hd hD (blank_fit name nt.type) rfl rfl rfl
  refine (hlink_views h ht hD name).shaped ?_
  exact hadd.tied (Ne.symm htf) (update_self ..)
    ((update_of_ne htf ..).trans hcore) rfl hdir rfl rfl rfl hl hu

/-! ## Names that go -/

omit h in
theorem dropExtra_views (nd : Node) (hnt : n ≠ t)
    (ht : fs.node t = some nt) (hleaf : fs.child n = []) :
    (dropExtra fs n t).Views (fs.forest.cut n)
      (update (untie fs.core n t nd.core nt.core) n none) fs.root fs.fresh := by
  have hupd := fs.views.upd t (f := fun r => { r with hn := r.hn.erase n, xl := r.xl - 1 })
    fun _ => ⟨rfl, rfl, rfl⟩
  have hfree := (hupd.detach n).free (cut_parent_self _ n) (cut_kids_nil hleaf n)
  rw [core_of_node ht, map_some] at hfree
  have heq : update (untie fs.core n t nd.core nt.core) n none
      = update (update fs.core t
          (some { nt.core with hn := nt.core.hn.erase n, xl := nt.core.xl - 1 })) n none := by
    rw [untie, update_comm hnt, update_idem]
  rw [heq]
  exact hfree

section

variable (hn : fs.node n = some nd)

include hn

theorem extra_leaf (hl : nd.hl = some t) : n ≠ fs.root ∧ fs.child n = [] ∧ nd.hn = [] ∧
      ∃ nt, fs.node t = some nt ∧ n ≠ t ∧ n ∈ nt.hn ∧ nt.hl = none ∧ nt.unlinked = false := by
  have hcn := core_of_node hn
  obtain ⟨ct, hct, hty, hmem, htl, hdir, htu⟩ := extra h hcn hl
  obtain ⟨nt, ht, rfl⟩ := node_of_core hct
  have hnd : ¬IsDir fs.core n := not_isDir hcn (by rw [← hty]; exact hdir)
  refine ⟨?_, kids_nil h hnd, ?_, nt, ht, ?_, hmem, htl, htu⟩
  · rintro rfl
    exact hnd (rootDir h)
  · exact (fit h n nd.core hcn).extra (by rw [show nd.core.hl = some t from hl]; simp)
  rintro rfl
  rw [hn, some.injEq] at ht
  rw [← ht] at htl
  exact absurd (hl.symm.trans htl) (by simp)

theorem dropExtra_shaped (hl : nd.hl = some t) : (dropExtra fs n t).Shaped := by
  obtain ⟨hr, hleaf, hh, nt, ht, hnt, -⟩ := extra_leaf h hn hl
  have huntied := untied h (core_of_node hn) (core_of_node ht) hl
  have hval : untie fs.core n t nd.core nt.core n = some { nd.core with hl := none } := by
    rw [untie, update_of_ne hnt, update_self]
  refine (dropExtra_views nd hnt ht hleaf).shaped ?_
  exact huntied.drop hval hr hleaf rfl hh fun _ hv => by cases hv

omit h in
theorem dropLast_views (hleaf : fs.child n = []) :
    (dropLast fs n).Views (fs.forest.cut n) (update fs.core n
      (if 0 < nd.refs then some { nd.core with unlinked := true } else none)) fs.root fs.fresh := by
  have hcn := core_of_node hn
  have hdet := fs.views.detach n
  have hrefs : ((fsDetach fs n).node n).any (0 < ·.refs) = decide (0 < nd.refs) := by
    obtain ⟨md, hm, hmd⟩ := node_of_core ((congrFun hdet.core n).trans hcn)
    have : md.core.refs = nd.core.refs := congrArg Node.refs hmd
    simp only [Node.core] at this
    simp [hm, this]
  unfold dropLast
  simp only [hrefs, decide_eq_true_eq]
  split
  · have := hdet.upd n (f := fun r => { r with unlinked := true }) fun _ => ⟨rfl, rfl, rfl⟩
    rwa [hcn, map_some] at this
  · exact hdet.free (cut_parent_self _ n) (cut_kids_nil hleaf n)

theorem dropLast_shaped (hr : n ≠ fs.root)
    (hleaf : fs.child n = []) (hl : nd.hl = none) (hh : nd.hn = []) : (dropLast fs n).Shaped := by
  have hcn := core_of_node hn
  have hfit := fit h n nd.core hcn
  refine (dropLast_views hn hleaf).shaped (.drop h hcn hr hleaf hl hh ?_)
  intro nd' hv
  split at hv
  next hpos =>
    cases hv
    exact ⟨⟨hfit.count, hfit.dir, hfit.extra, fun _ => ⟨hpos, hh, hl⟩⟩, rfl⟩
  · cases hv

theorem chain_head (ha : a ∈ nd.hn) : ∃ na dir, fs.node a = some na ∧ na.hl = some n ∧ a ≠ n ∧
      fs.child a = [] ∧ na.parent = some dir ∧ fs.InTree dir ∧ IsDir fs.core dir ∧ dir ≠ a := by
  obtain ⟨ca, hca, hl, -, -, hu⟩ := chained h (core_of_node hn) ha
  obtain ⟨na, hna, rfl⟩ := node_of_core hca
  obtain ⟨hr, hleaf, -, nt, -, hne, -⟩ := extra_leaf h hna hl
  have hp : fs.parent a ≠ none := by
    rw [ne_eq, ← forest_parent, placed h a _ hca]
    simp [hr, hu]
  obtain ⟨dir, hdir⟩ := ne_none_iff_exists'.1 hp
  have hpar : na.parent = some dir := by rw [← parent_of_node hna, hdir]
  refine ⟨na, dir, hna, hl, hne, hleaf, hpar, ?_, h.tree.inner a dir hdir, ?_⟩
  · cases h.tree.under a hp with
    | root => exact absurd rfl hr
    | child hq hu =>
      rw [forest_parent, hdir, some.injEq] at hq
      rwa [hq]
  rintro rfl
  have hmem := (h.tree.linked.mem_iff dir dir).2 hdir
  rw [forest_kids, hleaf] at hmem
  cases hmem

def promoted (nd na : Node) (rest : List Id) : Node :=
  { nd.core with hn := rest, xl := nd.xl - 1, name := na.name }

omit h in
omit hn in
theorem dropPrimary_views {na : Node} (rest : List Id) (hn : fs.node n = some nd)
    (ha : fs.node a = some na) (han : a ≠ n) (hleaf : fs.child a = [])
    (hp : na.parent = some dir) (hD : IsDir fs.core dir) (hda : dir ≠ a) :
    (dropPrimary fs n a rest).Views (((fs.forest.cut a).cut n).hang dir n)
      (update (update fs.core a none) n (some (promoted nd na rest))) fs.root fs.fresh := by
  have hcn := core_of_node hn
  have hupd := fs.views.upd n (f := fun r => { r with hn := rest, xl := r.xl - 1 })
    fun _ => ⟨rfl, rfl, rfl⟩
  have hfree := (hupd.detach a).free (cut_parent_self _ a) (cut_kids_nil hleaf a)
  have hname := (hfree.detach n).upd n (f := fun r => { r with name := na.name })
    fun _ => ⟨rfl, rfl, rfl⟩
  rw [update_comm (Ne.symm han), update_self, update_idem, hcn,
    map_some, map_some] at hname
  simp only [dropPrimary, ha, hp]
  refine hname.attach ?_ (by simp)
  by_cases hdn : dir = n
  · simp [hdn]
  · simpa [hdn, hda] using hD.live

theorem dropPrimary_shaped {rest : List Id} (hh : nd.hn = a :: rest) : (dropPrimary fs n a rest).Shaped := by
  have hcn := core_of_node hn
  have hmem : a ∈ nd.hn := by simp [hh]
  obtain ⟨na, dir, ha, hl, han, haleaf, hp, hdir, hD, hda⟩ := chain_head h hn hmem
  obtain ⟨-, hnd, hnu⟩ := named h hcn hmem
  obtain ⟨har, -, hah, -⟩ := extra_leaf h ha hl
  have hca := core_of_node ha
  have hdn : dir ≠ n := by
    rintro rfl
    exact not_isDir hcn hnd hD
  have hnleaf : fs.child n = [] := kids_nil h (not_isDir hcn hnd)
  -- the extra name goes first
  have huntied := untied h hca hcn hl
  have hval : untie fs.core a n na.core nd.core a = some { na.core with hl := none } := by
    rw [untie, update_of_ne han, update_self]
  have hdrop := huntied.drop (v := none) hval har haleaf rfl hah fun _ hv => by cases hv
  have hvaln : update (untie fs.core a n na.core nd.core) a none n
      = some { nd.core with hn := nd.core.hn.erase a, xl := nd.core.xl - 1 } := by
    rw [update_of_ne (Ne.symm han), untie, update_self]
  -- then the node moves to its place
  have hnu' : ((fs.forest.cut a).Under fs.root n) := (hdrop.under_iff hvaln).2 hnu
  have hpn : (fs.forest.cut a).parent n ≠ none := by
    intro hnone
    have hnr := hnu'.eq_of_loose hnone
    exact not_isDir hcn hnd (hnr ▸ rootDir h)
  have hD' : IsDir (update (untie fs.core a n na.core nd.core) a none) dir := by
    obtain ⟨dd, hdd, hty⟩ := hD
    refine ⟨dd, ?_, hty⟩
    rw [update_of_ne hda, untie, update_of_ne hdn, update_of_ne hda, hdd]
  have hnleaf' := cut_kids_nil (F := fs.forest) hnleaf a
  have hmove := hdrop.move hpn (hdir.cut_leaf h.tree.linked haleaf hda) hD' fun hu =>
    hdn (hu.eq_of_leaf hdrop.tree.linked hnleaf')
  -- and takes its name
  have hrest : nd.core.hn.erase a = rest := by
    rw [show nd.core.hn = a :: rest from hh, List.erase_cons_head]
  rw [hrest] at hvaln
  have hfit := hmove.fit n _ hvaln
  have hnew : (promoted nd na rest).Fit := ⟨hfit.count, hfit.dir, hfit.extra, hfit.unlinked⟩
  have htouch := hmove.touch hvaln hnew rfl rfl rfl
  rw [untie, update_comm (Ne.symm han), update_idem, update_idem] at htouch
  exact (dropPrimary_views rest hn ha han haleaf hp hD hda).shaped htouch

end

end

theorem dropName_last (hn : fs.node n = some nd) (hl : nd.hl = none)
    (hh : nd.hn = []) : fsDropName fs n = dropLast fs n := by
  simp [fsDropName, hn, hl, hh]

/-- A name that is dropped is an extra one, one with extra names beside it, or the last. -/
theorem dropName_cases {P : Store → Prop} (none : fs.node n = none → P fs)
    (extra : ∀ nd t, fs.node n = some nd → nd.hl = some t → P (dropExtra fs n t))
    (primary : ∀ nd a rest, fs.node n = some nd → nd.hl = .none → nd.hn = a :: rest →
      P (dropPrimary fs n a rest))
    (last : ∀ nd, fs.node n = some nd → nd.hl = .none → nd.hn = [] → P (dropLast fs n)) :
    P (fsDropName fs n) := by
  cases hn : fs.node n with
  | none => simpa [fsDropName, hn] using none hn
  | some nd =>
    cases hl : nd.hl with
    | some t => simpa [fsDropName, hn, hl] using extra nd t hn hl
    | none =>
      cases hh : nd.hn with
      | cons a rest => simpa [fsDropName, hn, hl, hh] using primary nd a rest hn hl hh
      | nil => simpa [dropName_last hn hl hh] using last nd hn hl hh

theorem dropName_shaped (h : fs.Shaped) (hr : n ≠ fs.root) (hleaf : fs.child n = []) :
    (fsDropName fs n).Shaped :=
  dropName_cases (fun _ => h) (fun _ _ hn hl => dropExtra_shaped h hn hl)
    (fun _ _ _ hn _ hh => dropPrimary_shaped h hn hh)
    fun _ hn hl hh => dropLast_shaped h hn hr hleaf hl hh

theorem Node.Fit.more (h : nd.Fit) : { nd with refs := nd.refs + 1 }.Fit :=
  ⟨h.count, h.dir, h.extra, fun hu => ⟨Nat.succ_pos _, (h.unlinked hu).2⟩⟩

theorem release_none (hn : fs.node n = none) : fsRelease fs n = fs := by
  have hsame : fs.upd n (fun r => { r with refs := r.refs - 1 }) = fs := by
    simp only [Store.upd, Store.put, hn, map_none]
    rw [← hn, update_eq_self]
  unfold fsRelease
  simp only [hsame, hn, any_none, Bool.false_eq_true, if_false]

theorem release_views (h : fs.Shaped) (hn : fs.node n = some nd) :
    (fsRelease fs n).Views fs.forest (update fs.core n
      (if nd.refs - 1 = 0 ∧ nd.unlinked = true then none
        else some { nd.core with refs := nd.refs - 1 })) fs.root fs.fresh := by
  have hcn := core_of_node hn
  have hupd := fs.views.upd n (f := fun r => { r with refs := r.refs - 1 }) fun _ => ⟨rfl, rfl, rfl⟩
  rw [hcn, map_some] at hupd
  have hany : ((fs.upd n fun r => { r with refs := r.refs - 1 }).node n).any
      (fun r => r.refs == 0 && r.unlinked) = decide (nd.refs - 1 = 0 ∧ nd.unlinked = true) := by
    simp [upd_node, hn]
    rfl
  unfold fsRelease
  simp only [hany, decide_eq_true_eq]
  split
  swap
  · exact hupd
  next hc =>
  have hp : fs.forest.parent n = none := (placed h n _ hcn).2 (.inr hc.2)
  have hr : n ≠ fs.root := by
    rintro rfl
    obtain ⟨rd, hrd, -, hf⟩ := h.top
    rw [hcn, some.injEq] at hrd
    exact absurd (hc.2.symm.trans ((congrArg Node.unlinked hrd).trans hf)) (by simp)
  have := hupd.free hp (h.tree.kids_of_loose hp hr)
  rwa [update_idem] at this

theorem release_shaped (h : fs.Shaped) (n : Id) : (fsRelease fs n).Shaped := by
  cases hn : fs.node n with
  | none =>
    rw [release_none hn]
    exact h
  | some nd =>
    have hcn := core_of_node hn
    have hf := fit h n nd.core hcn
    refine (release_views h hn).shaped ?_
    split
    next hc => exact .reap h hcn hc.2
    next hc =>
    refine .touch h hcn ⟨hf.count, hf.dir, hf.extra, fun hu => ⟨?_, (hf.unlinked hu).2⟩⟩
      rfl rfl rfl
    exact Nat.pos_of_ne_zero fun h0 => hc ⟨h0, hu⟩

theorem moveTo_views (hn : fs.node n = some nd) (hD : IsDir fs.core dir) (name : Name) :
    (moveTo fs n dir name).Views ((fs.forest.cut n).hang dir n)
      (update fs.core n (some { nd.core with name := name.take (fsNameMax - 1) }))
      fs.root fs.fresh := by
  have hname := (fs.views.detach n).upd n
    (f := fun c => { c with name := name.take (fsNameMax - 1) }) fun _ => ⟨rfl, rfl, rfl⟩
  rw [core_of_node hn, map_some] at hname
  refine hname.attach ?_ (by simp)
  rw [update_apply]
  split
  · simp
  · exact hD.live

theorem moveTo_shaped (h : fs.Shaped) (hn : fs.parent n ≠ none)
    (hd : fs.InTree dir) (hD : IsDir fs.core dir) (hnd : ¬fs.forest.Under n dir) (name : Name) :
    (moveTo fs n dir name).Shaped := by
  obtain ⟨p, hp⟩ := ne_none_iff_exists'.1 hn
  obtain ⟨nd, hnode, -⟩ := live_of_parent hp
  have hcn := core_of_node hnode
  have hf := fit h n nd.core hcn
  refine (moveTo_views hnode hD name).shaped ?_
  exact (move h hn hd hD hnd).touch hcn ⟨hf.count, hf.dir, hf.extra, hf.unlinked⟩ rfl rfl rfl

end SamaraOS.Fs
