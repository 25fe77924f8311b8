import SamaraOS.Fs.Entries
import SamaraOS.Fs.Lookup

/-!
# Calls as edits

Whatever the paths are, a call is a few edits of the tree, each of which keeps its shape and
leaves every directory that is held in its place.  What a call has to check about a new name
for more than that is the parameter `ok`.
-/

namespace SamaraOS.Fs

open Function Option Shape Store

variable {fs g : Store}

/-! ## What successful calls do -/

variable {env : Env} {w v : Walks} {path : Path} {fs' : Store}

theorem unlinkBy_ok {cwds : List Id} {rd : Bool} (h : unlinkBy env fs w cwds path rd = .ok fs') :
    ∃ n nd, w.dent path = some n ∧ fs.node n = some nd ∧ nd.parent ≠ none ∧
      (nd.type = .dir → rd = true ∧ nd.child = [] ∧ n ∉ cwds) ∧ fs' = fsDropName fs n := by
  unfold unlinkBy at h
  simp only [bind, Except.bind, pure, Except.pure, throw, throwThe, MonadExceptOf.throw] at h
  split at h
  swap
  · cases h
  next n hn =>
  split at h
  swap
  · cases h
  next nd hnd =>
  cases hp : nd.parent with
  | none =>
    simp only [hp] at h
    split_ifs at h
  | some parent =>
    simp only [hp] at h
    split_ifs at h with hrd hty hne hroot hcwd hro hty
    · cases h
      exact ⟨n, nd, hn, hnd, by simp [hp], fun _ => ⟨hrd, by simpa using hne, hcwd⟩, rfl⟩
    cases h
    exact ⟨n, nd, hn, hnd, by simp [hp], fun hd => absurd hd hty, rfl⟩

theorem mkdirBy_ok (h : mkdirBy env fs w path = .ok fs') :
    ∃ parent name n, w.lookup path = none ∧ w.parent path = .ok (parent, name) ∧
      fsCreate fs parent name .dir = some (fs', n) := by
  unfold mkdirBy at h
  simp only [bind, Except.bind, pure, Except.pure, throw, throwThe, MonadExceptOf.throw] at h
  split at h
  · cases h
  next hl =>
  split at h
  · cases h
  next r hr =>
  split at h
  · cases h
  split at h
  · cases h
  next g n hc =>
  cases h
  split at hc
  · exact ⟨r.1, r.2, n, by simpa using hl, hr, hc⟩
  · cases hc

theorem symlinkBy_ok {target : Path} (h : symlinkBy env fs w target path = .ok fs') :
    ∃ parent name, w.parent path = .ok (parent, name) ∧
      fsSymlink fs parent name target = some fs' := by
  unfold symlinkBy at h
  simp only [bind, Except.bind, pure, Except.pure, throw, throwThe, MonadExceptOf.throw] at h
  split at h
  · cases h
  next r hr =>
  split at h
  · cases h
  split at h
  · cases h
  split at h
  · cases h
  next g hc =>
  cases h
  split at hc
  · exact ⟨r.1, r.2, hr, hc⟩
  · cases hc

theorem linkBy_ok {src dst : Path} {follow : Bool}
    (h : linkBy env fs w v src dst follow = .ok fs') :
    ∃ n nd parent name, w.peek src follow = some n ∧ fs.node n = some nd ∧
      nd.type ≠ .dir ∧ nd.unlinked = false ∧ v.parent dst = .ok (parent, name) ∧
      findChild fs parent name = none ∧ fs' = fsHlink fs n parent name := by
  unfold linkBy at h
  simp only [bind, Except.bind, pure, Except.pure, throw, throwThe, MonadExceptOf.throw] at h
  split at h
  swap
  · cases h
  next n hn =>
  split at h
  swap
  · cases h
  next nd hnd =>
  split at h
  · cases h
  next hty =>
  split at h
  · cases h
  next hdev =>
  split at h
  · cases h
  next r hr =>
  split_ifs at h with hf
  cases h
  simp only [not_or, Bool.not_eq_true] at hdev
  exact ⟨n, nd, r.1, r.2, hn, hnd, hty, hdev.2, hr, by simpa using hf, rfl⟩

theorem renameBy_ok {cwds : List Id} {src dst : Path}
    (h : renameBy env fs w v cwds src dst = .ok fs') :
    ∃ n nd parent name, w.dent src = some n ∧ fs.node n = some nd ∧
      v.parent dst = .ok (parent, name) ∧ (nd.type = .dir → isAncestor fs n parent = false) ∧
      ((findChild fs parent name = none ∧ fs' = moveTo fs n parent name) ∨
        ∃ d dd, findChild fs parent name = some d ∧ fs.node d = some dd ∧
          (((d = n ∨ fs.real d = fs.real n) ∧ fs' = fs) ∨
            (d ≠ n ∧ fs.real d ≠ fs.real n ∧ (nd.type = .dir ↔ dd.type = .dir) ∧
              (dd.type = .dir → dd.child = []) ∧
              ∃ g, unlinkBy env fs v cwds dst (dd.type == .dir) = .ok g ∧
                fs' = moveTo g n parent name))) := by
  unfold renameBy at h
  simp only [bind, Except.bind, pure, Except.pure, throw, throwThe, MonadExceptOf.throw] at h
  split at h
  swap
  · cases h
  next n hn =>
  split at h
  swap
  · cases h
  next nd hnd =>
  split at h
  · cases h
  next r hr =>
  split_ifs at h with hro hroom hx hanc
  have hanc' : nd.type = .dir → isAncestor fs n r.1 = false := by
    intro hty
    simpa [hty] using hanc
  split at h
  next hf =>
    cases h
    exact ⟨n, nd, r.1, r.2, hn, hnd, hr, hanc', .inl ⟨hf, rfl⟩⟩
  next d hf =>
  split at h
  swap
  · cases h
  next dd hdd =>
  split_ifs at h with hsame
  · cases h
    exact ⟨n, nd, r.1, r.2, hn, hnd, hr, hanc', .inr ⟨d, dd, hf, hdd, .inl ⟨hsame, rfl⟩⟩⟩
  split at h
  · cases h
  next g hg =>
  cases h
  simp only [not_or] at hsame
  unfold clearBy at hg
  simp only [bind, Except.bind, throw, throwThe, MonadExceptOf.throw] at hg
  split_ifs at hg with h1 h2 h3
  refine ⟨n, nd, r.1, r.2, hn, hnd, hr, hanc', .inr ⟨d, dd, hf, hdd, .inr
    ⟨hsame.1, hsame.2, ⟨?_, ?_⟩, ?_, g, hg, rfl⟩⟩⟩
  · intro hty
    by_contra hd
    exact h2 ⟨hd, hty⟩
  · intro hd
    by_contra hty
    exact h1 ⟨hd, hty⟩
  intro hd
  by_contra hc
  exact h3 ⟨hd, hc⟩

/-! ## Directories that stay -/

def Store.Place (fs : Store) (d : Id) : Prop :=
  fs.InTree d ∧ IsDir fs.core d

theorem mountId_eq_core (fs : Store) (d : Id) : fs.mountId d = (fs.core d).elim 0 (·.mountId) := by
  unfold Store.mountId Store.core
  cases fs.node d <;> rfl

theorem root_place (h : fs.Shaped) : fs.Place fs.root :=
  ⟨.root, rootDir h⟩

def Node.hold (nd : Node) : (FsType × Bool) × BitVec 8 :=
  (nd.kind, nd.mountId)

def Stays (held : Id → Prop) (fs g : Store) : Prop :=
  g.Shaped ∧ ∀ d, held d → fs.Place d → g.Place d ∧ g.mountId d = fs.mountId d

theorem Stays.refl (h : fs.Shaped) (held : Id → Prop) : Stays held fs fs :=
  ⟨h, fun _ _ hd => ⟨hd, rfl⟩⟩

theorem Stays.trans {held : Id → Prop} {k : Store} (h : Stays held fs g) (h' : Stays held g k) :
    Stays held fs k := by
  refine ⟨h'.1, fun d hd hp => ?_⟩
  obtain ⟨hp', hid⟩ := h.2 d hd hp
  obtain ⟨hp'', hid'⟩ := h'.2 d hd hp'
  exact ⟨hp'', hid'.trans hid⟩

theorem Place.of_hold (h : fs.Shaped) (hg : g.Shaped) {d : Id} (hd : fs.Place d)
    (hk : (g.core d).map Node.hold = (fs.core d).map Node.hold) :
    g.Place d ∧ g.mountId d = fs.mountId d := by
  obtain ⟨htree, c, hc, hty⟩ := hd
  have hu := (under_iff h hc).1 htree
  rw [hc, map_some, map_eq_some_iff] at hk
  obtain ⟨c', hc', hhold⟩ := hk
  simp only [Node.hold, Node.kind, Prod.mk.injEq] at hhold
  obtain ⟨⟨hty', hu'⟩, hid⟩ := hhold
  refine ⟨⟨(under_iff hg hc').2 (hu'.trans hu), c', hc', hty'.trans hty⟩, ?_⟩
  simp [mountId_eq_core, hc, hc', hid]

theorem stays_of_hold {held : Id → Prop} (h : fs.Shaped) (hg : g.Shaped)
    (hk : ∀ d, held d → fs.Place d → (g.core d).map Node.hold = (fs.core d).map Node.hold) :
    Stays held fs g :=
  ⟨hg, fun d hd hp => Place.of_hold h hg hp (hk d hd hp)⟩

theorem real_ne_of_place (h : fs.Shaped) {n d : Id} {nd : Node} (hn : fs.node n = some nd)
    (hd : fs.Place d) (hne : nd.type = .dir → d ≠ n) : fs.real d ≠ fs.real n := by
  have hcn := core_of_node hn
  rw [real_of_isDir h hd.2]
  by_cases hty : nd.type = .dir
  · rw [real_of_isDir h ⟨nd.core, hcn, hty⟩]
    exact hne hty
  rintro rfl
  rw [real_of_node hn] at hd
  cases hl : nd.hl with
  | none =>
    rw [hl, getD_none] at hd
    exact not_isDir hcn hty hd.2
  | some t =>
    rw [hl, getD_some] at hd
    obtain ⟨nt, hct, hty', -⟩ := extra h hcn hl
    exact not_isDir hct (by rw [hty']; exact hty) hd.2

structure Removable (fs : Store) (held : Id → Prop) (n : Id) : Prop where
  leaf : fs.child n = []
  parent : fs.parent n ≠ none
  held : IsDir fs.core n → ¬held n

section

variable {held : Id → Prop}

section

variable (h : fs.Shaped) (n : Id)

include h

theorem create_stays {dir : Id} (hd : fs.Place dir) (name : Name) (type : FsType) :
    Stays held fs (linkChild (nodeNew fs name type (some dir)) dir fs.fresh) := by
  refine stays_of_hold h (create_shaped h hd.1 hd.2 name type) fun d _ hp => ?_
  rw [(create_views h hd.2 name type).core, update_of_ne]
  obtain ⟨c, hc, -⟩ := hp.2
  exact (lt_fresh h hc).ne

theorem upd_stays {f : Node → Node} (hf : Store.Inner f) (hkeep : ∀ nd :
    Node, fs.core n = some nd → nd.Fit → (f nd).Fit ∧ (f nd).kind = nd.kind ∧ (f nd).hl = nd.hl ∧ (f
    nd).hn = nd.hn) (hid : ∀ nd, (f nd).mountId = nd.mountId) : Stays held fs (fs.upd n f) := by
  refine stays_of_hold h (upd_shaped h n hf hkeep) fun d _ hp => ?_
  rw [(fs.views.upd n hf).core, update_apply]
  split
  next hd =>
    subst hd
    cases hc : fs.core d with
    | none => rfl
    | some nd => simp [Node.hold, (hkeep nd hc (fit h d nd hc)).2.1, hid]
  · rfl

theorem release_stays : Stays held fs (fsRelease fs n) := by
  refine stays_of_hold h (release_shaped h n) fun d _ hp => ?_
  cases hn : fs.node n with
  | none => rw [release_none hn]
  | some nd =>
    rw [(release_views h hn).core, update_apply]
    split
    next hd =>
      subst hd
      have hcd := core_of_node hn
      have hu : nd.unlinked = false := (under_iff h hcd).1 hp.1
      simp [hu, hcd, Node.hold, Node.kind, Node.core]
    · rfl

theorem hlink_stays {t dir : Id} {nt : Node} (ht : fs.node t = some nt) (hdir : nt.type ≠ .dir)
    (hl : nt.hl = none) (hu : nt.unlinked = false) (hd : fs.Place dir) (name : Name) :
    Stays held fs (fsHlink fs t dir name) := by
  refine stays_of_hold h (hlink_shaped h ht hdir hl hu hd.1 hd.2 name) fun d _ hp => ?_
  obtain ⟨c, hc, hty⟩ := hp.2
  have hdf : d ≠ fs.fresh := (lt_fresh h hc).ne
  have hdt : d ≠ t := by
    rintro rfl
    exact not_isDir (core_of_node ht) hdir hp.2
  rw [(hlink_views h ht hd.2 name).core, tie, update_of_ne hdt,
    update_of_ne hdf, update_of_ne hdf]

theorem drop_stays {n : Id} (hr : Removable fs held n) : Stays held fs (fsDropName fs n) := by
  obtain ⟨p, hp⟩ := ne_none_iff_exists'.1 hr.parent
  obtain ⟨nd, hn, -⟩ := live_of_parent hp
  have hroot : n ≠ fs.root := by
    rintro rfl
    exact hr.parent h.tree.loose
  refine stays_of_hold h (dropName_shaped h hroot hr.leaf) fun d hd hplace => ?_
  have hne : nd.type = .dir → d ≠ n := by
    rintro hty rfl
    exact hr.held ⟨nd.core, core_of_node hn, hty⟩ hd
  rw [(dropName_other h hr.leaf (real_ne_of_place h hn hplace hne)).1]

theorem move_stays {n dir : Id} (hn : fs.parent n ≠ none) (hd : fs.Place dir)
    (hnd : ¬fs.forest.Under n dir) (name : Name) : Stays held fs (moveTo fs n dir name) := by
  obtain ⟨p, hp⟩ := ne_none_iff_exists'.1 hn
  obtain ⟨nd, hnode, -⟩ := live_of_parent hp
  refine stays_of_hold h (moveTo_shaped h hn hd.1 hd.2 hnd name) fun d _ hplace => ?_
  rw [(moveTo_views hnode hd.2 name).core, update_apply]
  split
  next hdn =>
    rw [hdn, core_of_node hnode]
    rfl
  · rfl

end

end

/-- One edit of the names: `ok` is what a new name has to meet, and no directory that is
`held` is removed. -/
inductive Edit (ok : Store → Id → Name → Prop) (held : Id → Prop) (fs : Store) : Store → Prop
  | create {dir : Id} {name : Name} (type : FsType) (hd : fs.Place dir) (hok : ok fs dir name) :
    Edit ok held fs (linkChild (nodeNew fs name type (some dir)) dir fs.fresh)
  | data (n : Id) (data : List Char) : Edit ok held fs (fs.upd n fun r => { r with data := data })
  | hold (n : Id) : Edit ok held fs (fsOpen fs n)
  | release (n : Id) : Edit ok held fs (fsRelease fs n)
  | hlink {t dir : Id} {nt : Node} {name : Name} (ht : fs.node t = some nt)
    (hdir : nt.type ≠ .dir) (hl : nt.hl = none) (hu : nt.unlinked = false) (hd : fs.Place dir)
    (hok : ok fs dir name) : Edit ok held fs (fsHlink fs t dir name)
  | drop {n : Id} (hr : Removable fs held n) : Edit ok held fs (fsDropName fs n)
  | move {n dir : Id} {name : Name} (hn : fs.parent n ≠ none) (hd : fs.Place dir)
    (hnd : ¬fs.forest.Under n dir) (hok : ok fs dir name) : Edit ok held fs (moveTo fs n dir name)

def Edits (ok : Store → Id → Name → Prop) (held : Id → Prop) : Store → Store → Prop :=
  Relation.ReflTransGen (Edit ok held)

section

variable {ok : Store → Id → Name → Prop} {held : Id → Prop}

theorem Edit.stays (h : fs.Shaped) (he : Edit ok held fs g) : Stays held fs g := by
  cases he with
  | create type hd _ => exact create_stays h hd _ type
  | data n data =>
    exact upd_stays (f := fun r => { r with data := data }) h n (fun _ => ⟨rfl, rfl, rfl⟩)
      (fun _ _ hf => ⟨⟨hf.count, hf.dir, hf.extra, hf.unlinked⟩, rfl, rfl, rfl⟩) fun _ => rfl
  | hold n =>
    exact upd_stays (f := fun r => { r with refs := r.refs + 1 }) h n (fun _ => ⟨rfl, rfl, rfl⟩)
      (fun _ _ hf => ⟨hf.more, rfl, rfl, rfl⟩) fun _ => rfl
  | release n => exact release_stays h n
  | hlink ht hdir hl hu hd _ => exact hlink_stays h ht hdir hl hu hd _
  | drop hr => exact drop_stays h hr
  | move hn hd hnd _ => exact move_stays h hn hd hnd _

theorem Edits.stays (h : fs.Shaped) (he : Edits ok held fs g) : Stays held fs g := by
  induction he with
  | refl => exact .refl h held
  | tail _ hstep ih => exact ih.trans (hstep.stays ih.1)

/-! ## Calls -/

theorem openNode_edits (env : Env) (n : Id) (fl : OpenFlags) :
    Edits ok held fs (openNode env fs n fl).1 := by
  unfold openNode
  cases hn : fs.node n with
  | none => exact .refl
  | some nd =>
    simp only
    split
    · exact .refl
    split
    · exact .refl
    split
    · exact .refl
    have htrunc : ∀ b : Bool, Edits ok held fs
        (if b then fs.upd n fun r => { r with data := [] } else fs) := by
      intro b
      cases b
      · exact .refl
      · exact .single (.data n [])
    split
    · exact htrunc _
    split
    · exact htrunc _
    · exact (htrunc _).tail (.hold n)

def openPlace (fs : Store) (base : Id) (path : Path) : Except Errno (Id × Name) := do
  let (parent, name) ← lookupParent fs base path
  chase fs 8 parent name

variable {env : Env} {dst path src : Path} {cwds : List Id} {d n parent : Id} {s : Sys}

theorem doOpen_edits (h : fs.Shaped) {base : Id} (fl : OpenFlags) (hb : fs.Place base)
    (hok : lookup fs base path = none → ∀ dir name, openPlace fs base path = .ok (dir, name) →
      fs.Place dir → name.length < fsNameMax → findChild fs dir name = none → ok fs dir name) :
    Edits ok held fs (doOpen env fs base path fl).1 := by
  rw [doOpen, openBy]
  dsimp only [Walks.plain]
  cases hl : lookup fs base path with
  | some n =>
    simp only
    split
    · exact .refl
    · exact openNode_edits env n fl
  | none =>
    simp only
    split
    · exact .refl
    split
    · exact .refl
    next parent name hplace =>
    simp only [bind_eq_ok] at hplace
    obtain ⟨⟨parent', name'⟩, hp, ⟨p, nm⟩, hc, -, -, heq⟩ := hplace
    cases heq
    have hopen : openPlace fs base path = .ok (p, nm) :=
      bind_eq_ok.2 ⟨(parent', name'), hp, hc⟩
    obtain ⟨htree, hD, hlen, -⟩ := lookupParent_ok h hb.1 hp
    obtain ⟨htree, hD, hlen⟩ := chase_ok h htree hD hlen hc
    split
    · exact .refl
    next k n hcr =>
    split at hcr
    · obtain ⟨-, hf, -, rfl⟩ := fsCreate_eq hcr
      have hnew := hok hl p nm hopen ⟨htree, hD⟩ hlen hf
      exact .head (.create .file ⟨htree, hD⟩ hnew) (openNode_edits env n fl)
    · cases hcr

def NewName (ok : Store → Id → Name → Prop) (fs : Store) (base : Id) (path : Path) : Prop :=
  ∀ dir name, lookupParent fs base path = .ok (dir, name) → fs.Place dir →
    name.length < fsNameMax → findChild fs dir name = none → ok fs dir name

theorem mkdir_edits (h : fs.Shaped) {base : Id} (hb : fs.Place base)
    (hok : lookup fs base path = none → NewName ok fs base path)
    (hg : doMkdir env fs base path = .ok g) : Edits ok held fs g := by
  obtain ⟨parent, name, n, hl, hp, hc⟩ := mkdirBy_ok (w := .plain fs base) hg
  obtain ⟨-, hf, -, rfl⟩ := fsCreate_eq hc
  obtain ⟨htree, hD, hlen, -⟩ := lookupParent_ok h hb.1 hp
  exact .single (.create .dir ⟨htree, hD⟩ (hok hl parent name hp ⟨htree, hD⟩ hlen hf))

theorem symlink_edits (h : fs.Shaped) {base : Id} {target : Path}
    (hb : fs.Place base) (hok : NewName ok fs base path)
    (hg : doSymlink env fs base target path = .ok g) : Edits ok held fs g := by
  obtain ⟨parent, name, hp, hc⟩ := symlinkBy_ok (w := .plain fs base) hg
  obtain ⟨htree, hD, hlen, -⟩ := lookupParent_ok h hb.1 hp
  rw [fsSymlink, map_eq_some_iff] at hc
  obtain ⟨⟨k, n⟩, hcr, rfl⟩ := hc
  obtain ⟨-, hf, -, rfl⟩ := fsCreate_eq hcr
  have hnew := hok parent name hp ⟨htree, hD⟩ hlen hf
  exact .head (.create .link ⟨htree, hD⟩ hnew) (.single (.data n target))

theorem link_edits (h : fs.Shaped) {base base' : Id} {follow : Bool} (hb : fs.Place base)
    (hb' : fs.Place base') (hok : NewName ok fs base' dst)
    (hg : doLink env fs base base' src dst follow = .ok g) : Edits ok held fs g := by
  obtain ⟨n, nd, parent, name, hl, hn, hty, hu, hp, hf, rfl⟩ :=
    linkBy_ok (w := .plain fs base) (v := .plain fs base') hg
  obtain ⟨htree, hD, hlen, -⟩ := lookupParent_ok h hb'.1 hp
  have hreal : fs.real n = n := by
    change lookupPeek fs base src follow = some n at hl
    unfold lookupPeek at hl
    split at hl
    · cases hl
    · exact resolveIn_real h (real_of_isDir h hb.2) hl
  have hhl : nd.hl = none := by
    cases hhl : nd.hl with
    | none => rfl
    | some t =>
      obtain ⟨-, -, -, _, _, hne, _⟩ := extra_leaf h hn hhl
      rw [real_of_node hn, hhl, getD_some] at hreal
      exact absurd hreal.symm hne
  have hnew := hok parent name hp ⟨htree, hD⟩ hlen hf
  exact .single (.hlink hn hty hhl hu ⟨htree, hD⟩ hnew)

/-- The directory that `rmdir` or `rename` removes is not held. -/
def Spared (held : Id → Prop) (fs : Store) (cwds : List Id) (base : Id) (path : Path) : Prop :=
  ∀ n, lookupDent fs base path = some n → n ∉ cwds → ¬held n

theorem unlink_removable (h : fs.Shaped) {w : Walks} {rd : Bool}
    (hok : rd = true → ∀ n, w.dent path = some n → n ∉ cwds → ¬held n)
    (hg : unlinkBy env fs w cwds path rd = .ok g) :
    ∃ n, w.dent path = some n ∧ Removable fs held n ∧ g = fsDropName fs n := by
  obtain ⟨n, nd, hl, hn, hp, hdir, rfl⟩ := unlinkBy_ok hg
  have hcn := core_of_node hn
  refine ⟨n, hl, ⟨?_, by rw [parent_of_node hn]; exact hp, ?_⟩, rfl⟩
  · by_cases hty : nd.type = .dir
    · simp [Store.child, hn, (hdir hty).2.1]
    · exact kids_nil h (not_isDir hcn hty)
  rintro ⟨c, hc, hty⟩
  rw [hcn, some.injEq] at hc
  subst hc
  obtain ⟨hrd, -, hcwd⟩ := hdir hty
  exact hok hrd n hl hcwd

theorem unlink_edits (h : fs.Shaped) {base : Id} {rd : Bool}
    (hok : rd = true → Spared held fs cwds base path)
    (hg : doUnlink env fs cwds base path rd = .ok g) : Edits ok held fs g := by
  obtain ⟨n, -, hr, rfl⟩ := unlink_removable (w := .plain fs base) h hok hg
  exact .single (.drop hr)

/-! ### Rename -/

theorem isAncestor_iff (h : fs.Shaped) {a : Id} (hn : fs.InTree n) :
    isAncestor fs a n = true ↔ fs.forest.Under a n := by
  have hlt : ∀ {m}, IsDir fs.core m → m < fs.fresh := by
    rintro m ⟨c, hc, -⟩
    exact lt_fresh h hc
  obtain ⟨c, hc⟩ := live_of_under h hn
  rw [isAncestor, List.contains_iff_mem]
  exact Forest.mem_climb_iff h.tree.loose (fun c p hp => hlt (h.tree.inner c p hp))
    (lt_fresh h hc) hn

theorem rename_source (h : fs.Shaped) {nd : Node} (hn : fs.node n = some nd)
    (htree : fs.InTree n) (hp : fs.Place parent)
    (hanc : nd.type = .dir → isAncestor fs n parent = false) :
    fs.parent n ≠ none ∧ ¬fs.forest.Under n parent := by
  have hcn := core_of_node hn
  have hnu : ¬fs.forest.Under n parent := by
    by_cases hty : nd.type = .dir
    · rw [← isAncestor_iff h hp.1, hanc hty]
      simp
    intro hu
    have hnd := not_isDir hcn hty
    exact hnd (hu.eq_of_leaf h.tree.linked (kids_nil h hnd) ▸ hp.2)
  refine ⟨fun hnone => ?_, hnu⟩
  exact hnu (htree.eq_of_loose hnone ▸ hp.1)

theorem rename_target (h : fs.Shaped) {name : Name} (hdot : name ≠ ['.'])
    (hf : findChild fs parent name = some d) (hdp : fs.parent d ≠ none)
    (hleaf : fs.child d = []) : fs.Entry parent name d ∧ parent ≠ d := by
  have hnokid : ∀ {c}, fs.parent c ≠ some d := by
    intro c hc
    have := (parent_of_child h).2 hc
    rw [hleaf] at this
    cases this
  obtain ⟨-, ⟨h1, -⟩ | ⟨-, hdd⟩ | he⟩ := findChild_some h hf
  · exact absurd h1 hdot
  · -- `..` is the root or has a child
    exfalso
    cases hpp : fs.parent parent with
    | none =>
      rw [hpp, getD_none] at hdd
      exact hdp (hdd ▸ hpp)
    | some q =>
      rw [hpp, getD_some] at hdd
      exact hnokid (hdd ▸ hpp)
  refine ⟨he, ?_⟩
  rintro rfl
  exact hnokid he.1

def RenameTarget (fs : Store) (base : Id) (dst : Path) : Prop :=
  baseName (stripSlashes dst) ≠ ['.'] ∧
    ∀ parent name d m, lookupParent fs base dst = .ok (parent, name) →
      findChild fs parent name = some d → lookupDent fs base dst = some m → fs.real m = fs.real d

structure Moves (fs g : Store) (n parent : Id) : Prop where
  same : g.core n = fs.core n
  linked : g.parent n ≠ none
  place : g.Place parent
  below : ¬g.forest.Under n parent

section

variable (h : fs.Shaped)

include h

theorem eq_of_real_dir {m : Id} {md : Node} (hm : fs.node m = some md) (hD : IsDir fs.core d)
    (hreal : fs.real m = d) : m = d := by
  rw [real_of_node hm] at hreal
  cases hl : md.hl with
  | none => rwa [hl, getD_none] at hreal
  | some t =>
    rw [hl, getD_some] at hreal
    subst hreal
    obtain ⟨nt, hnt, -, -, -, hdir, -⟩ := extra h (core_of_node hm) hl
    exact absurd hD (not_isDir hnt hdir)

theorem clear_moves {m : Id} {nd dd : Node} {name : Name} (hn : fs.node n = some nd)
    (hnp : fs.parent n ≠ none) (hnu : ¬fs.forest.Under n parent) (hp : fs.Place parent)
    (hdot : name ≠ ['.']) (hf : findChild fs parent name = some d) (hd : fs.node d = some dd)
    (hreal : fs.real d ≠ fs.real n) (hty : nd.type = .dir ↔ dd.type = .dir)
    (hr : Removable fs held m) (hmd : fs.real m = fs.real d) :
    Moves fs (fsDropName fs m) n parent := by
  obtain ⟨p, hmp⟩ := ne_none_iff_exists'.1 hr.parent
  obtain ⟨md, hm, -⟩ := live_of_parent hmp
  have hcd := core_of_node hd
  obtain ⟨hcore, hpar⟩ := dropName_other h hr.leaf (m := n) (by rw [hmd]; exact Ne.symm hreal)
  have hs := (drop_stays h hr).1
  -- a directory is removed under its own name
  have hdir : dd.type = .dir → m = d := by
    intro hdty
    have hD : IsDir fs.core d := ⟨dd.core, hcd, hdty⟩
    rw [real_of_isDir h hD] at hmd
    exact eq_of_real_dir h hm hD hmd
  have hplace : (fsDropName fs m).Place parent := by
    refine (Place.of_hold h hs hp ?_).1
    rw [(dropName_other h hr.leaf (real_ne_of_place h hm hp ?_)).1]
    rintro hmty rfl
    have hD : IsDir fs.core parent := hp.2
    have hpd : fs.real parent = parent := real_of_isDir h hD
    rw [hpd] at hmd
    have hdm := eq_of_real_dir h hd hD hmd.symm
    subst hdm
    exact (rename_target h hdot hf hr.parent hr.leaf).2 rfl
  refine ⟨hcore, by rw [hpar]; exact hnp, hplace, ?_⟩
  intro hu
  have hcn := core_of_node hn
  by_cases htn : nd.type = .dir
  · -- a directory has no extra names: only it leaves the tree
    have hdty := hty.1 htn
    obtain rfl := hdir hdty
    obtain ⟨hhn, hhl⟩ := (fit h m _ hcd).dir hdty
    rw [dropName_last hd hhl hhn, (dropLast_views hd hr.leaf).forest] at hu
    exact hnu hu.of_cut
  have hnd : ¬IsDir (fsDropName fs m).core n := not_isDir (hcore.trans hcn) htn
  have := hu.eq_of_leaf hs.tree.linked (kids_nil hs hnd)
  exact hnd (this ▸ hplace.2)

theorem rename_cases {base base' : Id} (hb : fs.Place base) (hb' : fs.Place base')
    (ht : RenameTarget fs base' dst) (hok : Spared held fs cwds base' dst)
    (hg : doRename env fs cwds base base' src dst = .ok g) :
    ∃ n parent name, lookupDent fs base src = some n ∧
      lookupParent fs base' dst = .ok (parent, name) ∧ fs.Place parent ∧ name.length < fsNameMax ∧
      ((g = fs ∧ ∃ d, findChild fs parent name = some d ∧ fs.real d = fs.real n) ∨
        (findChild fs parent name = none ∧ Moves fs fs n parent ∧ g = moveTo fs n parent name) ∨
        ∃ d m, findChild fs parent name = some d ∧ lookupDent fs base' dst = some m ∧
          Removable fs held m ∧ Moves fs (fsDropName fs m) n parent ∧
          g = moveTo (fsDropName fs m) n parent name) := by
  obtain ⟨n, nd, parent, name, hl, hn, hp, hanc, hcases⟩ :=
    renameBy_ok (w := .plain fs base) (v := .plain fs base') hg
  obtain ⟨htree, hD, hlen, hname⟩ := lookupParent_ok h hb'.1 hp
  have hplace : fs.Place parent := ⟨htree, hD⟩
  obtain ⟨hnp, hnu⟩ := rename_source h hn (lookupDent_inTree h hb.1 hl) hplace hanc
  refine ⟨n, parent, name, hl, hp, hplace, hlen, ?_⟩
  rcases hcases with ⟨hf, rfl⟩ | ⟨d, dd, hf, hd, ⟨hsame, rfl⟩ | ⟨-, hreal, hty, -, k, hk, rfl⟩⟩
  · exact .inr (.inl ⟨hf, ⟨rfl, hnp, hplace, hnu⟩, rfl⟩)
  · refine .inl ⟨rfl, d, hf, ?_⟩
    rcases hsame with rfl | hreal
    · rfl
    · exact hreal
  obtain ⟨m, hm, hr, rfl⟩ := unlink_removable (w := .plain fs base') h (fun _ => hok) hk
  have hmd := ht.2 parent name d m hp hf hm
  refine .inr (.inr ⟨d, m, hf, hm, hr, ?_, rfl⟩)
  exact clear_moves h hn hnp hnu hplace (hname ▸ ht.1) hf hd hreal hty hr hmd

theorem rename_edits {base base' : Id} (hb : fs.Place base) (hb' : fs.Place base')
    (ht : RenameTarget fs base' dst) (hspare : Spared held fs cwds base' dst)
    (hok : NewName ok fs base' dst) (hok' : ∀ parent name d m, lookupParent fs base' dst = .ok
    (parent, name) → findChild fs parent name = some d → lookupDent fs base' dst = some m →
    Removable fs held m → ok (fsDropName fs m) parent name)
    (hg : doRename env fs cwds base base' src dst = .ok g) : Edits ok held fs g := by
  obtain ⟨n, parent, name, -, hp, hplace, hlen, hcases⟩ := rename_cases h hb hb' ht hspare hg
  rcases hcases with ⟨rfl, -⟩ | ⟨hf, hm, rfl⟩ | ⟨d, m, hf, hl, hr, hm, rfl⟩
  · exact .refl
  · have hnew := hok parent name hp hplace hlen hf
    exact .single (.move hm.linked hm.place hm.below hnew)
  have hnew := hok' parent name d m hp hf hl hr
  exact .head (.drop hr) (.single (.move hm.linked hm.place hm.below hnew))

end

def Sys.Based (s : Sys) : Prop :=
  ∀ d ∈ s.cwd, s.fs.Place d

theorem Sys.Based.base (h : s.Based) (hs : s.fs.Shaped) (i : Nat) : s.fs.Place (cwdOf s i) := by
  unfold cwdOf
  rw [List.getD_eq_getElem?_getD]
  cases hi : s.cwd[i]? with
  | none => exact root_place hs
  | some d => exact h d (List.mem_of_getElem? hi)

theorem Sys.Based.dirBase (h : s.Based) (hs : s.fs.Shaped) {i : Nat} {fd : Option Id}
    (hfd : ∀ d ∈ fd, s.fs.Place d) : s.fs.Place (dirBase s i fd path) := by
  unfold Fs.dirBase
  split
  · exact h.base hs i
  cases fd with
  | none => exact h.base hs i
  | some d => exact hfd d rfl

/-- The directory descriptors that a call is given have not been removed. -/
structure Event.Linked (s : Sys) (ev : Event) : Prop where
  dirfd : ∀ d ∈ ev.dirfd, s.fs.Place d
  nfd : ∀ d ∈ ev.nfd, s.fs.Place d
  fchdir : ∀ d, ev.call = .fchdir d → s.fs.Place d

def Allowed (ok : Store → Id → Name → Prop) (held : Id → Prop) (s : Sys) (ev : Event) : Prop :=
  let base := dirBase s ev.proc ev.dirfd
  let base' := dirBase s ev.proc ev.nfd
  match ev.call with
  | .open path _ => lookup s.fs (base path) path = none → ∀ dir name,
      openPlace s.fs (base path) path = .ok (dir, name) → s.fs.Place dir → name.length < fsNameMax →
        findChild s.fs dir name = none → ok s.fs dir name
  | .mkdir path => lookup s.fs (base path) path = none → NewName ok s.fs (base path) path
  | .symlink _ path => NewName ok s.fs (base path) path
  | .link _ dst _ => NewName ok s.fs (base' dst) dst
  | .rmdir path => Spared held s.fs s.cwd (base path) path
  | .rename _ dst => RenameTarget s.fs (base' dst) dst ∧ Spared held s.fs s.cwd (base' dst) dst ∧
      NewName ok s.fs (base' dst) dst ∧ ∀ parent name d m,
        lookupParent s.fs (base' dst) dst = .ok (parent, name) →
        findChild s.fs parent name = some d → lookupDent s.fs (base' dst) dst = some m → Removable s.fs held m →
        ok (fsDropName s.fs m) parent name
  | _ => True

theorem orSame_edits {r : Except Errno Store} (hr : ∀ g, r = .ok g → Edits ok held fs g) :
    Edits ok held fs (orSame fs r) := by
  cases r with
  | error e => exact .refl
  | ok g => exact hr g rfl

theorem doChdir_fs (s : Sys) (i : Nat) (n : Id) : (doChdir s i n).fs = s.fs := by
  unfold doChdir
  split <;> rfl

theorem next_edits (h : s.fs.Shaped) (hb : s.Based) {ev : Event} (hl : ev.Linked s)
    (ha : Allowed ok held s ev) : Edits ok held s.fs (next s ev).fs := by
  have hbase : ∀ path, s.fs.Place (dirBase s ev.proc ev.dirfd path) :=
    fun _ => hb.dirBase h hl.dirfd
  have hbase' : ∀ path, s.fs.Place (dirBase s ev.proc ev.nfd path) := fun _ => hb.dirBase h hl.nfd
  obtain ⟨proc, env, call⟩ := ev
  cases call with
  | «open» path fl => exact doOpen_edits h fl (hbase path) ha
  | close n =>
    unfold next
    simp only
    split
    · exact .single (.release n)
    · exact .refl
  | mkdir path => exact orSame_edits fun g hg => mkdir_edits h (hbase path) ha hg
  | symlink target path => exact orSame_edits fun g hg => symlink_edits h (hbase path) ha hg
  | link src dst follow =>
    exact orSame_edits fun g hg => link_edits h (hbase src) (hbase' dst) ha hg
  | unlink path => exact orSame_edits fun g hg => unlink_edits h (fun hrd => absurd hrd (by simp)) hg
  | rmdir path => exact orSame_edits fun g hg => unlink_edits h (fun _ => ha) hg
  | rename src dst =>
    obtain ⟨ht, hspare, hok, hok'⟩ := ha
    exact orSame_edits fun g hg =>
      rename_edits h (hbase src) (hbase' dst) ht hspare hok hok' hg
  | chdir path =>
    unfold next
    simp only
    split
    · exact .refl
    · rw [doChdir_fs]
      exact .refl
  | fchdir fd =>
    rw [next, doChdir_fs]
    exact .refl

theorem doChdir_based (hb : s.Based) (i : Nat) (hn : s.fs.isDir n = true → s.fs.Place n) :
    (doChdir s i n).Based := by
  unfold doChdir
  split
  next hd =>
    intro d hmem
    rcases List.mem_or_eq_of_mem_set hmem with hold | rfl
    · exact hb d hold
    · exact hn hd
  · exact hb

theorem next_based (h : s.fs.Shaped) (hb : s.Based) {ev : Event} (hlink : ev.Linked s)
    (hs : Stays (· ∈ s.cwd) s.fs (next s ev).fs) : (next s ev).Based := by
  have hcwd : (next s ev).cwd = s.cwd → (next s ev).Based := by
    intro heq d hd
    rw [heq] at hd
    exact (hs.2 d hd (hb d hd)).1
  have hbase := hb.base h ev.proc
  obtain ⟨proc, env, call⟩ := ev
  cases call with
  | chdir path =>
    unfold next
    simp only
    split
    · exact hb
    next n hl =>
    exact doChdir_based hb proc fun hd => ⟨lookup_inTree h hbase.1 hl, isDir_iff.1 hd⟩
  | fchdir fd => exact doChdir_based hb proc fun _ => hlink.fchdir fd rfl
  | close n =>
    apply hcwd
    unfold next
    simp only
    split <;> rfl
  | _ => exact hcwd rfl

end

end SamaraOS.Fs
