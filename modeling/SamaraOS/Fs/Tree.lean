import SamaraOS.Fs.Edits

/-!
# The namespace under system calls

Every call keeps the tree sound as long as no call gives a node an empty name, no rename
goes to a path that ends in `.`, and the name that a rename replaces is the one that its
path leads to.
-/

namespace SamaraOS.Fs

variable {fs g : Store} {held : Id → Prop}

def Free (fs : Store) (dir : Id) (name : Name) : Prop :=
  name.length < fsNameMax ∧ Proper name ∧ fs.Vacant dir name

variable {name : Name} {dst path src : Path} {base parent : Id} {env : Env} {cwds : List Id}

theorem free_of_findChild (h : fs.Shaped) {dir : Id} (hd : fs.Place dir)
    (hlen : name.length < fsNameMax) (hne : name ≠ []) (hf : findChild fs dir name = none) :
    Free fs dir name := by
  obtain ⟨h1, h2, hvacant⟩ := findChild_none h hd.2 hf
  exact ⟨hlen, ⟨hne, h1, h2⟩, hvacant⟩

theorem Edit.sound (h : fs.Sound) (he : Edit Free held fs g) : g.Sound := by
  cases he with
  | create type hd hok => exact create_sound h hd.1 hd.2 hok.1 hok.2.1 hok.2.2 type
  | data n data =>
    exact upd_sound (f := fun r => { r with data := data }) h n (fun _ => ⟨rfl, rfl, rfl⟩)
      (fun _ _ hf => ⟨⟨hf.count, hf.dir, hf.extra, hf.unlinked⟩, rfl, rfl, rfl⟩) fun _ => rfl
  | hold n => exact open_sound h n
  | release n => exact release_sound h n
  | hlink ht hdir hl hu hd hok =>
    exact hlink_sound h ht hdir hl hu hd.1 hd.2 hok.1 hok.2.1 hok.2.2
  | @drop n hr =>
    have hroot : n ≠ fs.root := by
      rintro rfl
      exact hr.parent h.shape.tree.loose
    exact dropName_sound h hroot hr.leaf
  | move hn hd hnd hok => exact moveTo_sound h hn hd.1 hd.2 hnd hok.1 hok.2.1 fun c _ => hok.2.2 c

theorem Edits.sound (h : fs.Sound) (he : Edits Free held fs g) : g.Sound := by
  induction he with
  | refl => exact h
  | tail _ hstep ih => exact hstep.sound ih

theorem name_ne_nil (h : ∃ c ∈ path, c ≠ '/') : baseName (stripSlashes path) ≠ [] := by
  intro he
  obtain ⟨c, hc, hne⟩ := h
  exact hne (baseName_strip he c hc)

theorem newName_free (h : fs.Shaped) (hb : fs.Place base)
    (hreg : ∃ c ∈ path, c ≠ '/') : NewName Free fs base path := by
  intro dir name hp hd hlen hf
  obtain ⟨-, -, -, hname⟩ := lookupParent_ok h hb.1 hp
  refine free_of_findChild h hd hlen ?_ hf
  rw [hname]
  exact name_ne_nil hreg

theorem mkdir_free (h : fs.Shaped) (hb : fs.Place base)
    (hl : lookup fs base path = none) : NewName Free fs base path := by
  intro dir name hp hd hlen hf
  obtain ⟨-, -, -, hname⟩ := lookupParent_ok h hb.1 hp
  refine free_of_findChild h hd hlen ?_ hf
  have hpath : path ≠ [] := by
    rintro rfl
    simp [lookupParent] at hp
  rintro rfl
  rw [lookup_slashes hpath (baseName_strip hname.symm)] at hl
  cases hl

/-- The rename of `src` to `dst` finds the name it replaces where its path leads. -/
def SoundTarget (fs : Store) (base : Id) (dst : Path) : Prop :=
  (∃ c ∈ dst, c ≠ '/') ∧ baseName (stripSlashes dst) ≠ ['.'] ∧
    ∀ parent name d, lookupParent fs base dst = .ok (parent, name) →
      findChild fs parent name = some d → lookupDent fs base dst = some d

theorem SoundTarget.target (h : SoundTarget fs base dst) : RenameTarget fs base dst := by
  refine ⟨h.2.1, fun parent name d m hp hf hm => ?_⟩
  rw [h.2.2 parent name d hp hf, Option.some.injEq] at hm
  rw [hm]

section

variable (h : fs.Sound) (hb : fs.Place base) (hreg : SoundTarget fs base dst)

include h hb hreg

theorem cleared_free {d m : Id} (hp : lookupParent fs base dst = .ok (parent, name))
    (hf : findChild fs parent name = some d) (hm : lookupDent fs base dst = some m)
    (hr : Removable fs held m) : Free (fsDropName fs m) parent name := by
  obtain ⟨-, -, hlen, hname⟩ := lookupParent_ok h.shape hb.1 hp
  rw [hreg.2.2 parent name d hp hf, Option.some.injEq] at hm
  subst hm
  obtain ⟨he, -⟩ := rename_target h.shape (hname ▸ hreg.2.1) hf hr.parent hr.leaf
  obtain ⟨nm, hnm, hproper⟩ := h.named.proper d parent he.1
  rw [he.2, Option.some.injEq] at hnm
  subst hnm
  refine ⟨hlen, hproper, fun c hc hcname => ?_⟩
  exact ((dropName_resolves h hr.leaf he).1 ⟨c, ⟨hc, hcname⟩, rfl⟩).2 ⟨rfl, rfl⟩

theorem rename_free {old : Id} (hold : fs.Place old)
    (hg : doRename env fs cwds old base src dst = .ok g) : Edits Free (· ∈ cwds) fs g :=
  rename_edits h.shape hold hb hreg.target (fun _ _ hn => hn) (newName_free h.shape hb hreg.1)
    (fun _ _ _ _ hp hf hm hr => cleared_free h hb hreg hp hf hm hr) hg

end

theorem moveTo_finds (h : fs.Sound) {n dir : Id} (hn : fs.parent n ≠ none)
    (hd : fs.Place dir) (hnd : ¬fs.forest.Under n dir) (hfree : Free fs dir name) :
    ∃ m, findChild (moveTo fs n dir name) dir name = some m ∧
      (moveTo fs n dir name).real m = fs.real n := by
  obtain ⟨p, hp⟩ := Option.ne_none_iff_exists'.1 hn
  obtain ⟨name₀, hname, -⟩ := h.named.proper n p hp
  have hs := moveTo_sound h hn hd.1 hd.2 hnd hfree.1 hfree.2.1 fun c _ => hfree.2.2 c
  obtain ⟨m, he, hreal⟩ := (moveTo_resolves h ⟨hp, hname⟩ hd.2 hfree.1).2 (.inr ⟨rfl, rfl, rfl⟩)
  exact ⟨m, findChild_eq hs he.1 he.2, (real_eq_core _ m).trans hreal⟩

section

variable (h : fs.Sound) (hb : fs.Place base) (hreg : SoundTarget fs base dst)

include h hb hreg

theorem rename_finds {old : Id} (hold : fs.Place old)
    (hg : doRename env fs cwds old base src dst = .ok g)
    (hp : lookupParent fs base dst = .ok (parent, name)) :
    ∃ n m, lookupDent fs old src = some n ∧ findChild g parent name = some m ∧
      g.real m = fs.real n := by
  have hspare : Spared (· ∈ cwds) fs cwds base dst := fun _ _ hn => hn
  obtain ⟨n, parent', name', hl, hp', hplace, hlen, hcases⟩ :=
    rename_cases h.shape hold hb hreg.target hspare hg
  rw [hp, Except.ok.injEq, Prod.mk.injEq] at hp'
  obtain ⟨rfl, rfl⟩ := hp'
  rcases hcases with ⟨rfl, d, hf, hreal⟩ | ⟨hf, hm, rfl⟩ | ⟨d, k, hf, hk, hr, hm, rfl⟩
  · exact ⟨n, d, hl, hf, hreal⟩
  · have hfree := newName_free h.shape hb hreg.1 parent name hp hplace hlen hf
    obtain ⟨m, hfm, hreal⟩ := moveTo_finds h hm.linked hm.place hm.below hfree
    exact ⟨n, m, hl, hfm, hreal⟩
  have hfree := cleared_free h hb hreg hp hf hk hr
  have hedit : Edit Free (· ∈ cwds) fs (fsDropName fs k) := .drop hr
  have hdrop := hedit.sound h
  obtain ⟨m, hfm, hreal⟩ := moveTo_finds hdrop hm.linked hm.place hm.below hfree
  refine ⟨n, m, hl, hfm, hreal.trans ?_⟩
  rw [real_eq_core, real_eq_core, realOf, realOf, hm.same]

theorem rename_resolves {old base' : Id} (hold : fs.Place old)
    (hok : doRename env fs cwds old base src dst = .ok g)
    (hp : lookupParent fs base dst = .ok (parent, name))
    (hlast : lastStep g base' dst = some (parent, name)) :
    ∃ n, lookupPeek fs old src false = some n ∧ lookupPeek g base' dst false = some n := by
  have hg := ((rename_free h hb hreg hold hok).sound h).shape
  obtain ⟨n, m, hl, hf, hreal⟩ := rename_finds h hb hreg hold hok hp
  refine ⟨fs.real n, lookupDent_real h.shape (real_of_isDir h.shape hold.2) hold.1 hl, ?_⟩
  obtain ⟨nd, hnd⟩ := findChild_live hg hf
  rw [← hreal]
  exact lookupPeek_last (look_eq hg hf) hnd (fun _ => rfl) hlast

end

end SamaraOS.Fs
