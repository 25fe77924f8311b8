import SamaraOS.Fs.Entries
import SamaraOS.Fs.Lookup

/-!
# Hard links

Names of files are made, dropped and moved, and files opened and closed, in any order.
A name keeps standing for its file, with its contents, until that name is dropped or
replaced, and a file is freed with its last name and its last open description.  A rename
over another name looks that name up a second time, to unlink it.
-/

namespace SamaraOS.Fs

open Function Option Store Shape List

inductive LinkOp where
  | hlink (t dir : Id) (name : Name)
  | drop (n : Id)
  /-- `found` is what the second lookup of the new path finds, in `do_unlink`. -/
  | rename (n dir : Id) (name : Name) (found : Option Id)
  | open (n : Id)
  | release (n : Id)
  deriving DecidableEq, Repr

section

variable (fs : Store)

def isName (n : Id) : Bool :=
  (fs.node n).any fun nd => nd.type != .dir && !nd.unlinked

def isPlace (n : Id) : Bool :=
  (fs.node n).any fun nd => nd.type == .dir && !nd.unlinked

def fits (name : Name) : Bool :=
  name != [] && decide (name.length < fsNameMax)

def allowed : LinkOp → Bool
  | .hlink t dir name =>
    isName fs t && fs.real t == t && isPlace fs dir && fits name && (findChild fs dir name).isNone
  | .drop n => isName fs n
  | .rename n dir name _ =>
    isName fs n && isPlace fs dir && fits name && (findChild fs dir name).all (isName fs)
  | .open n => isName fs n && fs.real n == n
  | .release n => (fs.node n).any fun nd => nd.type != .dir && decide (0 < nd.refs)

def sameFile (n dir : Id) (name : Name) : Bool :=
  (findChild fs dir name).any fun d => d == n || fs.real d == fs.real n

def perform : LinkOp → Store
  | .hlink t dir name => fsHlink fs t dir name
  | .drop n => fsDropName fs n
  | .rename n dir name found =>
    if sameFile fs n dir name then fs
    else if (findChild fs dir name).isNone then moveTo fs n dir name
    else
      match found with
      | none => fs
      | some d => if isName fs d then moveTo (fsDropName fs d) n dir name else fs
  | .open n => fsOpen fs n
  | .release n => fsRelease fs n

def nextLink (op : LinkOp) : Store :=
  if allowed fs op then perform fs op else fs

def LinkOp.Takes (op : LinkOp) (dir : Id) (name : Name) : Prop :=
  allowed fs op = true ∧ match op with
    | .drop n => fs.Entry dir name n
    | .rename n d nm _ => sameFile fs n d nm = false ∧ (fs.Entry dir name n ∨ (dir = d ∧ name = nm))
    | _ => False

/-- A rename finds the name it replaces again. -/
def LinkOp.Direct : LinkOp → Prop
  | .rename _ dir name found => ∀ d, findChild fs dir name = some d → found = some d
  | _ => True

def LinkOp.count (op : LinkOp) (n : Id) (refs : Nat) : Nat :=
  match op with
  | .open m => if m = n then refs + 1 else refs
  | .release m => if m = n then refs - 1 else refs
  | _ => refs

def LinkOp.opens (op : LinkOp) : Id → Nat → Nat :=
  if allowed fs op then op.count else fun _ refs => refs

def contents (n : Id) : Option (List Char) :=
  (fs.node n).map (·.data)

end

def Spares (dir : Id) (name : Name) : Store → List LinkOp → Prop
  | _, [] => True
  | fs, op :: ops => ¬op.Takes fs dir name ∧ Spares dir name (nextLink fs op) ops

def Direct : Store → List LinkOp → Prop
  | _, [] => True
  | fs, op :: ops => op.Direct fs ∧ Direct (nextLink fs op) ops

variable {fs : Store} {dir n : Id} {name : Name} {g : Store}

theorem isName_iff : isName fs n = true ↔
    ∃ nd, fs.node n = some nd ∧ nd.type ≠ .dir ∧ nd.unlinked = false := by
  unfold isName
  cases fs.node n <;> simp

theorem isPlace_iff (h : fs.Shaped) : isPlace fs n = true ↔ fs.InTree n ∧ IsDir fs.core n := by
  have hiff : isPlace fs n = true ↔ ∃ nd, fs.node n = some nd ∧ nd.type = .dir ∧
      nd.unlinked = false := by
    unfold isPlace
    cases fs.node n <;> simp
  rw [hiff]
  constructor
  · rintro ⟨nd, hn, hty, hu⟩
    have hcn := core_of_node hn
    exact ⟨(under_iff h hcn).2 hu, nd.core, hcn, hty⟩
  rintro ⟨ht, c, hc, hty⟩
  obtain ⟨nd, hn, rfl⟩ := node_of_core hc
  exact ⟨nd, hn, hty, (under_iff h hc).1 ht⟩

theorem fits_iff : fits name = true ↔ name ≠ [] ∧ name.length < fsNameMax := by
  simp [fits]

theorem isName.entry (h : fs.Sound) (hn : isName fs n = true) :
    fs.child n = [] ∧ n ≠ fs.root ∧ ∃ p name, fs.Entry p name n := by
  obtain ⟨nd, hnode, hty, hu⟩ := isName_iff.1 hn
  have hcn := core_of_node hnode
  have hnd := not_isDir hcn hty
  have hr : n ≠ fs.root := by
    rintro rfl
    exact hnd (rootDir h.shape)
  refine ⟨kids_nil h.shape hnd, hr, ?_⟩
  have hp : fs.forest.parent n ≠ none := by
    rw [ne_eq, placed h.shape n _ hcn]
    simp only [hr, false_or]
    rw [show nd.core.unlinked = false from hu]
    simp
  obtain ⟨p, hp⟩ := ne_none_iff_exists'.1 hp
  exact ⟨p, nd.name, hp, by simp [nameOf, hcn, Node.core]⟩

/-! ## The operations one by one -/

def Node.Stays (nd nd' : Node) (k : Nat) : Prop :=
  nd'.type = nd.type ∧ nd'.data = nd.data ∧ nd'.hl = nd.hl ∧ nd'.refs = k

def Keeps (fs fs' : Store) (opens : Id → Nat → Nat) : Prop :=
  ∀ m nd, fs.core m = some nd →
    (∃ nd', fs'.core m = some nd' ∧ nd.Stays nd' (opens m nd.refs)) ∨
      (fs'.core m = none ∧ (nd.hl ≠ none ∨ opens m nd.refs = 0))

theorem Keeps.refl (fs : Store) : Keeps fs fs fun _ k => k :=
  fun _ nd hm => .inl ⟨nd, hm, rfl, rfl, rfl, rfl⟩

theorem keeps_open (n : Id) : Keeps fs (fsOpen fs n) fun m k => if n = m then k + 1 else k := by
  have hv : (fsOpen fs n).Views _ _ _ _ :=
    fs.views.upd n (f := fun r => { r with refs := r.refs + 1 }) fun _ => ⟨rfl, rfl, rfl⟩
  intro m nd hm
  rw [hv.core]
  left
  by_cases hmn : m = n
  · subst hmn
    exact ⟨{ nd with refs := nd.refs + 1 }, by rw [update_self, hm, map_some],
      rfl, rfl, rfl, (if_pos rfl).symm⟩
  · exact ⟨nd, by rw [update_of_ne hmn, hm], rfl, rfl, rfl, by simp [Ne.symm hmn]⟩

theorem keeps_release (h : fs.Shaped) (n : Id) :
    Keeps fs (fsRelease fs n) fun m k => if n = m then k - 1 else k := by
  intro m nd hm
  by_cases hmn : n = m
  · subst hmn
    obtain ⟨nd, hn, rfl⟩ := node_of_core hm
    rw [(release_views h hn).core, update_self]
    simp only [if_true]
    split
    next hz => exact .inr ⟨rfl, .inr (by simpa [Node.core] using hz.1)⟩
    · exact .inl ⟨_, rfl, rfl, rfl, rfl, rfl⟩
  left
  refine ⟨nd, ?_, rfl, rfl, rfl, (if_neg hmn).symm⟩
  cases hn : fs.node n with
  | none => rw [release_none hn, hm]
  | some md => rw [(release_views h hn).core, update_of_ne (Ne.symm hmn), hm]

theorem keeps_hlink (h : fs.Shaped) {t : Id} {nt : Node} (ht : fs.node t = some nt)
    (hD : IsDir fs.core dir) (name : Name) : Keeps fs (fsHlink fs t dir name) fun _ k => k := by
  intro m nd hm
  have hmf : m ≠ fs.fresh := (lt_fresh h hm).ne
  rw [(hlink_views h ht hD name).core, tie]
  left
  by_cases hmt : m = t
  · subst hmt
    rw [core_of_node ht, some.injEq] at hm
    subst hm
    exact ⟨_, update_self .., rfl, rfl, rfl, rfl⟩
  · exact ⟨nd, by simp [hmt, hmf, hm], rfl, rfl, rfl, rfl⟩

theorem keeps_drop (h : fs.Shaped) (hleaf : fs.child n = []) :
    Keeps fs (fsDropName fs n) fun _ k => k := by
  refine dropName_cases (P := (Keeps fs · fun _ k => k)) (fun _ => .refl fs)
    (fun nd t hn hl m md hm => ?_) (fun nd a rest hn hl hh m md hm => ?_) fun nd hn _ _ m md hm => ?_
  · obtain ⟨-, -, -, nt, ht, hnt, -⟩ := extra_leaf h hn hl
    rw [(dropExtra_views nd hnt ht hleaf).core]
    by_cases hmn : m = n
    · subst hmn
      rw [core_of_node hn, some.injEq] at hm
      exact .inr ⟨update_self .., .inl (by rw [← hm]; simp [Node.core, hl])⟩
    left
    rw [update_of_ne hmn, untie]
    by_cases hmt : m = t
    · subst hmt
      rw [core_of_node ht, some.injEq] at hm
      subst hm
      exact ⟨_, update_self .., rfl, rfl, rfl, rfl⟩
    · exact ⟨md, by simp [hmt, hmn, hm], rfl, rfl, rfl, rfl⟩
  · obtain ⟨na, dir, ha, hal, han, haleaf, hp, -, hD, hda⟩ := chain_head h hn (a := a) (by simp [hh])
    rw [(dropPrimary_views rest hn ha han haleaf hp hD hda).core]
    by_cases hmn : m = n
    · subst hmn
      rw [core_of_node hn, some.injEq] at hm
      subst hm
      exact .inl ⟨_, update_self .., rfl, rfl, rfl, rfl⟩
    rw [update_of_ne hmn]
    by_cases hma : m = a
    · subst hma
      rw [core_of_node ha, some.injEq] at hm
      exact .inr ⟨update_self .., .inl (by rw [← hm]; simp [Node.core, hal])⟩
    · exact .inl ⟨md, by simp [hma, hm], rfl, rfl, rfl, rfl⟩
  rw [(dropLast_views hn hleaf).core]
  by_cases hmn : m = n
  · subst hmn
    rw [core_of_node hn, some.injEq] at hm
    subst hm
    rw [update_self]
    split
    · exact .inl ⟨_, rfl, rfl, rfl, rfl, rfl⟩
    next hz => exact .inr ⟨rfl, .inr (Nat.eq_zero_of_not_pos hz)⟩
  · exact .inl ⟨md, by simp [hmn, hm], rfl, rfl, rfl, rfl⟩

theorem Keeps.move {opens : Id → Nat → Nat} (h : Keeps fs g opens) {nd : Node}
    (hn : g.node n = some nd) (hD : IsDir g.core dir) (name : Name) :
    Keeps fs (moveTo g n dir name) opens := by
  intro m md hm
  rw [(moveTo_views hn hD name).core]
  by_cases hmn : m = n
  · subst hmn
    obtain ⟨nd', hg, hty, hdata, hhl, hrefs⟩ | ⟨hg, -⟩ := h m md hm
    · rw [core_of_node hn, some.injEq] at hg
      subst hg
      exact .inl ⟨_, update_self .., hty, hdata, hhl, hrefs⟩
    rw [core_of_node hn] at hg
    cases hg
  rw [update_of_ne hmn]
  exact h m md hm

/-! ## One operation -/

theorem real_not_dir (h : fs.Shaped) (hn : isName fs n = true) : ¬IsDir fs.core (fs.real n) := by
  obtain ⟨nd, hnode, hty, -⟩ := isName_iff.1 hn
  have hcn := core_of_node hnode
  rw [real_of_node hnode]
  cases hl : nd.hl with
  | none => exact not_isDir hcn hty
  | some t =>
    obtain ⟨nt, ht, hty', -⟩ := extra h hcn hl
    exact not_isDir ht (by rw [hty']; exact hty)

theorem target_entry (h : fs.Sound) {d : Id} (hf : findChild fs dir name = some d)
    (hd : isName fs d = true) (hdir : IsDir fs.core dir) : fs.Entry dir name d ∧ Proper name := by
  have hdn : ¬IsDir fs.core d := by
    obtain ⟨nd, hnode, hty, -⟩ := isName_iff.1 hd
    exact not_isDir (core_of_node hnode) hty
  obtain ⟨-, ⟨-, rfl⟩ | ⟨-, rfl⟩ | he⟩ := findChild_some h.shape hf
  · exact absurd hdir hdn
  · cases hp : fs.parent dir with
    | none =>
      rw [hp] at hdn
      exact absurd hdir hdn
    | some p =>
      rw [hp] at hdn
      exact absurd (h.shape.tree.inner dir p hp) hdn
  obtain ⟨nm, hnm, hproper⟩ := h.named.proper d dir he.1
  rw [he.2, some.injEq] at hnm
  subst hnm
  exact ⟨he, hproper⟩

structure Cleared (fs g : Store) (n dir : Id) (name : Name) : Prop where
  sound : g.Sound
  keeps : Keeps fs g fun _ k => k
  same : g.core n = fs.core n ∧ g.parent n = fs.parent n
  place : g.InTree dir ∧ IsDir g.core dir
  proper : Proper name
  resolves : ∀ d nm r, g.Resolves d nm r ↔ fs.Resolves d nm r ∧ ¬(d = dir ∧ nm = name)

theorem Cleared.vacant (h : Cleared fs g n dir name) : g.Vacant dir name := by
  intro c hp hname
  have := (h.resolves dir name _).mp ⟨c, ⟨hp, hname⟩, rfl⟩
  exact this.2 ⟨rfl, rfl⟩

theorem rename_clear (h : fs.Sound) (hdir : isPlace fs dir = true) (hfits : fits name = true)
    (hd : (findChild fs dir name).all (isName fs) = true) (hsame : sameFile fs n dir name = false) :
    Cleared fs ((findChild fs dir name).elim fs (fsDropName fs)) n dir name := by
  obtain ⟨htree, hD⟩ := (isPlace_iff h.shape).1 hdir
  cases hf : findChild fs dir name with
  | none =>
    obtain ⟨h1, h2, hvacant⟩ := findChild_none h.shape hD hf
    refine ⟨h, .refl fs, ⟨rfl, rfl⟩, ⟨htree, hD⟩, ⟨(fits_iff.1 hfits).1, h1, h2⟩, ?_⟩
    intro d nm r
    refine (and_iff_left_of_imp ?_).symm
    rintro ⟨c, hc, -⟩ ⟨rfl, rfl⟩
    exact hvacant c hc.1 hc.2
  | some d =>
    rw [hf, all_some] at hd
    simp only [sameFile, hf, any_some, Bool.or_eq_false_iff, beq_eq_false_iff_ne] at hsame
    obtain ⟨hleaf, hroot, -⟩ := isName.entry h hd
    obtain ⟨he, hproper⟩ := target_entry h hf hd hD
    have hdird : fs.real dir ≠ fs.real d := by
      intro heq
      rw [real_of_isDir h.shape hD] at heq
      exact real_not_dir h.shape hd (heq ▸ hD)
    obtain ⟨hcdir, -⟩ := dropName_other h.shape hleaf hdird
    have hsound := dropName_sound h hroot hleaf
    have hplace : isPlace (fsDropName fs d) dir = true := by
      obtain ⟨c, hc, hty⟩ := hD
      have hu := (under_iff h.shape hc).1 htree
      obtain ⟨nd, hnode, hnd⟩ := node_of_core (hcdir.trans hc)
      have h1 : nd.core.type = .dir := by rw [hnd, hty]
      have h2 : nd.core.unlinked = false := by rw [hnd, hu]
      simp only [Node.core] at h1 h2
      simp [isPlace, hnode, h1, h2]
    exact ⟨hsound, keeps_drop h.shape hleaf, dropName_other h.shape hleaf (Ne.symm hsame.2),
      (isPlace_iff hsound.shape).1 hplace, hproper, fun _ _ _ => dropName_resolves h hleaf he⟩

theorem Cleared.entry {p : Id} {nm : Name} (h : Cleared fs g n dir name)
    (he : fs.Entry p nm n) : g.Entry p nm n := by
  refine ⟨h.same.2.trans he.1, ?_⟩
  rw [nameOf, h.same.1]
  exact he.2

theorem Cleared.live (h : Cleared fs g n dir name)
    (hn : isName fs n = true) : ∃ nd, g.node n = some nd ∧ nd.type ≠ .dir := by
  obtain ⟨nd, hnode, hty, -⟩ := isName_iff.1 hn
  obtain ⟨nd', hn', hcore⟩ := node_of_core (h.same.1.trans (core_of_node hnode))
  have : nd'.core.type = nd.core.type := by rw [hcore]
  exact ⟨nd', hn', by rw [show nd'.type = nd.type from this]; exact hty⟩

theorem rename_keeps (hn : isName fs n = true)
    (h : Cleared fs g n dir name) : Keeps fs (moveTo g n dir name) fun _ k => k := by
  obtain ⟨nd, hnode, -⟩ := h.live hn
  exact h.keeps.move hnode h.place.2 name

theorem rename_sound (hs : fs.Sound) (hn : isName fs n = true) (hlen : name.length < fsNameMax)
    (h : Cleared fs g n dir name) : (moveTo g n dir name).Sound := by
  obtain ⟨-, -, p, nm, he⟩ := isName.entry hs hn
  obtain ⟨nd, hnode, hty⟩ := h.live hn
  have hnd : ¬IsDir g.core n := not_isDir (core_of_node hnode) hty
  refine moveTo_sound h.sound ?_ h.place.1 h.place.2 ?_ hlen h.proper fun c _ => h.vacant c
  · rw [h.same.2]
    simp [show fs.parent n = some p from he.1]
  intro hu
  have := hu.eq_of_leaf h.sound.shape.tree.linked (kids_nil h.sound.shape hnd)
  exact hnd (this ▸ h.place.2)

theorem rename_direct {found : Option Id} (hd : (findChild fs dir name).all (isName fs) = true)
    (hdirect : LinkOp.Direct fs (.rename n dir name found)) (hsame : sameFile fs n dir name = false) :
    perform fs (.rename n dir name found) =
      moveTo ((findChild fs dir name).elim fs (fsDropName fs)) n dir name := by
  simp only [perform, hsame, Bool.false_eq_true, if_false]
  cases hf : findChild fs dir name with
  | none => rfl
  | some d =>
    rw [hf, all_some] at hd
    rw [hdirect d hf]
    simp [hd]

structure LinkStep (fs : Store) (op : LinkOp) (fs' : Store) : Prop where
  sound : fs'.Sound
  keeps : Keeps fs fs' (op.opens fs)
  resolves : ∀ d nm r, fs.Resolves d nm r → ¬op.Takes fs d nm → fs'.Resolves d nm r

theorem link_step (h : fs.Sound) {op : LinkOp} (hdirect : op.Direct fs) :
    LinkStep fs op (nextLink fs op) := by
  unfold nextLink
  by_cases hok : allowed fs op = true
  · rw [if_pos hok]
    have hopens : op.opens fs = op.count := if_pos hok
    cases op with
    | hlink t dir name =>
      simp only [allowed, Bool.and_eq_true, beq_iff_eq, isNone_iff_eq_none] at hok
      obtain ⟨⟨⟨⟨ht, hreal⟩, hdir⟩, hfits⟩, hf⟩ := hok
      obtain ⟨nt, hnt, hty, hu⟩ := isName_iff.1 ht
      obtain ⟨htree, hD⟩ := (isPlace_iff h.shape).1 hdir
      obtain ⟨h1, h2, hvacant⟩ := findChild_none h.shape hD hf
      obtain ⟨hne, hlen⟩ := fits_iff.1 hfits
      have hl : nt.hl = none := by
        cases hl : nt.hl with
        | none => rfl
        | some u =>
          rw [real_of_node hnt, hl, getD_some] at hreal
          subst hreal
          obtain ⟨-, -, -, _, _, hne', _⟩ := extra_leaf h.shape hnt hl
          exact absurd rfl hne'
      refine ⟨hlink_sound h hnt hty hl hu htree hD hlen ⟨hne, h1, h2⟩ hvacant, ?_, ?_⟩
      · rw [hopens]
        exact keeps_hlink h.shape hnt hD name
      intro d nm r hr _
      exact (hlink_resolves h hnt hD hlen).2 (.inl hr)
    | drop n =>
      obtain ⟨hleaf, hroot, p, name, he⟩ := isName.entry h hok
      refine ⟨dropName_sound h hroot hleaf, ?_, ?_⟩
      · rw [hopens]
        exact keeps_drop h.shape hleaf
      intro d nm r hr htakes
      refine (dropName_resolves h hleaf he).2 ⟨hr, ?_⟩
      rintro ⟨rfl, rfl⟩
      exact htakes ⟨hok, he⟩
    | rename n dir name found =>
      by_cases hsame : sameFile fs n dir name = true
      · simp only [perform, hsame, if_true]
        refine ⟨h, ?_, fun _ _ _ hr _ => hr⟩
        rw [hopens]
        exact .refl fs
      rw [Bool.not_eq_true] at hsame
      have hok' := hok
      simp only [allowed, Bool.and_eq_true] at hok'
      obtain ⟨⟨⟨hn, hdir⟩, hfits⟩, hd⟩ := hok'
      rw [rename_direct hd hdirect hsame]
      have hclear := rename_clear h hdir hfits hd hsame
      have hlen := (fits_iff.1 hfits).2
      obtain ⟨-, -, p, nm₀, he⟩ := isName.entry h hn
      refine ⟨rename_sound h hn hlen hclear, ?_, ?_⟩
      · rw [hopens]
        exact rename_keeps hn hclear
      intro d nm r hr htakes
      refine (moveTo_resolves hclear.sound (hclear.entry he) hclear.place.2 hlen).2
        (.inl ⟨(hclear.resolves d nm r).2 ⟨hr, ?_⟩, ?_⟩)
      · exact fun hplace => htakes ⟨hok, hsame, .inr hplace⟩
      rintro ⟨rfl, rfl⟩
      exact htakes ⟨hok, hsame, .inl he⟩
    | «open» n =>
      refine ⟨open_sound h n, ?_, ?_⟩
      · rw [hopens]
        exact keeps_open n
      intro d nm r hr _
      exact (open_resolves n).2 hr
    | release n =>
      refine ⟨release_sound h n, ?_, ?_⟩
      · rw [hopens]
        exact keeps_release h.shape n
      intro d nm r hr _
      exact (release_resolves h.shape n).2 hr
  rw [if_neg hok]
  have hopens : op.opens fs = fun _ k => k := if_neg hok
  refine ⟨h, ?_, fun _ _ _ hr _ => hr⟩
  rw [hopens]
  exact .refl fs

/-! ## Runs -/

theorem play_sound (h : fs.Sound) {ops : List LinkOp} (hdirect : Direct fs ops) :
    (ops.foldl nextLink fs).Sound := by
  induction ops generalizing fs with
  | nil => exact h
  | cons op ops ih => exact ih (link_step h hdirect.1).sound hdirect.2

theorem Resolves.live (h : fs.Sound) {r : Id} (hr : fs.Resolves dir name r) :
    ∃ nd, fs.core r = some nd ∧ nd.hl = none := by
  obtain ⟨c, hc, rfl⟩ := hr
  have htree := h.shape.tree.under c (by rw [hc.1]; simp)
  rw [← real_eq_core]
  obtain ⟨nd, hnd⟩ := live_of_inTree h.shape (real_inTree h.shape htree)
  refine ⟨nd.core, core_of_node hnd, ?_⟩
  have hreal := real_real h.shape c
  rw [real_of_node hnd] at hreal
  cases hl : nd.hl with
  | none => exact hl
  | some t =>
    obtain ⟨-, -, -, _, _, hne, _⟩ := extra_leaf h.shape hnd hl
    rw [hl, getD_some] at hreal
    exact absurd hreal.symm hne

theorem contents_core (fs : Store) (n : Id) : contents fs n = (fs.core n).map (·.data) := by
  unfold contents Store.core
  cases fs.node n <;> rfl

theorem play_resolves (h : fs.Sound) {r : Id} (hr : fs.Resolves dir name r)
    {ops : List LinkOp} (hdirect : Direct fs ops) (hspare : Spares dir name fs ops) :
    (ops.foldl nextLink fs).Resolves dir name r ∧
      contents (ops.foldl nextLink fs) r = contents fs r := by
  induction ops generalizing fs with
  | nil => exact ⟨hr, rfl⟩
  | cons op ops ih =>
    have hstep := link_step h hdirect.1
    have hr' := hstep.resolves dir name r hr hspare.1
    obtain ⟨nd, hnd, -⟩ := Resolves.live h hr
    obtain ⟨nd', hnd', -⟩ := Resolves.live hstep.sound hr'
    obtain ⟨hres, hcont⟩ := ih hstep.sound hr' hdirect.2 hspare.2
    refine ⟨hres, hcont.trans ?_⟩
    obtain ⟨nd'', hnd'', -, hdata, -⟩ | ⟨hnone, -⟩ := hstep.keeps r nd hnd
    · simp [contents_core, hnd, hnd'', hdata]
    rw [hnone] at hnd'
    cases hnd'

theorem freed_iff (h : fs.Sound) {op : LinkOp} (hdirect : op.Direct fs) {nd : Node} (hn : fs.node n = some nd)
    (hl : nd.hl = none) (hty : nd.type ≠ .dir) : (nextLink fs op).node n = none ↔
      (∀ dir name, ¬(nextLink fs op).Resolves dir name n) ∧ op.opens fs n nd.refs = 0 := by
  have hstep := link_step h hdirect
  have hcn := core_of_node hn
  rw [← core_eq_none]
  constructor
  · intro hnone
    constructor
    · intro dir name hr
      obtain ⟨nd', hnd', -⟩ := Resolves.live hstep.sound hr
      rw [hnone] at hnd'
      cases hnd'
    obtain ⟨nd', hnd', -⟩ | ⟨-, hne | hzero⟩ := hstep.keeps n nd.core hcn
    · rw [hnone] at hnd'
      cases hnd'
    · exact absurd hl hne
    · exact hzero
  rintro ⟨hnames, hzero⟩
  obtain ⟨nd', hnd', hty', -, hl', hrefs⟩ | ⟨hnone, -⟩ := hstep.keeps n nd.core hcn
  · exfalso
    have hs := hstep.sound.shape
    have hreal : realOf (nextLink fs op).core n = n := by
      simp [realOf, hnd', hl', Node.core, hl]
    by_cases hp : (nextLink fs op).forest.parent n = none
    · rcases (placed hs n nd' hnd').1 hp with hroot | hu
      · have hD := rootDir hs
        rw [← hroot] at hD
        exact not_isDir hnd' (by rw [hty']; exact hty) hD
      have := ((fit hs n nd' hnd').unlinked hu).1
      rw [hrefs] at this
      exact absurd hzero this.ne'
    obtain ⟨p, hp⟩ := ne_none_iff_exists'.1 hp
    exact hnames p nd'.name ⟨n, ⟨hp, by simp [nameOf, hnd']⟩, hreal⟩
  · exact hnone

def oneFile : Store :=
  linkChild (nodeNew rootOnly ['f'] .file (some 0)) 0 1

theorem oneFile_sound : oneFile.Sound := by
  have hD : IsDir rootOnly.core 0 := ⟨_, rfl, rfl⟩
  have hvacant : rootOnly.Vacant 0 ['f'] := by
    intro c hc
    have := (rootOnly_sound.shape.tree.linked.mem_iff c 0).2 hc
    cases this
  exact create_sound rootOnly_sound .root hD (by decide) (by decide) hvacant .file

def tag (i : Nat) : Name :=
  (range 16).map fun b => if i.testBit b then 'b' else 'a'

theorem tag_length (i : Nat) : (tag i).length = 16 := by
  simp [tag]

theorem tag_inj {i j : Nat} (hi : i < 2 ^ 16) (hj : j < 2 ^ 16) (h : tag i = tag j) : i = j := by
  apply Nat.eq_of_testBit_eq
  intro b
  by_cases hb : b < 16
  · have := congrArg (fun l => l[b]?) h
    simp only [tag, getElem?_map, getElem?_range hb, map_some, some.injEq] at this
    cases hi' : i.testBit b <;> cases hj' : j.testBit b <;> simp [hi', hj'] at this ⊢
  have h1 : i < 2 ^ b := lt_of_lt_of_le hi (Nat.pow_le_pow_right (by decide) (by omega))
  have h2 : j < 2 ^ b := lt_of_lt_of_le hj (Nat.pow_le_pow_right (by decide) (by omega))
  rw [Nat.testBit_lt_two_pow h1, Nat.testBit_lt_two_pow h2]

structure Tagged (fs : Store) (k : Nat) : Prop where
  sound : fs.Sound
  place : isPlace fs 0 = true
  file : ∃ nd, fs.node 1 = some nd ∧ nd.type = .file ∧ nd.unlinked = false ∧ nd.hl = none ∧
    nd.hn.length = k
  names : ∀ c, fs.parent c = some 0 → nameOf fs.core c = some ['f'] ∨
    ∃ j, j < k ∧ nameOf fs.core c = some (tag j)

theorem Tagged.free {k : Nat} (h : Tagged fs k) (hk : k < 2 ^ 16) :
    findChild fs 0 (tag k) = none := by
  cases hf : findChild fs 0 (tag k) with
  | none => rfl
  | some c =>
    have hlen := tag_length k
    obtain ⟨-, ⟨h1, -⟩ | ⟨h2, -⟩ | ⟨hp, hname⟩⟩ := findChild_some h.sound.shape hf
    · simp [h1] at hlen
    · simp [h2] at hlen
    rcases h.names c hp with hf | ⟨j, hj, hjn⟩
    · rw [hname, some.injEq] at hf
      simp [hf] at hlen
    rw [hname, some.injEq] at hjn
    exact absurd (tag_inj hk (hj.trans hk) hjn) hj.ne'

theorem Tagged.next {k : Nat} (h : Tagged fs k) (hk : k < 2 ^ 16) :
    Tagged (nextLink fs (.hlink 1 0 (tag k))) (k + 1) := by
  obtain ⟨nd, hn, hty, hu, hl, hlen⟩ := h.file
  have hcn := core_of_node hn
  obtain ⟨htree, hD⟩ := (isPlace_iff h.sound.shape).1 h.place
  have hfits : fits (tag k) = true := by
    rw [fits_iff, ← length_pos_iff, tag_length]
    decide
  have hok : allowed fs (.hlink 1 0 (tag k)) = true := by
    simp [allowed, isName, hn, hty, hu, real_of_node hn, hl, h.place, h.free hk, hfits]
  have hdirect : LinkOp.Direct fs (.hlink 1 0 (tag k)) := trivial
  have hs := (link_step h.sound hdirect).sound
  have heq : nextLink fs (.hlink 1 0 (tag k)) = fsHlink fs 1 0 (tag k) := if_pos hok
  rw [heq] at hs ⊢
  have hv := hlink_views h.sound.shape hn hD (tag k)
  have h1f : 1 ≠ fs.fresh := (lt_fresh h.sound.shape hcn).ne
  obtain ⟨c0, hc0, hty0⟩ := hD
  have h0f : 0 ≠ fs.fresh := (lt_fresh h.sound.shape hc0).ne
  have hcore0 : (fsHlink fs 1 0 (tag k)).core 0 = some c0 := by
    rw [hv.core, tie, update_of_ne (by decide), update_of_ne h0f, update_of_ne h0f, hc0]
  have hcore1 : (fsHlink fs 1 0 (tag k)).core 1
      = some { nd.core with hn := fs.fresh :: nd.core.hn, xl := nd.core.xl + 1 } := by
    rw [hv.core, tie, update_self]
  refine ⟨hs, ?_, ?_, ?_⟩
  · have hu0 := (under_iff h.sound.shape hc0).1 htree
    exact (isPlace_iff hs.shape).2 ⟨(under_iff hs.shape hcore0).2 hu0, c0, hcore0, hty0⟩
  · obtain ⟨nd', hn', hnd'⟩ := node_of_core hcore1
    have htype : nd'.core.type = nd.core.type := by rw [hnd']
    have hunl : nd'.core.unlinked = nd.core.unlinked := by rw [hnd']
    have hhl : nd'.core.hl = nd.core.hl := by rw [hnd']
    have hhn : nd'.core.hn.length = nd.core.hn.length + 1 := by rw [hnd']; rfl
    exact ⟨nd', hn', htype.trans hty, hunl.trans hu, hhl.trans hl, hhn.trans (congrArg (· + 1) hlen)⟩
  intro c hc
  rw [← forest_parent, hv.forest] at hc
  by_cases hcf : c = fs.fresh
  · subst hcf
    refine .inr ⟨k, Nat.lt_succ_self k, ?_⟩
    rw [nameOf, hv.core, tie, update_of_ne (Ne.symm h1f), update_self]
    simp [blank, take_name (fits_iff.1 hfits).2]
  rw [Forest.hang_parent_of_ne _ 0 hcf] at hc
  have hname : nameOf (fsHlink fs 1 0 (tag k)).core c = nameOf fs.core c := by
    rw [nameOf, hv.core, tie]
    by_cases hc1 : c = 1
    · simp [nameOf, hc1, hcn]
    · simp [nameOf, hc1, hcf]
  rw [hname]
  rcases h.names c hc with hf | ⟨j, hj, hjn⟩
  · exact .inl hf
  · exact .inr ⟨j, hj.trans (Nat.lt_succ_self k), hjn⟩

theorem oneFile_tagged : Tagged oneFile 0 := by
  refine ⟨oneFile_sound, by decide, ⟨_, rfl, rfl, rfl, rfl, rfl⟩, ?_⟩
  intro c hc
  have hmem := (oneFile_sound.shape.tree.linked.mem_iff c 0).2 hc
  rw [show oneFile.forest.kids 0 = [1] by decide, mem_singleton] at hmem
  subst hmem
  exact .inl rfl

theorem tags_run (k : Nat) (hk : k ≤ 2 ^ 16) :
    Tagged (((range k).map fun i => LinkOp.hlink 1 0 (tag i)).foldl nextLink oneFile) k := by
  induction k with
  | zero => exact oneFile_tagged
  | succ k ih =>
    rw [range_succ, map_append, foldl_append]
    exact (ih (Nat.le_of_succ_le hk)).next (Nat.lt_of_succ_le hk)

end SamaraOS.Fs
