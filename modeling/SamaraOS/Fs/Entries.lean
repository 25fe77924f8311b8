import SamaraOS.Fs.Named

/-!
# The namespace as a map

What the tree is for: a name in a directory stands for a node.  `Resolves` is that map,
hard link names included, and each operation changes it at one or two places.
-/

namespace SamaraOS.Fs

open Function Option Forest Store

def realOf (core : Cores) (n : Id) : Id :=
  ((core n).bind (·.hl)).getD n

theorem real_eq_core (fs : Store) (n : Id) : fs.real n = realOf fs.core n := by
  unfold Store.real realOf Store.core
  cases fs.node n <;> rfl

def EntryOf (F : Forest Id) (core : Cores) (dir : Id) (name : Name) (c : Id) : Prop :=
  F.parent c = some dir ∧ nameOf core c = some name

def ResolvesIn (F : Forest Id) (core : Cores) (dir : Id) (name : Name) (r : Id) : Prop :=
  ∃ c, EntryOf F core dir name c ∧ realOf core c = r

namespace Store

def Entry (fs : Store) : Id → Name → Id → Prop :=
  EntryOf fs.forest fs.core

def Resolves (fs : Store) : Id → Name → Id → Prop :=
  ResolvesIn fs.forest fs.core

end Store

variable {fs : Store} {F : Forest Id} {t : Id} {core : Cores}
  {d dir n p r : Id} {name name₀ nm : Name} {nd : Node}

theorem Store.Views.resolves {root fresh : Id}
    (h : fs.Views F core root fresh) : fs.Resolves dir name r ↔ ResolvesIn F core dir name r := by
  unfold Store.Resolves
  rw [h.forest, h.core]

section

variable (h : fs.Sound)

include h

theorem Entry.unique {c : Id} (hc : fs.Entry dir name c) (hd : fs.Entry dir name d) : c = d :=
  h.named.unique dir c d hc.1 hd.1 (hc.2.trans hd.2.symm)

omit h in
theorem resolvesIn_iff (F : Forest Id) (core : Cores) (n : Id) {G : Forest Id} {core' : Cores}
    (hp : ∀ c, c ≠ n → G.parent c = F.parent c) (hc : ∀ c, c ≠ n → F.parent c ≠ none →
      nameOf core' c = nameOf core c ∧ realOf core' c = realOf core c) :
    ResolvesIn G core' dir name r ↔ (∃ c, c ≠ n ∧ EntryOf F core dir name c ∧ realOf core c = r) ∨
      (EntryOf G core' dir name n ∧ realOf core' n = r) := by
  have hkeep : ∀ {c}, c ≠ n → F.parent c = some dir →
      nameOf core' c = nameOf core c ∧ realOf core' c = realOf core c := by
    intro c hne hcp
    exact hc c hne (by simp [hcp])
  constructor
  · rintro ⟨c, ⟨hcp, hname⟩, hreal⟩
    by_cases hne : c = n
    · subst hne
      exact .inr ⟨⟨hcp, hname⟩, hreal⟩
    rw [hp c hne] at hcp
    obtain ⟨h1, h2⟩ := hkeep hne hcp
    exact .inl ⟨c, hne, ⟨hcp, h1 ▸ hname⟩, h2 ▸ hreal⟩
  rintro (⟨c, hne, ⟨hcp, hname⟩, hreal⟩ | ⟨he, hreal⟩)
  · obtain ⟨h1, h2⟩ := hkeep hne hcp
    exact ⟨c, ⟨by rw [hp c hne, hcp], h1.trans hname⟩, h2.trans hreal⟩
  · exact ⟨n, he, hreal⟩

theorem resolves_other (hn : fs.Entry p name₀ n) :
    (∃ c, c ≠ n ∧ fs.Entry dir name c ∧ realOf fs.core c = r) ↔
      fs.Resolves dir name r ∧ ¬(dir = p ∧ name = name₀) := by
  constructor
  · rintro ⟨c, hne, hc, hreal⟩
    refine ⟨⟨c, hc, hreal⟩, ?_⟩
    rintro ⟨rfl, rfl⟩
    exact hne (Entry.unique h hc hn)
  rintro ⟨⟨c, hc, hreal⟩, hplace⟩
  refine ⟨c, ?_, hc, hreal⟩
  rintro rfl
  apply hplace
  have h1 := hn.1.symm.trans hc.1
  have h2 := hn.2.symm.trans hc.2
  rw [some.injEq] at h1 h2
  exact ⟨h1.symm, h2.symm⟩

/-! ## The operations -/

omit h in
theorem resolves_loose (hn : fs.parent n = none) :
    (∃ c, c ≠ n ∧ fs.Entry dir name c ∧ realOf fs.core c = r) ↔ fs.Resolves dir name r := by
  constructor
  · rintro ⟨c, -, hc, hreal⟩
    exact ⟨c, hc, hreal⟩
  rintro ⟨c, hc, hreal⟩
  refine ⟨c, ?_, hc, hreal⟩
  rintro rfl
  exact absurd (hn.symm.trans hc.1) (by simp)

theorem hlink_resolves {nt : Node} (ht : fs.node t = some nt)
    (hD : IsDir fs.core dir) (hlen : name.length < fsNameMax) :
    (fsHlink fs t dir name).Resolves d nm r ↔
      fs.Resolves d nm r ∨ (d = dir ∧ nm = name ∧ r = t) := by
  have hcore := core_of_node ht
  have htf : t ≠ fs.fresh := (Shape.lt_fresh h.shape hcore).ne
  have hloose := Shape.live h.shape fs.fresh (h.shape.bound fs.fresh le_rfl)
  rw [(hlink_views h.shape ht hD name).resolves, resolvesIn_iff fs.forest fs.core fs.fresh]
  · refine or_congr (resolves_loose hloose) ?_
    simp only [EntryOf, hang_parent_self, nameOf, realOf, Shape.tie,
      update_of_ne (Ne.symm htf), update_self]
    simp only [blank, map_some, bind_some, getD_some, some.injEq, take_name hlen]
    constructor
    · rintro ⟨⟨rfl, rfl⟩, rfl⟩
      exact ⟨rfl, rfl, rfl⟩
    rintro ⟨rfl, rfl, rfl⟩
    exact ⟨⟨rfl, rfl⟩, rfl⟩
  · intro c hne
    exact hang_parent_of_ne _ dir hne
  intro c hne _
  by_cases hct : c = t
  · simp [nameOf, realOf, Shape.tie, hct, hcore]
  · simp [nameOf, realOf, Shape.tie, hct, hne]

section

variable (hn : fs.node n = some nd)

include hn

theorem dropExtra_resolves (hl : nd.hl = some t) (he : fs.Entry p name₀ n) :
    (dropExtra fs n t).Resolves d nm r ↔ fs.Resolves d nm r ∧ ¬(d = p ∧ nm = name₀) := by
  obtain ⟨-, hleaf, -, nt, ht, hnt, -⟩ := extra_leaf h.shape hn hl
  have hcore := core_of_node ht
  rw [(dropExtra_views nd hnt ht hleaf).resolves,
    resolvesIn_iff fs.forest fs.core n, ← resolves_other h he, or_iff_left]
  · rfl
  · rintro ⟨⟨hp, -⟩, -⟩
    simp at hp
  · intro c hne
    exact cut_parent_of_ne _ hne
  intro c hne _
  by_cases hct : c = t
  · simp [nameOf, realOf, Shape.untie, hct, Ne.symm hnt, hcore]
  · simp [nameOf, realOf, Shape.untie, hct, hne]

theorem dropLast_resolves (hleaf : fs.child n = []) (he : fs.Entry p name₀ n) :
    (dropLast fs n).Resolves d nm r ↔ fs.Resolves d nm r ∧ ¬(d = p ∧ nm = name₀) := by
  rw [(dropLast_views hn hleaf).resolves,
    resolvesIn_iff fs.forest fs.core n, ← resolves_other h he, or_iff_left]
  · rfl
  · rintro ⟨⟨hp, -⟩, -⟩
    simp at hp
  · intro c hne
    exact cut_parent_of_ne _ hne
  intro c hne _
  simp [nameOf, realOf, hne]

theorem dropPrimary_resolves {a : Id} {rest : List Id} (hh : nd.hn = a :: rest)
    (he : fs.Entry p name₀ n) :
    (dropPrimary fs n a rest).Resolves d nm r ↔ fs.Resolves d nm r ∧ ¬(d = p ∧ nm = name₀) := by
  have hmem : a ∈ nd.hn := by simp [hh]
  obtain ⟨na, dir, ha, hl, han, haleaf, hp, -, hD, hda⟩ := chain_head h.shape hn hmem
  obtain ⟨hnl, -⟩ := Shape.named h.shape (core_of_node hn) hmem
  have hca := core_of_node ha
  have hea : fs.Entry dir na.name a :=
    ⟨by rw [forest_parent, parent_of_node ha, hp], by simp [nameOf, hca, Node.core]⟩
  have hra : realOf fs.core a = n := by
    rw [realOf, hca, bind_some, show na.core.hl = some n from hl, getD_some]
  rw [(dropPrimary_views rest hn ha han haleaf hp hD hda).resolves,
    resolvesIn_iff (fs.forest.cut a) fs.core n, ← resolves_other h he]
  · constructor
    · rintro (⟨c, hne, ⟨hcp, hname⟩, hreal⟩ | ⟨⟨hcp, hname⟩, hreal⟩)
      · have hca' : c ≠ a := by
          rintro rfl
          simp at hcp
        rw [cut_parent_of_ne _ hca'] at hcp
        exact ⟨c, hne, ⟨hcp, hname⟩, hreal⟩
      rw [hang_parent_self, some.injEq] at hcp
      simp only [nameOf, realOf, update_self, map_some, bind_some,
        some.injEq, promoted] at hname hreal
      rw [show nd.core.hl = none from hnl, getD_none] at hreal
      subst hcp hname hreal
      exact ⟨a, han, hea, hra⟩
    rintro ⟨c, hne, hc, hreal⟩
    by_cases hca' : c = a
    · subst hca'
      have h1 := hea.1.symm.trans hc.1
      have h2 := hea.2.symm.trans hc.2
      rw [some.injEq] at h1 h2
      subst h1 h2
      refine .inr ⟨⟨hang_parent_self _ _ _, by simp [nameOf, promoted]⟩, ?_⟩
      simp only [realOf, update_self, bind_some, promoted]
      rw [show nd.core.hl = none from hnl, getD_none, ← hreal, hra]
    · exact .inl ⟨c, hne, ⟨(cut_parent_of_ne _ hca').trans hc.1, hc.2⟩, hreal⟩
  · intro c hne
    rw [hang_parent_of_ne _ dir hne, cut_parent_of_ne _ hne]
  intro c hne hcp
  have hca' : c ≠ a := by
    rintro rfl
    simp at hcp
  simp [nameOf, realOf, hne, hca']

end

theorem dropName_resolves (hleaf : fs.child n = []) (he : fs.Entry p name₀ n) :
    (fsDropName fs n).Resolves d nm r ↔ fs.Resolves d nm r ∧ ¬(d = p ∧ nm = name₀) := by
  obtain ⟨nd, hn, -⟩ := live_of_parent he.1
  exact dropName_cases (P := (·.Resolves d nm r ↔ _)) (fun hnone => by simp [hn] at hnone)
    (fun _ _ hn hl => dropExtra_resolves h hn hl he)
    (fun _ _ _ hn _ hh => dropPrimary_resolves h hn hh he)
    fun _ hn _ _ => dropLast_resolves h hn hleaf he

theorem moveTo_resolves (he : fs.Entry p name₀ n) (hD : IsDir fs.core dir)
    (hlen : name.length < fsNameMax) : (moveTo fs n dir name).Resolves d nm r ↔
      (fs.Resolves d nm r ∧ ¬(d = p ∧ nm = name₀)) ∨ (d = dir ∧ nm = name ∧ r = fs.real n) := by
  obtain ⟨nd, hn, -⟩ := live_of_parent he.1
  have hcn := core_of_node hn
  rw [(moveTo_views hn hD name).resolves, resolvesIn_iff fs.forest fs.core n, ← resolves_other h he]
  · refine or_congr Iff.rfl ?_
    simp only [EntryOf, hang_parent_self, nameOf, realOf, update_self,
      map_some, bind_some, some.injEq, take_name hlen, real_eq_core, hcn]
    constructor
    · rintro ⟨⟨rfl, rfl⟩, rfl⟩
      exact ⟨rfl, rfl, rfl⟩
    rintro ⟨rfl, rfl, rfl⟩
    exact ⟨⟨rfl, rfl⟩, rfl⟩
  · intro c hne
    rw [hang_parent_of_ne _ dir hne, cut_parent_of_ne _ hne]
  intro c hne _
  simp [nameOf, realOf, hne]

end

theorem resolves_congr {core' : Cores}
    (hc : ∀ c, F.parent c ≠ none → nameOf core' c = nameOf core c ∧ realOf core' c = realOf core c)
    : ResolvesIn F core' d nm r ↔ ResolvesIn F core d nm r := by
  refine exists_congr fun c => ?_
  unfold EntryOf
  by_cases hp : F.parent c = some d
  · obtain ⟨hname, hreal⟩ := hc c (by simp [hp])
    rw [hname, hreal]
  · simp [hp]

theorem open_resolves (n : Id) : (fsOpen fs n).Resolves d nm r ↔ fs.Resolves d nm r := by
  have hviews : (fsOpen fs n).Views _ _ _ _ :=
    fs.views.upd n (f := fun r => { r with refs := r.refs + 1 }) fun _ => ⟨rfl, rfl, rfl⟩
  rw [hviews.resolves]
  refine resolves_congr fun c _ => ?_
  by_cases hc : c = n
  · subst hc
    cases hcc : fs.core c <;> simp [nameOf, realOf, hcc]
  · simp [nameOf, realOf, hc]

theorem release_resolves (h : fs.Shaped) (n : Id) :
    (fsRelease fs n).Resolves d nm r ↔ fs.Resolves d nm r := by
  cases hn : fs.node n with
  | none => rw [release_none hn]
  | some nd =>
    have hcn := core_of_node hn
    rw [(release_views h hn).resolves]
    refine resolves_congr fun c hp => ?_
    by_cases hc : c = n
    · subst hc
      have hu : ¬nd.unlinked = true := fun hu => hp ((Shape.placed h c _ hcn).2 (.inr hu))
      simp [nameOf, realOf, hu, hcn]
    · simp [nameOf, realOf, hc]

theorem dropName_other (h : fs.Shaped) {m : Id} (hleaf : fs.child n = [])
    (hreal : fs.real m ≠ fs.real n) :
    (fsDropName fs n).core m = fs.core m ∧ (fsDropName fs n).parent m = fs.parent m := by
  have hmn : m ≠ n := by
    rintro rfl
    exact hreal rfl
  have hrn : ∀ nd, fs.node n = some nd → fs.real n = nd.hl.getD n := fun _ hn => by
    simp [Store.real, hn]
  refine dropName_cases (P := fun g => g.core m = fs.core m ∧ g.parent m = fs.parent m)
    (fun _ => ⟨rfl, rfl⟩) (fun nd t hn hl => ?_) (fun nd a rest hn hl hh => ?_) fun nd hn _ _ => ?_
  · obtain ⟨-, -, -, nt, ht, hnt, -, htl, -⟩ := extra_leaf h hn hl
    have hmt : m ≠ t := by
      rintro rfl
      apply hreal
      rw [hrn nd hn, hl]
      simp [Store.real, ht, htl]
    have hv := dropExtra_views nd hnt ht hleaf
    constructor
    · rw [hv.core]
      simp [Shape.untie, hmn, hmt]
    rw [← forest_parent, hv.forest, cut_parent_of_ne _ hmn]
    rfl
  · obtain ⟨na, up, ha, hal, han, haleaf, hp, -, hD, hda⟩ := chain_head h hn (a := a) (by simp [hh])
    have hma : m ≠ a := by
      rintro rfl
      apply hreal
      rw [hrn nd hn, hl]
      simp [Store.real, ha, hal]
    have hv := dropPrimary_views rest hn ha han haleaf hp hD hda
    constructor
    · rw [hv.core]
      simp [hmn, hma]
    rw [← forest_parent, hv.forest, hang_parent_of_ne _ up hmn,
      cut_parent_of_ne _ hmn, cut_parent_of_ne _ hma]
    rfl
  have hv := dropLast_views hn hleaf
  constructor
  · rw [hv.core]
    simp [hmn]
  rw [← forest_parent, hv.forest, cut_parent_of_ne _ hmn]
  rfl

end SamaraOS.Fs
