import SamaraOS.Fs.Ops

/-!
# Names in the tree

Siblings have different names, and no name is empty, `.` or `..`.
-/

namespace SamaraOS.Fs

open Forest Store Shape Option

def Proper (name : Name) : Prop :=
  name ≠ [] ∧ name ≠ ['.'] ∧ name ≠ ['.', '.']

instance (name : Name) : Decidable (Proper name) :=
  inferInstanceAs (Decidable (_ ∧ _))

def nameOf (core : Cores) (n : Id) : Option Name :=
  (core n).map (·.name)

structure Named (F : Forest Id) (core : Cores) : Prop where
  unique : ∀ p c d, F.parent c = some p → F.parent d = some p → nameOf core c = nameOf core d →
    c = d
  proper : ∀ c p, F.parent c = some p → ∃ name, nameOf core c = some name ∧ Proper name

variable {F G : Forest Id} {core core' : Cores} {dir n t : Id} {name : Name} {nd : Node}

theorem Named.sub (h : Named F core)
    (hold : ∀ c p, G.parent c = some p → F.parent c = some p ∧ nameOf core' c = nameOf core c) :
    Named G core' := by
  constructor
  · intro p c d hc hd heq
    obtain ⟨hc', hcname⟩ := hold c p hc
    obtain ⟨hd', hdname⟩ := hold d p hd
    rw [hcname, hdname] at heq
    exact h.unique p c d hc' hd' heq
  intro c p hc
  obtain ⟨hc', hname⟩ := hold c p hc
  rw [hname]
  exact h.proper c p hc'

theorem Named.place (h : Named F core) (n d : Id) (name : Name)
    (hold : ∀ c p, G.parent c = some p → c ≠ n → F.parent c = some p ∧ nameOf core' c = nameOf core
    c) (hnew : ∀ p, G.parent n = some p → p = d ∧ nameOf core' n = some name ∧ Proper name ∧ ∀ c, c
    ≠ n → G.parent c = some d → nameOf core c ≠ some name) : Named G core' := by
  have hmixed : ∀ {p c}, G.parent n = some p → G.parent c = some p → c ≠ n →
      nameOf core' c ≠ nameOf core' n := by
    intro p c hn hc hne
    obtain ⟨rfl, hname, -, hfree⟩ := hnew p hn
    rw [hname, (hold c p hc hne).2]
    exact hfree c hne hc
  constructor
  · intro p c e hc he heq
    by_cases hcn : c = n
    · by_cases hen : e = n
      · rw [hcn, hen]
      subst hcn
      exact absurd heq.symm (hmixed hc he hen)
    by_cases hen : e = n
    · subst hen
      exact absurd heq (hmixed he hc hcn)
    obtain ⟨hc', hcname⟩ := hold c p hc hcn
    obtain ⟨he', hename⟩ := hold e p he hen
    rw [hcname, hename] at heq
    exact h.unique p c e hc' he' heq
  intro c p hc
  by_cases hcn : c = n
  · subst hcn
    obtain ⟨-, hname, hproper, -⟩ := hnew p hc
    exact ⟨name, hname, hproper⟩
  obtain ⟨hc', hname⟩ := hold c p hc hcn
  rw [hname]
  exact h.proper c p hc'

theorem nameOf_update {v : Option Node} (h : v.map (·.name) = nameOf core n) (m : Id) :
    nameOf (Function.update core n v) m = nameOf core m := by
  simp only [nameOf, Function.update_apply]
  split
  next hm => rw [h, hm]; rfl
  · rfl

/-! ## Stores -/

structure Store.Sound (fs : Store) : Prop where
  shape : fs.Shaped
  named : Named fs.forest fs.core

def Store.Vacant (fs : Store) (dir : Id) (name : Name) : Prop :=
  ∀ c, fs.parent c = some dir → nameOf fs.core c ≠ some name

variable {fs : Store}

theorem Store.Views.named {root fresh : Id}
    (h : fs.Views F core root fresh) (hn : Named F core) : Named fs.forest fs.core := by
  rwa [h.forest, h.core]

theorem take_name (h : name.length < fsNameMax) : name.take (fsNameMax - 1) = name :=
  List.take_of_length_le (Nat.le_sub_one_of_lt h)

section

variable (h : fs.Sound)

include h

theorem create_sound (hd : fs.InTree dir) (hD : IsDir fs.core dir)
    (hlen : name.length < fsNameMax) (hproper : Proper name) (hfree : fs.Vacant dir name)
    (type : FsType) : (linkChild (nodeNew fs name type (some dir)) dir fs.fresh).Sound := by
  refine ⟨create_shaped h.shape hd hD name type, (create_views h.shape hD name type).named ?_⟩
  refine h.named.place fs.fresh dir name ?_ ?_
  · intro c p hc hne
    rw [hang_parent_of_ne _ dir hne] at hc
    refine ⟨hc, ?_⟩
    simp [nameOf, hne]
  intro p hp
  rw [hang_parent_self, some.injEq] at hp
  refine ⟨hp.symm, ?_, hproper, ?_⟩
  · simp [nameOf, blank, take_name hlen]
  intro c hne hc
  rw [hang_parent_of_ne _ dir hne] at hc
  exact hfree c hc

theorem upd_sound (n : Id) {f : Node → Node} (hf : Store.Inner f) (hkeep : ∀ nd :
    Node, fs.core n = some nd → nd.Fit → (f nd).Fit ∧ (f nd).kind = nd.kind ∧ (f nd).hl = nd.hl ∧ (f
    nd).hn = nd.hn) (hname : ∀ nd, (f nd).name = nd.name) : (fs.upd n f).Sound := by
  refine ⟨upd_shaped h.shape n hf hkeep, (fs.views.upd n hf).named ?_⟩
  have hsame : ∀ m, nameOf (Function.update fs.core n ((fs.core n).map f)) m = nameOf fs.core m := by
    apply nameOf_update
    cases hn : fs.core n <;> simp [nameOf, hn, hname]
  exact h.named.sub fun c p hc => ⟨hc, hsame c⟩

theorem hlink_sound {nt : Node} (ht : fs.node t = some nt)
    (hdir : nt.type ≠ .dir) (hl : nt.hl = none) (hu : nt.unlinked = false) (hd : fs.InTree dir)
    (hD : IsDir fs.core dir) (hlen : name.length < fsNameMax) (hproper : Proper name)
    (hfree : fs.Vacant dir name) : (fsHlink fs t dir name).Sound := by
  have hcore := core_of_node ht
  have htf : t ≠ fs.fresh := (lt_fresh h.shape hcore).ne
  refine ⟨hlink_shaped h.shape ht hdir hl hu hd hD name, (hlink_views h.shape ht hD name).named ?_⟩
  refine h.named.place fs.fresh dir name ?_ ?_
  · intro c p hc hne
    rw [hang_parent_of_ne _ dir hne] at hc
    refine ⟨hc, ?_⟩
    by_cases hct : c = t
    · simp [nameOf, tie, hct, hcore]
    · simp [nameOf, tie, hct, hne]
  intro p hp
  rw [hang_parent_self, some.injEq] at hp
  refine ⟨hp.symm, ?_, hproper, ?_⟩
  · simp [nameOf, tie, Ne.symm htf, blank, take_name hlen]
  intro c hne hc
  rw [hang_parent_of_ne _ dir hne] at hc
  exact hfree c hc

theorem moveTo_sound (hn : fs.parent n ≠ none)
    (hd : fs.InTree dir) (hD : IsDir fs.core dir) (hnd : ¬fs.forest.Under n dir)
    (hlen : name.length < fsNameMax) (hproper : Proper name)
    (hfree : ∀ c, c ≠ n → fs.parent c = some dir → nameOf fs.core c ≠ some name) :
    (moveTo fs n dir name).Sound := by
  obtain ⟨p, hp⟩ := ne_none_iff_exists'.1 hn
  obtain ⟨nd, hnode, -⟩ := live_of_parent hp
  refine ⟨moveTo_shaped h.shape hn hd hD hnd name, (moveTo_views hnode hD name).named ?_⟩
  have hold : ∀ {c p}, ((fs.forest.cut n).hang dir n).parent c = some p → c ≠ n →
      fs.parent c = some p := by
    intro c p hc hne
    rwa [hang_parent_of_ne _ dir hne, cut_parent_of_ne _ hne] at hc
  refine h.named.place n dir name ?_ ?_
  · intro c p hc hne
    exact ⟨hold hc hne, by simp [nameOf, hne]⟩
  intro p hp
  rw [hang_parent_self, some.injEq] at hp
  refine ⟨hp.symm, by simp [nameOf, take_name hlen], hproper, ?_⟩
  intro c hne hc
  exact hfree c hne (hold hc hne)

section

variable (hn : fs.node n = some nd)

include hn

theorem dropExtra_sound (hl : nd.hl = some t) : (dropExtra fs n t).Sound := by
  obtain ⟨-, hleaf, -, nt, ht, hnt, -⟩ := extra_leaf h.shape hn hl
  refine ⟨dropExtra_shaped h.shape hn hl, (dropExtra_views nd hnt ht hleaf).named ?_⟩
  refine h.named.sub fun c p hc => ?_
  have hne : c ≠ n := by
    rintro rfl
    simp at hc
  rw [cut_parent_of_ne _ hne] at hc
  refine ⟨hc, ?_⟩
  by_cases hct : c = t
  · simp [nameOf, untie, hct, Ne.symm hnt, core_of_node ht]
  · simp [nameOf, untie, hct, hne]

theorem dropLast_sound (hr : n ≠ fs.root) (hleaf : fs.child n = []) (hl : nd.hl = none)
    (hh : nd.hn = []) : (dropLast fs n).Sound := by
  refine ⟨dropLast_shaped h.shape hn hr hleaf hl hh, (dropLast_views hn hleaf).named ?_⟩
  refine h.named.sub fun c p hc => ?_
  have hne : c ≠ n := by
    rintro rfl
    simp at hc
  rw [cut_parent_of_ne _ hne] at hc
  exact ⟨hc, by simp [nameOf, hne]⟩

theorem dropPrimary_sound {a : Id} {rest : List Id} (hh : nd.hn = a :: rest) :
    (dropPrimary fs n a rest).Sound := by
  have hmem : a ∈ nd.hn := by simp [hh]
  obtain ⟨na, dir, ha, hl, han, haleaf, hp, -, hD, hda⟩ := chain_head h.shape hn hmem
  have hpa : fs.parent a = some dir := by rw [parent_of_node ha, hp]
  have hcore : fs.core a = some na.core := core_of_node ha
  have hname : nameOf fs.core a = some na.name := by simp [nameOf, hcore, Node.core]
  refine ⟨dropPrimary_shaped h.shape hn hh,
    (dropPrimary_views rest hn ha han haleaf hp hD hda).named ?_⟩
  have hold : ∀ {c p}, (((fs.forest.cut a).cut n).hang dir n).parent c = some p → c ≠ n →
      c ≠ a ∧ fs.parent c = some p := by
    intro c p hc hne
    rw [hang_parent_of_ne _ dir hne, cut_parent_of_ne _ hne] at hc
    have hca : c ≠ a := by
      rintro rfl
      simp at hc
    rw [cut_parent_of_ne _ hca] at hc
    exact ⟨hca, hc⟩
  refine h.named.place n dir na.name ?_ ?_
  · intro c p hc hne
    obtain ⟨hca, hc⟩ := hold hc hne
    exact ⟨hc, by simp [nameOf, hne, hca]⟩
  intro p hp'
  rw [hang_parent_self, some.injEq] at hp'
  refine ⟨hp'.symm, by simp [nameOf, promoted], ?_, ?_⟩
  · obtain ⟨name, hname', hproper⟩ := h.named.proper a dir hpa
    rw [hname, some.injEq] at hname'
    rwa [hname']
  intro c hne hc heq
  obtain ⟨hca, hc⟩ := hold hc hne
  exact hca (h.named.unique dir c a hc hpa (heq.trans hname.symm))

end

theorem dropName_sound (hr : n ≠ fs.root) (hleaf : fs.child n = []) :
    (fsDropName fs n).Sound :=
  dropName_cases (fun _ => h) (fun _ _ hn hl => dropExtra_sound h hn hl)
    (fun _ _ _ hn _ hh => dropPrimary_sound h hn hh)
    fun _ hn hl hh => dropLast_sound h hn hr hleaf hl hh

theorem open_sound (n : Id) : (fsOpen fs n).Sound :=
  upd_sound h n (fun _ => ⟨rfl, rfl, rfl⟩) (fun _ _ hf => ⟨hf.more, rfl, rfl, rfl⟩) fun _ => rfl

theorem release_sound (n : Id) : (fsRelease fs n).Sound := by
  cases hn : fs.node n with
  | none =>
    rw [release_none hn]
    exact h
  | some nd =>
    have hcn := core_of_node hn
    refine ⟨release_shaped h.shape n, (release_views h.shape hn).named ?_⟩
    refine h.named.sub fun c p hc => ⟨hc, ?_⟩
    by_cases hne : c = n
    · subst hne
      have hu : ¬nd.unlinked = true := by
        intro hu
        rw [(placed h.shape c _ hcn).2 (.inr hu)] at hc
        cases hc
      simp [nameOf, hu, hcn]
    · simp [nameOf, hne]

end

def rootOnly : Store where
  node n := if n = 0 then some { name := ['/'], type := .dir, parent := none } else none
  fresh := 1
  root := 0

theorem rootOnly_sound : rootOnly.Sound := by
  have hcore : ∀ n nd, rootOnly.core n = some nd →
      n = 0 ∧ nd.Fit ∧ nd.unlinked = false ∧ nd.hl = none := by
    intro n nd hn
    simp only [Store.core, rootOnly] at hn
    split at hn
    next h0 =>
      cases hn
      exact ⟨h0, ⟨rfl, fun _ => ⟨rfl, rfl⟩, by simp [Node.core], by simp [Node.core]⟩, rfl, rfl⟩
    · cases hn
  have hforest : rootOnly.forest = Forest.bare Id := by
    ext n : 1
    · simp only [forest_parent, Store.parent, rootOnly, Forest.bare]
      split <;> rfl
    simp only [forest_kids, Store.child, rootOnly, Forest.bare]
    split <;> rfl
  have hlinks : links rootOnly.core = Forest.bare Id := by
    ext n : 1
    · simp only [links, Store.core, rootOnly, Forest.bare]
      split <;> rfl
    simp only [links, Store.core, rootOnly, Forest.bare]
    split <;> rfl
  constructor
  · unfold Store.Shaped
    rw [hforest]
    refine ⟨?_, ⟨_, rfl, rfl, rfl⟩, bare_rooted _ _, ?_, ?_, ?_, fun _ _ => rfl, ?_⟩
    · intro n hn
      have : n ≠ 0 := (Nat.lt_of_succ_le hn).ne'
      simp [Store.core, rootOnly, this]
    · rw [hlinks]
      exact bare_linked
    · intro n nd hn
      exact (hcore n nd hn).2.1
    · intro n nd hn
      exact iff_of_true rfl (.inl (hcore n nd hn).1)
    intro a na t ha hat
    rw [(hcore a na ha).2.2.2] at hat
    cases hat
  rw [hforest]
  exact ⟨by simp [Forest.bare], by simp [Forest.bare]⟩

end SamaraOS.Fs
