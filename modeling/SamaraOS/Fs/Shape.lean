import SamaraOS.Fs.Effect

/-!
# The shape of the tree

`Shape` is what every operation on names keeps, whatever the names are: the nodes with a
parent form one tree below the root, the extra names hang from the node they name, and a
node without a name is kept only while it is open.  It speaks of the tree and of the cores
of a store; the operations are composed of a few edits of those.
-/

namespace SamaraOS.Fs

open Function Option Forest

abbrev Cores := Id → Option Node

def IsDir (core : Cores) (n : Id) : Prop :=
  ∃ nd, core n = some nd ∧ nd.type = .dir

def links (core : Cores) : Forest Id where
  parent n := (core n).bind (·.hl)
  kids n := (core n).elim [] (·.hn)

structure Node.Fit (nd : Node) : Prop where
  count : nd.xl = BitVec.ofNat 16 nd.hn.length
  dir : nd.type = .dir → nd.hn = [] ∧ nd.hl = none
  extra : nd.hl ≠ none → nd.hn = []
  unlinked : nd.unlinked = true → 0 < nd.refs ∧ nd.hn = [] ∧ nd.hl = none

def Node.kind (nd : Node) : FsType × Bool :=
  (nd.type, nd.unlinked)

structure Shape (F : Forest Id) (core : Cores) (root fresh : Id) : Prop where
  bound : ∀ n, fresh ≤ n → core n = none
  top : ∃ nd, core root = some nd ∧ nd.type = .dir ∧ nd.unlinked = false
  tree : F.Rooted root (IsDir core)
  names : (links core).Linked
  fit : ∀ n nd, core n = some nd → nd.Fit
  placed : ∀ n nd, core n = some nd → (F.parent n = none ↔ n = root ∨ nd.unlinked = true)
  live : ∀ n, core n = none → F.parent n = none
  target : ∀ a na t, core a = some na → na.hl = some t → ∃ nt, core t = some nt ∧ nt.type = na.type

variable {core : Cores} {n p d : Id} {v : Option Node}

theorem links_parent {nd : Node} (h : core n = some nd) : (links core).parent n = nd.hl := by
  simp [links, h]

theorem links_kids {nd : Node} (h : core n = some nd) : (links core).kids n = nd.hn := by
  simp [links, h]

theorem links_update (hl : v.bind (·.hl) = (core n).bind (·.hl))
    (hn : v.elim [] (·.hn) = (core n).elim [] (·.hn)) :
    links (update core n v) = links core := by
  ext m : 1
  · simp only [links, update_apply]
    split
    next h => rw [h, hl]
    · rfl
  simp only [links, update_apply]
  split
  next h => rw [h, hn]
  · rfl

theorem IsDir.update (h : IsDir core p)
    (hv : p = n → ∃ nd, v = some nd ∧ nd.type = .dir) : IsDir (update core n v) p := by
  obtain ⟨nd, hp, ht⟩ := h
  by_cases hpn : p = n
  · obtain ⟨nd', rfl, ht'⟩ := hv hpn
    exact ⟨nd', by simp [hpn], ht'⟩
  · exact ⟨nd, by simp [hpn, hp], ht⟩

section

variable {F : Forest Id} {core : Cores} {root fresh : Id}

namespace Shape

variable {a n : Id} {nd : Node}

section

variable (h : Shape F core root fresh)

include h

theorem lt_fresh (hn : core n = some nd) : n < fresh := by
  by_contra hge
  rw [h.bound n (Nat.le_of_not_lt hge)] at hn
  cases hn

theorem rootDir : IsDir core root := by
  obtain ⟨nd, hn, ht, -⟩ := h.top
  exact ⟨nd, hn, ht⟩

theorem live_of_parent (hp : F.parent n = some p) : ∃ nd, core n = some nd := by
  by_contra hn
  rw [h.live n (by simpa [eq_none_iff_forall_ne_some] using hn)] at hp
  cases hp

theorem live_of_under (hn : F.Under root n) : ∃ nd, core n = some nd := by
  cases hn with
  | root =>
    obtain ⟨nd, hn, -⟩ := h.top
    exact ⟨nd, hn⟩
  | child hp _ => exact h.live_of_parent hp

theorem under_iff (hn : core n = some nd) : F.Under root n ↔ nd.unlinked = false := by
  constructor
  · intro hu
    cases hu with
    | root =>
      obtain ⟨rd, hr, -, hf⟩ := h.top
      rw [hn, some.injEq] at hr
      rwa [hr]
    | child hp _ =>
      by_contra hc
      rw [Bool.not_eq_false] at hc
      rw [(h.placed n nd hn).2 (.inr hc)] at hp
      cases hp
  intro hf
  by_cases hr : n = root
  · rw [hr]
    exact .root
  apply h.tree.under
  rw [ne_eq, h.placed n nd hn]
  simp [hr, hf]

theorem kids_nil (hn : ¬IsDir core n) : F.kids n = [] := by
  rw [List.eq_nil_iff_forall_not_mem]
  intro c hc
  exact hn (h.tree.kids_inner hc)

omit h in
theorem not_isDir (hn : core n = some nd) (ht : nd.type ≠ .dir) : ¬IsDir core n := by
  rintro ⟨nd', hn', ht'⟩
  rw [hn, some.injEq] at hn'
  exact ht (hn' ▸ ht')

theorem named (hn : core n = some nd)
    (ha : a ∈ nd.hn) : nd.hl = none ∧ nd.type ≠ .dir ∧ nd.unlinked = false := by
  have hne : nd.hn ≠ [] := List.ne_nil_of_mem ha
  refine ⟨?_, ?_, ?_⟩
  · by_contra hl
    exact hne ((h.fit n nd hn).extra hl)
  · intro ht
    exact hne ((h.fit n nd hn).dir ht).1
  by_contra hu
  rw [Bool.not_eq_false] at hu
  exact hne ((h.fit n nd hn).unlinked hu).2.1

theorem extra {t : Id} {na : Node} (ha : core a = some na)
    (hl : na.hl = some t) : ∃ nt, core t = some nt ∧ nt.type = na.type ∧ a ∈ nt.hn ∧ nt.hl = none ∧
      nt.type ≠ .dir ∧ nt.unlinked = false := by
  obtain ⟨nt, ht, hty⟩ := h.target a na t ha hl
  have hmem : a ∈ nt.hn := by
    rw [← links_kids ht, h.names.mem_iff, links_parent ha, hl]
  obtain ⟨h1, h2, h3⟩ := h.named ht hmem
  exact ⟨nt, ht, hty, hmem, h1, h2, h3⟩

theorem chained (hn : core n = some nd)
    (ha : a ∈ nd.hn) : ∃ na, core a = some na ∧ na.hl = some n ∧ na.hn = [] ∧
      na.type = nd.type ∧ na.unlinked = false := by
  have hp : (links core).parent a = some n := by
    rw [← h.names.mem_iff, links_kids hn]
    exact ha
  obtain ⟨na, hna, hl⟩ : ∃ na, core a = some na ∧ na.hl = some n := by
    simpa [links, bind_eq_some_iff] using hp
  obtain ⟨nt, ht, hty⟩ := h.target a na n hna hl
  rw [hn, some.injEq] at ht
  have hf := h.fit a na hna
  refine ⟨na, hna, hl, hf.extra (by simp [hl]), by rw [← hty, ht], ?_⟩
  by_contra hu
  rw [Bool.not_eq_false] at hu
  rw [(hf.unlinked hu).2.2] at hl
  cases hl

/-! ## Edits -/

omit h in
theorem kept {core core' : Cores} (hk : ∀ m, (core' m).map Node.kind = (core m).map Node.kind)
    {m : Id} {md : Node} (hm : core m = some md) : ∃ md', core' m = some md' ∧
    md'.kind = md.kind := by
  have := hk m
  rwa [hm, map_some, map_eq_some_iff] at this

theorem rewire {core' : Cores}
    (hk : ∀ m, (core' m).map Node.kind = (core m).map Node.kind) (hnames : (links core').Linked)
    (hfit : ∀ n nd, core' n = some nd → nd.Fit) (htarget : ∀ a na t, core' a = some na → na.hl =
    some t → ∃ nt, core' t = some nt ∧ nt.type = na.type) : Shape F core' root fresh := by
  have hnone : ∀ m, core' m = none ↔ core m = none := by
    intro m
    rw [← map_eq_none_iff (f := Node.kind), hk m, map_eq_none_iff]
  refine ⟨?_, ?_, ?_, hnames, hfit, ?_, ?_, htarget⟩
  · intro m hm
    exact (hnone m).2 (h.bound m hm)
  · obtain ⟨rd, hrd, ht, hu⟩ := h.top
    obtain ⟨md, hmd, hkind⟩ := kept hk hrd
    simp only [Node.kind, Prod.mk.injEq] at hkind
    exact ⟨md, hmd, by rw [hkind.1, ht], by rw [hkind.2, hu]⟩
  · refine h.tree.mono fun p _ hp => ?_
    obtain ⟨pd, hpd, ht⟩ := hp
    obtain ⟨md, hmd, hkind⟩ := kept hk hpd
    simp only [Node.kind, Prod.mk.injEq] at hkind
    exact ⟨md, hmd, by rw [hkind.1, ht]⟩
  · intro m md hm
    obtain ⟨od, hod, hkind⟩ := kept (fun m => (hk m).symm) hm
    simp only [Node.kind, Prod.mk.injEq] at hkind
    rw [h.placed m od hod, hkind.2]
  intro m hm
  exact h.live m ((hnone m).1 hm)

theorem touch {nd' : Node} (hn : core n = some nd)
    (hfit : nd'.Fit) (hk : nd'.kind = nd.kind) (hl : nd'.hl = nd.hl) (hh : nd'.hn = nd.hn) :
    Shape F (update core n (some nd')) root fresh := by
  have hty : nd'.type = nd.type := congrArg Prod.fst hk
  apply h.rewire
  · intro m
    rw [update_apply]
    split
    next hm => simp [hm, hn, hk]
    · rfl
  · rw [links_update (by simp [hn, hl]) (by simp [hn, hh])]
    exact h.names
  · intro m md hm
    rw [update_apply] at hm
    split at hm
    · cases hm
      exact hfit
    · exact h.fit m md hm
  intro a na t ha hat
  have hold : ∃ oa, core a = some oa ∧ oa.hl = some t ∧ oa.type = na.type := by
    rw [update_apply] at ha
    split at ha
    next hmn =>
      cases ha
      exact ⟨nd, by rw [hmn, hn], by rw [← hl, hat], hty.symm⟩
    · exact ⟨na, ha, hat, rfl⟩
  obtain ⟨oa, hoa, hol, hoty⟩ := hold
  obtain ⟨nt, hnt, htt⟩ := h.target a oa t hoa hol
  by_cases htn : t = n
  · rw [htn, hn, some.injEq] at hnt
    exact ⟨nd', by simp [htn], by rw [hty, hnt, htt, hoty]⟩
  · exact ⟨nt, by simp [htn, hnt], htt.trans hoty⟩

theorem add (hd : F.Under root d)
    (hD : IsDir core d) (hfit : nd.Fit) (hu : nd.unlinked = false) (hl : nd.hl = none)
    (hh : nd.hn = []) :
    Shape (F.hang d fresh) (update core fresh (some nd)) root (fresh + 1) := by
  have hnone : core fresh = none := h.bound fresh le_rfl
  have hloose : F.parent fresh = none := h.live fresh hnone
  have hr : fresh ≠ root := by
    obtain ⟨rd, hr, -⟩ := h.top
    exact (h.lt_fresh hr).ne'
  have hlinks : links (update core fresh (some nd)) = links core :=
    links_update (by simp [hnone, hl]) (by simp [hnone, hh])
  constructor
  · intro m hm
    rw [update_of_ne (Nat.lt_of_succ_le hm).ne']
    exact h.bound m (Nat.le_of_succ_le hm)
  · obtain ⟨rd, hrd, h'⟩ := h.top
    exact ⟨rd, by rw [update_of_ne (Ne.symm hr), hrd], h'⟩
  · refine (h.tree.hang hloose hr hd hD).mono fun p _ hp => hp.update ?_
    rintro rfl
    obtain ⟨pd, hp, -⟩ := hp
    rw [hnone] at hp
    cases hp
  · rw [hlinks]
    exact h.names
  · intro m md hm
    rw [update_apply] at hm
    split at hm
    · cases hm
      exact hfit
    · exact h.fit m md hm
  · intro m md hm
    rw [update_apply] at hm
    split at hm
    next hmf =>
      cases hm
      simp [hmf, hr, hu]
    next hmf =>
    rw [hang_parent_of_ne F d hmf]
    exact h.placed m md hm
  · intro m hm
    rw [update_apply] at hm
    split at hm
    · cases hm
    next hmf =>
    rw [hang_parent_of_ne F d hmf]
    exact h.live m hm
  intro a na t ha hat
  rw [update_apply] at ha
  split at ha
  · cases ha
    rw [hl] at hat
    cases hat
  obtain ⟨nt, hnt, htt⟩ := h.target a na t ha hat
  refine ⟨nt, ?_, htt⟩
  rw [update_of_ne (h.lt_fresh hnt).ne]
  exact hnt

theorem retree {G : Forest Id} (hG : G.Rooted root (IsDir core))
    (hp : ∀ n, G.parent n = none ↔ F.parent n = none) : Shape G core root fresh where
  bound := h.bound
  top := h.top
  tree := hG
  names := h.names
  fit := h.fit
  placed n nd hn := by
    rw [hp]
    exact h.placed n nd hn
  live n hn := (hp n).2 (h.live n hn)
  target := h.target

theorem move (hn : F.parent n ≠ none) (hd : F.Under root d)
    (hD : IsDir core d) (hnd : ¬F.Under n d) : Shape ((F.cut n).hang d n) core root fresh := by
  have hr : n ≠ root := by
    rintro rfl
    exact hn h.tree.loose
  refine h.retree (h.tree.move hr hd hnd hD) fun m => ?_
  by_cases hm : m = n
  · subst hm
    simp [hn]
  · rw [hang_parent_of_ne _ d hm, cut_parent_of_ne F hm]

theorem drop
    (hn : core n = some nd) (hr : n ≠ root) (hleaf : F.kids n = []) (hl : nd.hl = none)
    (hh : nd.hn = []) (hv : ∀ nd', v = some nd' → nd'.Fit ∧ nd'.unlinked = true) :
    Shape (F.cut n) (update core n v) root fresh := by
  have hlinks : links (update core n v) = links core := by
    cases v with
    | none => exact links_update (by simp [hn, hl]) (by simp [hn, hh])
    | some nd' =>
      obtain ⟨hf, hu⟩ := hv nd' rfl
      obtain ⟨-, hh', hl'⟩ := hf.unlinked hu
      exact links_update (by simp [hn, hl, hl']) (by simp [hn, hh, hh'])
  have hold : ∀ {m md}, update core n v m = some md →
      (m = n ∧ v = some md) ∨ (m ≠ n ∧ core m = some md) := by
    intro m md hm
    rw [update_apply] at hm
    split at hm
    next hmn => exact .inl ⟨hmn, hm⟩
    next hmn => exact .inr ⟨hmn, hm⟩
  constructor
  · intro m hm
    rw [update_of_ne (Nat.lt_of_lt_of_le (h.lt_fresh hn) hm).ne']
    exact h.bound m hm
  · obtain ⟨rd, hrd, h'⟩ := h.top
    exact ⟨rd, by rw [update_of_ne (Ne.symm hr), hrd], h'⟩
  · refine (h.tree.cut hleaf).mono fun p hp hD => hD.update ?_
    rintro rfl
    exact absurd (cut_kids_nil hleaf p) hp
  · rw [hlinks]
    exact h.names
  · intro m md hm
    rcases hold hm with ⟨-, hm⟩ | ⟨-, hm⟩
    · exact (hv md hm).1
    · exact h.fit m md hm
  · intro m md hm
    rcases hold hm with ⟨rfl, hv'⟩ | ⟨hmn, hm⟩
    · simp [(hv md hv').2]
    rw [cut_parent_of_ne F hmn]
    exact h.placed m md hm
  · intro m hm
    by_cases hmn : m = n
    · simp [hmn]
    rw [update_of_ne hmn] at hm
    rw [cut_parent_of_ne F hmn]
    exact h.live m hm
  intro a na t ha hat
  rcases hold ha with ⟨-, ha⟩ | ⟨-, ha⟩
  · obtain ⟨hf, hu⟩ := hv na ha
    rw [(hf.unlinked hu).2.2] at hat
    cases hat
  obtain ⟨nt, hnt, hty, hmem, -⟩ := h.extra ha hat
  have htn : t ≠ n := by
    rintro rfl
    rw [hn, some.injEq] at hnt
    rw [← hnt, hh] at hmem
    cases hmem
  exact ⟨nt, by simp [htn, hnt], hty⟩

theorem reap (hn : core n = some nd)
    (hu : nd.unlinked = true) : Shape F (update core n none) root fresh := by
  have hr : n ≠ root := by
    rintro rfl
    obtain ⟨rd, hrd, -, hf⟩ := h.top
    rw [hn, some.injEq] at hrd
    rw [hrd, hf] at hu
    cases hu
  have hp : F.parent n = none := (h.placed n nd hn).2 (.inr hu)
  obtain ⟨-, hh, hl⟩ := (h.fit n nd hn).unlinked hu
  have hcut : F.cut n = F := by simp [Forest.cut, hp]
  rw [← hcut]
  exact h.drop hn hr (h.tree.kids_of_loose hp hr) hl hh fun _ hv => by cases hv

end

/-! ### Extra names -/

def tie (core : Cores) (a t : Id) (na nt : Node) : Cores :=
  update (update core a (some { na with hl := some t })) t
    (some { nt with hn := a :: nt.hn, xl := nt.xl + 1 })

def untie (core : Cores) (a t : Id) (na nt : Node) : Cores :=
  update (update core a (some { na with hl := none })) t
    (some { nt with hn := nt.hn.erase a, xl := nt.xl - 1 })

end Shape

section

variable {a t : Id} {na nt va vt : Node} (hat : a ≠ t) (ha : core a = some na) (ht : core t = some nt)

include hat ha ht

theorem links_two (hn : va.hn = na.hn) (hl : vt.hl = nt.hl) :
    links (update (update core a (some va)) t (some vt)) =
      ⟨update (links core).parent a va.hl, update (links core).kids t vt.hn⟩ := by
  ext m : 1
  · simp only [links, update_apply]
    by_cases hmt : m = t
    · subst hmt
      simp [Ne.symm hat, ht, hl]
    · by_cases hma : m = a <;> simp [hmt, hma, hat]
  simp only [links, update_apply]
  by_cases hmt : m = t
  · simp [hmt]
  by_cases hma : m = a
  · subst hma
    simp [hmt, ha, hn]
  · simp [hmt, hma]

theorem links_tie : links (Shape.tie core a t na nt) = (links core).hang t a := by
  rw [Shape.tie, links_two hat ha ht]
  · simp [Forest.hang, links, ht]
  · rfl
  · rfl

theorem links_untie (hl : na.hl = some t) :
    links (Shape.untie core a t na nt) = (links core).cut a := by
  rw [Shape.untie, links_two hat ha ht]
  · simp [Forest.cut, links, ha, hl, ht]
  · rfl
  · rfl

end

namespace Shape

variable {a t : Id} {na nt : Node} (h : Shape F core root fresh) (hat : a ≠ t)
  (ha : core a = some na) (ht : core t = some nt)

include h ha ht

theorem rewire_two {core' : Cores} {va vt : Node}
    (hcore : core' = update (update core a (some va)) t (some vt))
    (hva : va.kind = na.kind) (hvt : vt.kind = nt.kind) (hnames : (links core').Linked)
    (hft : vt.Fit) (hfa : va.Fit) (htl : vt.hl = none)
    (hal : ∀ u, va.hl = some u → ∃ nu, core u = some nu ∧ nu.type = va.type) :
    Shape F core' root fresh := by
  have hk : ∀ m, (core' m).map Node.kind = (core m).map Node.kind := by
    intro m
    simp only [hcore, update_apply]
    split
    next hmt => simp [hmt, ht, hvt]
    split
    next hma => simp [hma, ha, hva]
    · rfl
  refine h.rewire hk hnames (fun m md hm => ?_) (fun b nb u hb hbu => ?_)
  · simp only [hcore, update_apply] at hm
    split at hm
    · cases hm
      exact hft
    split at hm
    · cases hm
      exact hfa
    · exact h.fit m md hm
  have hold : ∃ nu, core u = some nu ∧ nu.type = nb.type := by
    simp only [hcore, update_apply] at hb
    split at hb
    · cases hb
      simp [htl] at hbu
    split at hb
    · cases hb
      exact hal u hbu
    · exact h.target b nb u hb hbu
  obtain ⟨nu, hu, hub⟩ := hold
  obtain ⟨nu', hu', hkind⟩ := kept hk hu
  exact ⟨nu', hu', (congrArg Prod.fst hkind).trans hub⟩

include hat in
theorem tied (hty : na.type = nt.type)
    (hdir : nt.type ≠ .dir) (hal : na.hl = none) (hah : na.hn = []) (hau : na.unlinked = false)
    (htl : nt.hl = none) (htu : nt.unlinked = false) : Shape F (tie core a t na nt) root fresh := by
  refine h.rewire_two ha ht rfl rfl rfl ?_ ⟨?_, fun hd => absurd hd hdir, fun hl => absurd htl hl, ?_⟩
    ⟨(h.fit a na ha).count, fun hd => absurd (hty ▸ hd) hdir, fun _ => hah, ?_⟩ htl ?_
  · exact links_tie hat ha ht ▸ h.names.hang (by rw [links_parent ha, hal])
  · simp [(h.fit t nt ht).count, BitVec.ofNat_add]
  · simp [htu]
  · simp [hau]
  rintro _ ⟨⟩
  exact ⟨nt, ht, hty.symm⟩

theorem untied (hl : na.hl = some t) : Shape F (untie core a t na nt) root fresh := by
  obtain ⟨nt', ht', hty, hmem, htl, hdir, htu⟩ := h.extra ha hl
  rw [ht, some.injEq] at ht'
  subst ht'
  have hat : a ≠ t := by
    rintro rfl
    rw [ha, some.injEq] at ht
    rw [ht, htl] at hl
    cases hl
  have hfa := h.fit a na ha
  refine h.rewire_two ha ht rfl rfl rfl ?_ ⟨?_, fun hd => absurd hd hdir, fun hl => absurd htl hl, ?_⟩
    ⟨hfa.count, fun hd => ⟨(hfa.dir hd).1, rfl⟩, fun hl => absurd rfl hl, ?_⟩ htl nofun
  · exact links_untie hat ha ht hl ▸ h.names.cut a
  · have hlen : nt.hn.length = (nt.hn.erase a).length + 1 := by
      rw [List.length_erase_of_mem hmem]
      have := List.length_pos_of_mem hmem
      omega
    simp only [(h.fit t nt ht).count, hlen, BitVec.ofNat_add]
    exact BitVec.add_sub_cancel _ _
  · simp [htu]
  intro hu
  rw [(hfa.unlinked hu).2.2] at hl
  cases hl

end Shape

end

end SamaraOS.Fs
