import SamaraOS.Fs.Named
import SamaraOS.Fs.Calls

/-!
# What lookups find

Every lookup from a directory of the tree stays in the tree.
-/

namespace SamaraOS.Fs

variable {fs : Store} {P : Id → Prop} {part : Name} {cur : Id}

/-! ## One component -/

variable {name : Name} {c dir n : Id}

theorem nameOf_of_hasName : hasName fs name c = true ↔ nameOf fs.core c = some name := by
  unfold hasName nameOf Store.core
  cases fs.node c <;> simp [Node.core]

section

variable (h : fs.Shaped)

include h

theorem parent_of_child {d : Id} : c ∈ fs.child d ↔ fs.parent c = some d :=
  h.tree.linked.mem_iff c d

theorem findChild_none (hD : IsDir fs.core dir) (hf : findChild fs dir name = none)
    : name ≠ ['.'] ∧ name ≠ ['.', '.'] ∧ fs.Vacant dir name := by
  obtain ⟨cd, hcd, hty⟩ := hD
  obtain ⟨d, hd, rfl⟩ := node_of_core hcd
  have hty' : d.type = .dir := hty
  simp only [findChild, hd, hty', ne_eq, not_true_eq_false, if_false] at hf
  split at hf
  · cases hf
  next h1 =>
  split at hf
  · cases hf
  next h2 =>
  refine ⟨h1, h2, ?_⟩
  intro c hc hname
  rw [List.find?_eq_none] at hf
  refine hf c ?_ (nameOf_of_hasName.2 hname)
  have := (parent_of_child h).2 hc
  simpa [Store.child, hd] using this

theorem findChild_some (hf : findChild fs dir name = some c) :
    IsDir fs.core dir ∧ ((name = ['.'] ∧ c = dir) ∨
      (name = ['.', '.'] ∧ c = (fs.parent dir).getD dir) ∨
      (fs.parent c = some dir ∧ nameOf fs.core c = some name)) := by
  cases hd : fs.node dir with
  | none => simp [findChild, hd] at hf
  | some d =>
    by_cases hty : d.type = .dir
    swap
    · simp [findChild, hd, hty] at hf
    refine ⟨⟨d.core, Store.core_of_node hd, hty⟩, ?_⟩
    simp only [findChild, hd, hty, ne_eq, not_true_eq_false, if_false] at hf
    split at hf
    next h1 =>
      cases hf
      exact .inl ⟨h1, rfl⟩
    split at hf
    next h2 =>
      cases hf
      exact .inr (.inl ⟨h2, by rw [Store.parent_of_node hd]⟩)
    refine .inr (.inr ⟨?_, ?_⟩)
    · apply (parent_of_child h).1
      have := List.mem_of_find?_eq_some hf
      simpa [Store.child, hd] using this
    · exact nameOf_of_hasName.1 (List.find?_some hf)

omit h in
theorem findChild_eq (h : fs.Sound) (hp : fs.parent c = some dir)
    (hname : nameOf fs.core c = some name) : findChild fs dir name = some c := by
  have hD := h.shape.tree.inner c dir hp
  obtain ⟨name', hn', hproper⟩ := h.named.proper c dir hp
  rw [hname, Option.some.injEq] at hn'
  subst hn'
  cases hf : findChild fs dir name with
  | none => exact absurd hname ((findChild_none h.shape hD hf).2.2 c hp)
  | some e =>
    obtain ⟨-, h1 | h2 | ⟨hpe, hne⟩⟩ := findChild_some h.shape hf
    · exact absurd h1.1 hproper.2.1
    · exact absurd h2.1 hproper.2.2
    · rw [h.named.unique dir e c hpe hp (hne.trans hname.symm)]

theorem inTree_parent {p : Id} (hp : fs.parent c = some p) : fs.InTree p := by
  have hu := h.tree.under c (by simp [hp])
  cases hu with
  | root =>
    rw [show fs.parent fs.root = none from h.tree.loose] at hp
    cases hp
  | child hq hu =>
    rw [Store.forest_parent, hp, Option.some.injEq] at hq
    rwa [hq]

theorem findChild_inTree (hd : fs.InTree dir)
    (hf : findChild fs dir name = some c) : fs.InTree c := by
  obtain ⟨-, ⟨-, rfl⟩ | ⟨-, rfl⟩ | ⟨hp, -⟩⟩ := findChild_some h hf
  · exact hd
  · cases hp : fs.parent dir with
    | none => exact hd
    | some p => exact inTree_parent h hp
  · exact h.tree.under c (by simp [hp])

theorem look_eq (hf : findChild fs dir name = some c) : look fs dir name = some c := by
  unfold look
  split
  swap
  · exact hf
  next hroot =>
  obtain ⟨rfl, rfl⟩ := hroot
  have hloose : fs.parent fs.root = none := h.tree.loose
  obtain ⟨-, ⟨h1, -⟩ | ⟨-, hc⟩ | ⟨hp, hname⟩⟩ := findChild_some h hf
  · cases h1
  · rw [hc, hloose, Option.getD_none]
  cases hd : fs.node fs.root with
  | none => simp [findChild, hd] at hf
  | some d =>
    rw [Store.parent_of_node hd] at hloose
    simp only [findChild, hd, hloose] at hf
    split at hf <;> simp_all

theorem look_inTree (hd : fs.InTree dir) (hl : look fs dir name = some c) : fs.InTree c := by
  unfold look at hl
  split at hl
  · cases hl
    exact hd
  · exact findChild_inTree h hd hl

omit h in
theorem real_of_node {nd : Node} (hn : fs.node n = some nd) : fs.real n = nd.hl.getD n := by
  simp [Store.real, hn]

theorem real_inTree (hn : fs.InTree n) : fs.InTree (fs.real n) := by
  obtain ⟨c, hc⟩ := Shape.live_of_under h hn
  obtain ⟨nd, hnd, rfl⟩ := node_of_core hc
  rw [real_of_node hnd]
  cases hl : nd.hl with
  | none => exact hn
  | some t =>
    obtain ⟨-, -, -, nt, ht, -, -, -, hu⟩ := extra_leaf h hnd hl
    exact (Shape.under_iff h (Store.core_of_node ht)).2 hu

theorem real_real (n : Id) : fs.real (fs.real n) = fs.real n := by
  cases hn : fs.node n with
  | none => simp [Store.real, hn]
  | some nd =>
    rw [real_of_node hn]
    cases hl : nd.hl with
    | none => simp [real_of_node hn, hl]
    | some t =>
      obtain ⟨-, -, -, nt, ht, -, -, htl, -⟩ := extra_leaf h hn hl
      simp [real_of_node ht, htl]

theorem real_of_isDir (hD : IsDir fs.core n) : fs.real n = n := by
  obtain ⟨c, hc, hty⟩ := hD
  obtain ⟨nd, hn, rfl⟩ := node_of_core hc
  have hl : nd.hl = none := ((Shape.fit h n _ hc).dir hty).2
  simp [real_of_node hn, hl]

theorem live_of_inTree (hn : fs.InTree n) : ∃ nd, fs.node n = some nd := by
  obtain ⟨c, hc⟩ := Shape.live_of_under h hn
  obtain ⟨nd, hnd, -⟩ := node_of_core hc
  exact ⟨nd, hnd⟩

end

/-! ## Paths -/

section

variable {follow dent : Bool} {jump : Id → Path → Option Id} (hroot : P fs.root)
  (hlook : ∀ d name m, P d → look fs d name = some m → P (fs.real m) ∧ (dent = true → P m))

include hlook

theorem walk_induct (hjump : ∀ d path n, P d → jump d path = some n → P n) {p : Path} {n : Id}
    (hcur : P cur) (hw : walk fs follow dent jump p part cur = some n) : P n := by
  have henter : ∀ {p part cur n} {next : Id → Option Id}, P cur →
      (∀ m, P m → next m = some n → P n) →
      enter fs follow dent jump p part cur next = some n → P n := by
    intro p part cur n next hcur hnext he
    unfold enter at he
    split at he
    · exact hnext cur hcur he
    simp only [Option.bind_eq_bind, Option.bind_eq_some_iff] at he
    obtain ⟨m, hm, nd, -, he⟩ := he
    obtain ⟨hreal, hdent⟩ := hlook cur part m hcur hm
    split at he
    · exact hjump cur _ n hcur he
    refine hnext _ ?_ he
    split
    · exact hreal
    next hc =>
    apply hdent
    simp only [Bool.or_eq_true, not_or, Bool.not_eq_true', Bool.not_eq_false] at hc
    exact hc.2
  induction p generalizing part cur with
  | nil =>
    refine henter hcur (fun m hm he => ?_) hw
    cases he
    exact hm
  | cons c p ih =>
    unfold walk at hw
    split at hw
    · exact henter hcur (fun m hm he => ih hm he) hw
    · exact ih hcur hw

include hroot

theorem walkFrom_induct (hjump : ∀ d path n, P d → jump d path = some n → P n) {cwd n : Id} {path : Path}
    (hcwd : P cwd) (hr : walkFrom fs follow dent jump cwd path = some n) : P n := by
  unfold walkFrom at hr
  split at hr
  · cases hr
    exact hcwd
  split at hr
  · exact walk_induct hlook hjump hroot hr
  · exact walk_induct hlook hjump hcwd hr

theorem resolveIn_induct {k : Nat} {cwd n : Id} {path : Path} (hcwd : P cwd)
    (hr : resolveIn fs follow k dent cwd path = some n) : P n := by
  induction k generalizing dent cwd path n with
  | zero => exact walkFrom_induct hroot hlook (fun _ _ _ _ hj => by cases hj) hcwd hr
  | succ k ih =>
    have hlook' : ∀ d name m, P d → look fs d name = some m →
        P (fs.real m) ∧ (false = true → P m) :=
      fun d name m hd hm => ⟨(hlook d name m hd hm).1, nofun⟩
    exact walkFrom_induct hroot hlook (fun d path n hd hj => ih hlook' hd hj) hcwd hr

end

variable {base cwd d m n : Id} {p path : Path} {follow : Bool} {k : Nat} {name : Name}
  {jump : Id → Path → Option Id} {nd : Node}

section

variable (h : fs.Shaped)

include h

theorem resolve_inTree {dent : Bool}
    (hcwd : fs.InTree cwd) (hr : resolve fs cwd path follow dent = some n) : fs.InTree n := by
  refine resolveIn_induct .root (fun d name m hd hm => ?_) hcwd hr
  have := look_inTree h hd hm
  exact ⟨real_inTree h this, fun _ => this⟩

theorem lookup_inTree (hb : fs.InTree base) (hl : lookup fs base path = some n) : fs.InTree n := by
  unfold lookup at hl
  split at hl
  · cases hl
  · exact resolve_inTree h hb hl

theorem lookupDent_inTree (hb : fs.InTree base)
    (hl : lookupDent fs base path = some n) : fs.InTree n := by
  unfold lookupDent at hl
  split at hl
  · cases hl
  · exact resolve_inTree h hb hl

theorem resolveIn_real (hcwd : fs.real cwd = cwd)
    (hr : resolveIn fs follow k false cwd path = some n) : fs.real n = n := by
  have hlook : ∀ d name m, fs.real d = d → look fs d name = some m →
      fs.real (fs.real m) = fs.real m ∧ (false = true → fs.real m = m) :=
    fun _ _ m _ _ => ⟨real_real h m, nofun⟩
  exact resolveIn_induct (P := fun n => fs.real n = n) (real_of_isDir h (Shape.rootDir h)) hlook
    hcwd hr

omit h in
/-- The end of every lookup of a parent. -/
theorem named_ok {p : Id} {nm : Name} {o : Option Id} {e₁ e₂ e₃ : Errno}
    (hl : (if fsNameMax ≤ nm.length then .error e₁ else match o with
      | none => .error e₂
      | some p => if fs.isDir p then .ok (p, nm) else .error e₃) = Except.ok (p, name)) :
    name = nm ∧ name.length < fsNameMax ∧ fs.isDir p = true ∧ o = some p := by
  split at hl
  · cases hl
  next hlen =>
  split at hl
  · cases hl
  split at hl
  next hD =>
    cases hl
    exact ⟨rfl, by omega, hD, rfl⟩
  · cases hl

omit h in
theorem lookupParent_cases {p : Id} (hl : lookupParent fs base path = .ok (p, name)) :
    name = baseName (stripSlashes path) ∧ name.length < fsNameMax ∧ fs.isDir p = true ∧
      (if '/' ∉ stripSlashes path then some base
        else if dirPart (stripSlashes path) = [] then some fs.root
        else fsResolve fs base (dirPart (stripSlashes path))) = some p := by
  unfold lookupParent at hl
  split at hl
  · cases hl
  split at hl
  · cases hl
  · exact named_ok hl

theorem lookupParent_ok {p : Id} (hb : fs.InTree base)
    (hl : lookupParent fs base path = .ok (p, name)) :
    fs.InTree p ∧ IsDir fs.core p ∧ name.length < fsNameMax ∧
      name = baseName (stripSlashes path) := by
  obtain ⟨hname, hlen, hD, hp⟩ := lookupParent_cases hl
  refine ⟨?_, isDir_iff.1 hD, hlen, hname⟩
  split at hp
  · cases hp
    exact hb
  split at hp
  · cases hp
    exact .root
  · exact resolve_inTree h hb hp

theorem placeOf_ok {p : Id} {full : Path} (hl : placeOf fs full = .ok (p, name)) :
    fs.InTree p ∧ IsDir fs.core p ∧ name.length < fsNameMax := by
  obtain ⟨-, hlen, hD, hp⟩ := named_ok hl
  refine ⟨?_, isDir_iff.1 hD, hlen⟩
  split at hp
  · cases hp
    exact .root
  · exact resolve_inTree h .root hp

omit h in
theorem bind_eq_ok {ε α β : Type} {x : Except ε α} {f : α → Except ε β} {b : β} :
    x >>= f = .ok b ↔ ∃ a, x = .ok a ∧ f a = .ok b := by
  cases x <;> simp [bind, Except.bind]

theorem chase_ok {parent p : Id} {nm : Name}
    (hp : fs.InTree parent) (hD : IsDir fs.core parent) (hlen : nm.length < fsNameMax)
    (hc : chase fs k parent nm = .ok (p, name)) :
    fs.InTree p ∧ IsDir fs.core p ∧ name.length < fsNameMax := by
  induction k generalizing parent nm with
  | zero =>
    cases hc
    exact ⟨hp, hD, hlen⟩
  | succ k ih =>
    unfold chase at hc
    split at hc
    · cases hc
      exact ⟨hp, hD, hlen⟩
    split at hc
    · cases hc
      exact ⟨hp, hD, hlen⟩
    obtain ⟨full, -, hc⟩ := bind_eq_ok.1 hc
    obtain ⟨⟨q, nm'⟩, hq, hc⟩ := bind_eq_ok.1 hc
    obtain ⟨hq1, hq2, hq3⟩ := placeOf_ok h hq
    exact ih hq1 hq2 hq3 hc

/-! ## The last component -/

omit h in
theorem skipSlashes_cons : skipSlashes ('/' :: p) = skipSlashes p := by
  simp [skipSlashes]

omit h in
theorem walk_slashes {dent : Bool} (cur : Id)
    (hp : skipSlashes p = []) : walk fs follow dent jump p [] cur = some cur := by
  induction p with
  | nil => simp [walk, enter]
  | cons c p ih =>
    have hc : c = '/' := by
      by_contra hne
      simp [skipSlashes, hne] at hp
    subst hc
    rw [skipSlashes_cons] at hp
    simp [walk, enter, ih hp]

theorem walk_dent
    (hjump : ∀ d path n, fs.real d = d → jump d path = some n → fs.real n = n)
    (hcur : fs.real cur = cur) (htree : fs.InTree cur)
    (hw : walk fs false true jump p part cur = some n) :
    walk fs false false jump p part cur = some (fs.real n) := by
  have hlast : ∀ {p part cur} {next next' : Id → Option Id}, fs.real cur = cur → fs.InTree cur →
      (∀ m, fs.real m = m → fs.InTree m → next m = some n → next' m = some (fs.real n)) →
      (skipSlashes p = [] → ∀ m, next m = some m ∧ next' m = some m) →
      enter fs false true jump p part cur next = some n →
      enter fs false false jump p part cur next' = some (fs.real n) := by
    intro p part cur next next' hcur htree hnext hend he
    unfold enter at he ⊢
    split at he
    next hp =>
      rw [if_pos hp]
      exact hnext cur hcur htree he
    next hp =>
    rw [if_neg hp]
    simp only [Option.bind_eq_bind, Option.bind_eq_some_iff] at he ⊢
    obtain ⟨m, hm, nd, hnd, he⟩ := he
    have hmt := look_inTree h htree hm
    refine ⟨m, hm, ?_⟩
    by_cases hrest : skipSlashes p = []
    · simp only [hrest] at hnd he ⊢
      simp only [ne_eq, not_true_eq_false, decide_false, Bool.or_self, Bool.not_true,
        Bool.false_eq_true, if_false, or_self, and_false] at hnd he
      obtain ⟨rd, hrd⟩ := live_of_inTree h (real_inTree h hmt)
      have hnm : n = m := by
        rw [(hend hrest m).1, Option.some.injEq] at he
        exact he.symm
      refine ⟨rd, by simpa using hrd, ?_⟩
      simp [hnm, (hend hrest (fs.real m)).2]
    simp only [hrest, ne_eq, not_false_eq_true, decide_true, Bool.true_or, if_true,
      true_or, and_true] at hnd he ⊢
    refine ⟨nd, hnd, ?_⟩
    split at he
    next hty =>
      rw [if_pos hty, he, hjump cur _ n hcur he]
    next hty =>
    rw [if_neg hty]
    exact hnext _ (real_real h m) (real_inTree h hmt) he
  induction p generalizing part cur with
  | nil =>
    refine hlast hcur htree (fun m hm _ he => ?_) (fun _ _ => ⟨rfl, rfl⟩) hw
    cases he
    rw [hm]
  | cons c p ih =>
    unfold walk at hw ⊢
    split at hw
    next hc =>
      rw [if_pos hc]
      refine hlast hcur htree (fun m hm hmt he => ih hm hmt he) (fun hs m => ?_) hw
      rw [hc, skipSlashes_cons] at hs
      exact ⟨walk_slashes m hs, walk_slashes m hs⟩
    next hc =>
    rw [if_neg hc]
    exact ih hcur htree hw

theorem lookupDent_real (hb : fs.real base = base) (htree : fs.InTree base)
    (hr : lookupDent fs base path = some n) : lookupPeek fs base path false = some (fs.real n) := by
  have hroot := real_of_isDir h (Shape.rootDir h)
  have hjump : ∀ d p n, fs.real d = d → resolveIn fs false 8 false d p = some n → fs.real n = n :=
    fun d p n hd hj => resolveIn_real h hd hj
  unfold lookupDent at hr
  unfold lookupPeek
  split at hr
  · cases hr
  next hne =>
  unfold resolve resolveIn walkFrom at hr ⊢
  split at hr
  · exact absurd rfl hne
  split at hr
  next hc =>
    simp only [hc, if_true]
    exact walk_dent h hjump hroot .root hr
  next hc =>
  simp only [hc, if_false]
  exact walk_dent h hjump hb htree hr

end

def lastOf (fs : Store) (jump : Id → Path → Option (Id × Name)) :
    Path → Name → Id → Option (Id × Name)
  | [], part, cur => if part = [] then none else some (cur, part)
  | c :: p, part, cur =>
    if c = '/' then
      if part = [] then lastOf fs jump p [] cur
      else if skipSlashes p = [] then some (cur, part)
      else do
        let m ← look fs cur part
        let nd ← fs.node (fs.real m)
        if nd.type = .link then jump cur (expand nd.data (skipSlashes p))
        else lastOf fs jump p [] (fs.real m)
    else lastOf fs jump p (if part.length < fsNameMax - 1 then part ++ [c] else part) cur

def lastFrom (fs : Store) (jump : Id → Path → Option (Id × Name)) (cwd : Id) (path : Path) :
    Option (Id × Name) :=
  match path with
  | [] => none
  | c :: p => if c = '/' then lastOf fs jump p [] fs.root else lastOf fs jump (c :: p) [] cwd

def lastIn (fs : Store) : Nat → Id → Path → Option (Id × Name)
  | 0 => lastFrom fs fun _ _ => none
  | k + 1 => lastFrom fs (lastIn fs k)

def lastStep (fs : Store) (cwd : Id) (path : Path) : Option (Id × Name) :=
  lastIn fs 9 cwd path

section

variable (hm : look fs d name = some m) (hnd : fs.node (fs.real m) = some nd)
  (hfollow : nd.type = .link → follow = false)

include hm hnd hfollow

theorem walk_last {last : Id → Path → Option (Id × Name)}
    (hjump : ∀ cwd path, last cwd path = some (d, name) → jump cwd path = some (fs.real m))
    (hl : lastOf fs last p part cur = some (d, name)) :
    walk fs follow false jump p part cur = some (fs.real m) := by
  have hend : ∀ {p part cur} {next : Id → Option Id}, part ≠ [] →
      skipSlashes p = [] → (cur, part) = (d, name) → (∀ m, next m = some m) →
      enter fs follow false jump p part cur next = some (fs.real m) := by
    rintro p part cur next hpart hs ⟨⟩ hnext
    have hno : ¬(nd.type = .link ∧ follow = true) := fun hc => by simp [hfollow hc.1] at hc
    simp [enter, hpart, hm, hs, hnd, hnext, hno]
  induction p generalizing part cur with
  | nil =>
    unfold lastOf at hl
    split at hl
    · cases hl
    next hpart =>
    rw [Option.some.injEq] at hl
    exact hend hpart rfl hl fun _ => rfl
  | cons c p ih =>
    unfold lastOf at hl
    unfold walk
    split at hl
    next hc =>
      subst hc
      split at hl
      next hpart =>
        rw [hpart, enter, if_pos rfl]
        exact ih hl
      next hpart =>
      split at hl
      next hs =>
        rw [Option.some.injEq] at hl
        exact hend hpart (skipSlashes_cons.trans hs) hl fun m => walk_slashes m hs
      next hs =>
      simp only [Option.bind_eq_bind, Option.bind_eq_some_iff] at hl
      obtain ⟨m', hm', nd', hnd', hl⟩ := hl
      simp only [enter, hpart, if_false, Option.bind_eq_bind, hm', Option.bind_some,
        skipSlashes_cons, hs, ne_eq, not_false_eq_true, decide_true, Bool.true_or, if_true,
        true_or, and_true, hnd']
      split at hl
      next hty =>
        rw [if_pos hty]
        exact hjump cur _ hl
      next hty =>
      rw [if_neg hty]
      exact ih hl
    next hc =>
    rw [if_neg hc]
    exact ih hl

theorem resolveIn_last (hl : lastIn fs k cwd path = some (d, name)) :
    resolveIn fs follow k false cwd path = some (fs.real m) := by
  have hfrom : ∀ {jump : Id → Path → Option Id} {last : Id → Path → Option (Id × Name)},
      (∀ cwd path, last cwd path = some (d, name) → jump cwd path = some (fs.real m)) →
      ∀ {cwd path}, lastFrom fs last cwd path = some (d, name) →
      walkFrom fs follow false jump cwd path = some (fs.real m) := by
    intro jump last hjump cwd path hl
    unfold lastFrom at hl
    unfold walkFrom
    split at hl
    · cases hl
    split at hl
    next hc =>
      simp only [hc, if_true]
      exact walk_last hm hnd hfollow hjump hl
    next hc =>
    simp only [hc, if_false]
    exact walk_last hm hnd hfollow hjump hl
  induction k generalizing cwd path with
  | zero => exact hfrom (fun _ _ hl => by cases hl) hl
  | succ k ih => exact hfrom (fun _ _ hl => ih hl) hl

theorem lookupPeek_last (hl : lastStep fs base path = some (d, name)) :
    lookupPeek fs base path follow = some (fs.real m) := by
  have hne : path ≠ [] := by
    rintro rfl
    cases hl
  rw [lookupPeek, if_neg hne]
  exact resolveIn_last hm hnd hfollow hl

end

theorem findChild_live (h : fs.Shaped) {dir c : Id} (hf : findChild fs dir name = some c) :
    ∃ nd, fs.node (fs.real c) = some nd := by
  obtain ⟨hD, hcases⟩ := findChild_some h hf
  have hdir : ∃ nd, fs.node (fs.real dir) = some nd := by
    rw [real_of_isDir h hD]
    obtain ⟨cd, hcd, -⟩ := hD
    obtain ⟨nd, hnd, -⟩ := node_of_core hcd
    exact ⟨nd, hnd⟩
  rcases hcases with ⟨-, rfl⟩ | ⟨-, rfl⟩ | ⟨hp, -⟩
  · exact hdir
  · cases hp : fs.parent dir with
    | none => exact hdir
    | some p => exact live_of_inTree h (real_inTree h (inTree_parent h hp))
  · exact live_of_inTree h (real_inTree h (h.tree.under c (by simp [hp])))

theorem baseName_strip (h : baseName (stripSlashes path) = []) : ∀ c ∈ path, c = '/' := by
  unfold stripSlashes at h
  split at h
  next hnil =>
    intro c hc
    simpa using List.rdropWhile_eq_nil_iff.1 hnil c hc
  next p hp =>
  have hne : path.rdropWhile (· == '/') ≠ [] := hp
  rw [baseName, List.rtakeWhile_eq_nil_iff] at h
  have hlast := h hne
  have := List.rdropWhile_last_not (· == '/') path hne
  simp only [bne_iff_ne, ne_eq, not_not, beq_iff_eq] at hlast this
  exact absurd hlast this

theorem lookup_slashes (hne : path ≠ []) (h : ∀ c ∈ path, c = '/') :
    lookup fs base path = some fs.root := by
  cases path with
  | nil => exact absurd rfl hne
  | cons c p =>
    have hskip : skipSlashes p = [] := by
      simp only [skipSlashes, List.dropWhile_eq_nil_iff, beq_iff_eq]
      exact fun x hx => h x (List.mem_cons_of_mem c hx)
    simp only [h c (by simp)]
    exact walk_slashes fs.root hskip

end SamaraOS.Fs
