import SamaraOS.Fs.Node

/-!
# What each operation changes

A store is seen in three parts: the tree (parent pointers and child lists), the extra
names (`hl` pointers and `hn` chains), and the rest of each node, its `core`.  Every
operation of fs.c is an edit of the tree by `cut` and `hang` and of a few cores.
-/

namespace SamaraOS.Fs

open Function

def Node.core (nd : Node) : Node :=
  { nd with parent := none, child := [] }

namespace Store

def core (fs : Store) (n : Id) : Option Node :=
  (fs.node n).map Node.core

variable {fs : Store} {n : Id} {f : Node → Node}

theorem core_eq_none : fs.core n = none ↔ fs.node n = none := by
  simp [core]

theorem core_of_node {nd : Node} (h : fs.node n = some nd) : fs.core n = some nd.core := by
  simp [core, h]

theorem type_eq_core (fs : Store) (n : Id) : fs.type n = (fs.core n).map (·.type) := by
  simp [type, core, Node.core, comp_def]

theorem parent_of_node {nd : Node} (h : fs.node n = some nd) : fs.parent n = nd.parent := by
  simp [parent, h]

theorem live_of_parent {p : Id} (h : fs.parent n = some p) :
    ∃ nd, fs.node n = some nd ∧ nd.parent = some p := by
  simpa [parent, Option.bind_eq_some_iff] using h

section

variable (fs : Store) (n m : Id) (v : Option Node) (f : Node → Node)

@[simp] theorem forest_parent : fs.forest.parent n = fs.parent n := rfl

@[simp] theorem forest_kids : fs.forest.kids n = fs.child n := rfl

theorem upd_node : (fs.upd n f).node m = if m = n then (fs.node n).map f else fs.node m := by
  simp [upd, put, update_apply]

theorem free_node : (fs.free n).node m = if m = n then none else fs.node m := by
  simp [free, put, update_apply]

end

def Inner (f : Node → Node) : Prop :=
  ∀ nd, (f nd).parent = nd.parent ∧ (f nd).child = nd.child ∧ (f nd).core = f nd.core

section

variable (fs : Store)

theorem forest_upd (n : Id) (hf : Inner f) : (fs.upd n f).forest = fs.forest := by
  ext m : 1
  · simp only [forest_parent, parent, upd_node]
    split
    next h =>
      subst h
      cases fs.node m <;> simp [(hf _).1]
    · rfl
  simp only [forest_kids, child, upd_node]
  split
  next h =>
    subst h
    cases fs.node m <;> simp [(hf _).2.1]
  · rfl

theorem core_upd (n : Id) (hf : Inner f) :
    (fs.upd n f).core = update fs.core n ((fs.core n).map f) := by
  funext m
  rw [update_apply]
  simp only [core, upd_node]
  split
  · cases fs.node n <;> simp [(hf _).2.2]
  · rfl

theorem forest_free (hp : fs.parent n = none) (hc : fs.child n = []) :
    (fs.free n).forest = fs.forest := by
  ext m : 1
  · simp only [forest_parent, parent, free_node]
    split
    next h =>
      subst h
      exact hp.symm
    · rfl
  simp only [forest_kids, child, free_node]
  split
  next h =>
    subst h
    exact hc.symm
  · rfl

theorem core_free (n : Id) : (fs.free n).core = update fs.core n none := by
  funext m
  rw [update_apply]
  simp only [core, free_node]
  split <;> rfl

end

/-! ## Writes to the tree -/

theorem core_upd_outer (fs : Store) (n : Id) (hf : ∀ nd, (f nd).core = nd.core) :
    (fs.upd n f).core = fs.core := by
  funext m
  simp only [core, upd_node]
  split
  next h =>
    subst h
    cases fs.node m <;> simp [hf]
  · rfl

theorem forest_setParent (fs : Store) (hn : fs.node n ≠ none) (v : Option Id) :
    (fs.upd n fun c => { c with parent := v }).forest
      = { fs.forest with parent := update fs.parent n v } := by
  obtain ⟨nd, hn⟩ := Option.ne_none_iff_exists'.1 hn
  ext m : 1
  · simp only [forest_parent, parent, upd_node, update_apply]
    split <;> simp [hn]
  simp only [forest_kids, child, upd_node]
  split
  next h => simp [h, hn]
  · rfl

theorem forest_setChild (fs : Store) (n : Id) {g : List Id → List Id}
    (hg : fs.node n = none → g [] = []) :
    (fs.upd n fun d => { d with child := g d.child }).forest
      = { fs.forest with kids := update fs.child n (g (fs.child n)) } := by
  ext m : 1
  · simp only [forest_parent, parent, upd_node]
    split
    next h =>
      subst h
      cases fs.node m <;> rfl
    · rfl
  simp only [forest_kids, child, upd_node, update_apply]
  split
  next h =>
    subst h
    cases h : fs.node m with
    | none => simp [hg h]
    | some => rfl
  · rfl

end Store

def blank (name : Name) (type : FsType) : Node :=
  { name := name.take (fsNameMax - 1), type, parent := none }

structure Store.Views (fs : Store) (F : Forest Id) (core : Id → Option Node) (root fresh : Id) :
    Prop where
  forest : fs.forest = F
  core : fs.core = core
  root : fs.root = root
  fresh : fs.fresh = fresh

theorem Store.views (fs : Store) : fs.Views fs.forest fs.core fs.root fs.fresh :=
  ⟨rfl, rfl, rfl, rfl⟩

namespace Store.Views

variable {fs : Store} {F : Forest Id} {core : Id → Option Node} {root fresh n dir : Id}

section

variable (h : fs.Views F core root fresh)

include h

theorem live (hn : core n ≠ none) : fs.node n ≠ none := by
  rwa [ne_eq, ← core_eq_none, h.core]

theorem upd (n : Id) {f : Node → Node} (hf : Inner f) :
    (fs.upd n f).Views F (update core n ((core n).map f)) root fresh := by
  refine ⟨?_, ?_, h.root, h.fresh⟩
  · rw [forest_upd fs n hf, h.forest]
  · rw [core_upd fs n hf, h.core]

theorem free (hp : F.parent n = none)
    (hk : F.kids n = []) : (fs.free n).Views F (update core n none) root fresh := by
  refine ⟨?_, ?_, h.root, h.fresh⟩
  · rw [← h.forest] at hp hk
    rw [forest_free fs hp hk, h.forest]
  · rw [core_free, h.core]

theorem linkChild (hd : core dir ≠ none) (c : Id) : (linkChild fs dir c).Views
      { F with kids := update F.kids dir (c :: F.kids dir) } core root fresh := by
  refine ⟨?_, ?_, h.root, h.fresh⟩
  · rw [← h.forest]
    exact forest_setChild (g := fun l => c :: l) fs dir fun hn => absurd hn (h.live hd)
  rw [← h.core]
  exact core_upd_outer fs dir fun _ => rfl

theorem setParent (hn : core n ≠ none)
    (v : Option Id) : (fs.upd n fun c => { c with parent := v }).Views
      { F with parent := update F.parent n v } core root fresh := by
  refine ⟨?_, ?_, h.root, h.fresh⟩
  · rw [← h.forest]
    exact forest_setParent fs (h.live hn) v
  rw [← h.core]
  exact core_upd_outer fs n fun _ => rfl

theorem detach (n : Id) : (fsDetach fs n).Views (F.cut n) core root fresh := by
  have hpar : fs.parent n = F.parent n := by rw [← h.forest]; rfl
  unfold fsDetach Forest.cut
  rw [hpar]
  cases hp : F.parent n with
  | none => exact h
  | some p =>
    have herase : (fs.upd p fun d => { d with child := d.child.erase n }).Views
        { F with kids := update F.kids p ((F.kids p).erase n) } core root fresh := by
      refine ⟨?_, ?_, h.root, h.fresh⟩
      · rw [← h.forest]
        exact forest_setChild (g := fun l => l.erase n) fs p fun _ => rfl
      rw [← h.core]
      exact core_upd_outer fs p fun _ => rfl
    refine herase.setParent ?_ none
    obtain ⟨nd, hn, -⟩ := live_of_parent (hpar.trans hp)
    rw [← h.core, core_of_node hn]
    simp

theorem attach (hd : core dir ≠ none)
    (hn : core n ≠ none) : (fsAttach fs dir n).Views (F.hang dir n) core root fresh :=
  (h.setParent hn (some dir)).linkChild hd n

theorem nodeNew (hf : core fresh = none) (name : Name) (type : FsType) (parent : Option Id) :
    (nodeNew fs name type parent).Views
      { F with parent := update F.parent fresh parent }
      (update core fresh (some (blank name type))) root (fresh + 1) := by
  obtain ⟨rfl, rfl, rfl, rfl⟩ := h
  rw [core_eq_none] at hf
  refine ⟨?_, ?_, rfl, rfl⟩
  · ext m : 1
    · simp only [Fs.nodeNew, forest_parent, Store.parent, put, update_apply]
      split <;> rfl
    simp only [Fs.nodeNew, forest_kids, child, put, update_apply]
    split
    next hm => simp [hm, hf]
    · rfl
  funext m
  simp only [Fs.nodeNew, Store.core, put, update_apply]
  split <;> rfl

theorem create (hf : core fresh = none)
    (hd : core dir ≠ none) (name : Name) (type : FsType) :
    (Fs.linkChild (Fs.nodeNew fs name type (some dir)) dir fresh).Views (F.hang dir fresh)
      (update core fresh (some (blank name type))) root (fresh + 1) := by
  refine (h.nodeNew hf name type (some dir)).linkChild ?_ fresh
  rw [update_apply]
  split
  · simp
  · exact hd

end

end Store.Views

end SamaraOS.Fs
