import SamaraOS.Fs.Tree

/-!
# The namespace as a whole

Every run of calls keeps the tree, as long as no call starts from a directory that was removed while
open, and each call avoids the paths on which the lookups that it makes part ways: a path of slashes
only as a new name, a rename onto `.`, and a rename to a path whose last name `lookup_dent` does not
find where `lookup_parent` does.
-/

namespace SamaraOS.Fs

/-- The nodes below the root are a finite tree of live nodes with proper names. -/
structure Tidy (fs : Store) : Prop where
  finite : {n | fs.node n ≠ none}.Finite
  top : fs.isDir fs.root = true ∧ fs.parent fs.root = none
  /-- Nothing freed is reachable. -/
  live : ∀ n, fs.InTree n → fs.node n ≠ none
  /-- Nothing live is out of reach but what was removed while open. -/
  reached : ∀ n nd, fs.node n = some nd → fs.InTree n ∨ (nd.unlinked = true ∧ 0 < nd.refs)
  listed : ∀ n, fs.InTree n → n ≠ fs.root → ∃ d, fs.parent n = some d ∧
    (fs.child d).count n = 1 ∧ ∀ e, n ∈ fs.child e → e = d
  below : ∀ n d, n ∈ fs.child d → fs.InTree n ∧ n ≠ fs.root
  acyclic : ∀ n, ¬Relation.TransGen (fun c p => fs.parent c = some p) n n
  unique : ∀ d a b, a ∈ fs.child d → b ∈ fs.child d → nameOf fs.node a = nameOf fs.node b → a = b
  proper : ∀ d a, a ∈ fs.child d → ∃ name, nameOf fs.node a = some name ∧ Proper name

theorem nameOf_core (fs : Store) (n : Id) : nameOf fs.core n = nameOf fs.node n := by
  unfold nameOf Store.core
  cases fs.node n <;> rfl

theorem Store.Sound.tidy {fs : Store} (h : fs.Sound) : Tidy fs where
  finite := by
    refine (Set.finite_lt_nat fs.fresh).subset fun n hn => ?_
    obtain ⟨nd, hnd⟩ := Option.ne_none_iff_exists'.1 hn
    exact Shape.lt_fresh h.shape (Store.core_of_node hnd)
  top := ⟨isDir_iff.2 (Shape.rootDir h.shape), h.shape.tree.loose⟩
  live n hn := by
    obtain ⟨nd, hnd⟩ := live_of_inTree h.shape hn
    simp [hnd]
  reached n nd hn := by
    have hcn := Store.core_of_node hn
    cases hu : nd.unlinked with
    | false => exact .inl ((Shape.under_iff h.shape hcn).2 hu)
    | true => exact .inr ⟨rfl, ((Shape.fit h.shape n _ hcn).unlinked hu).1⟩
  listed n hn hne := by
    cases hn with
    | root => exact absurd rfl hne
    | @child _ d hp _ =>
      have hmem := (parent_of_child h.shape).2 hp
      refine ⟨d, hp, List.count_eq_one_of_mem (h.shape.tree.linked.nodup d) hmem, fun e he => ?_⟩
      have := ((parent_of_child h.shape).1 he).symm.trans hp
      exact Option.some.inj this
  below n d hn := by
    have hp := (parent_of_child h.shape).1 hn
    refine ⟨h.shape.tree.under n (by simpa using hp ▸ Option.some_ne_none d), ?_⟩
    rintro rfl
    have := h.shape.tree.loose.symm.trans hp
    cases this
  acyclic n hc := by
    obtain ⟨p, hp, -⟩ := Relation.TransGen.head'_iff.1 hc
    exact (h.shape.tree.under n (by simpa using hp ▸ Option.some_ne_none p)).irrefl
      h.shape.tree.loose hc
  unique d a b ha hb hname := by
    rw [← nameOf_core, ← nameOf_core] at hname
    exact h.named.unique d a b ((parent_of_child h.shape).1 ha) ((parent_of_child h.shape).1 hb)
      hname
  proper d a ha := by
    rw [← nameOf_core]
    exact h.named.proper a d ((parent_of_child h.shape).1 ha)

/-! ## Runs -/

def Sys.Ok (s : Sys) : Prop :=
  s.fs.Sound ∧ s.Based

def Straight (s : Sys) (ev : Event) : Prop :=
  match ev.call with
  | .open path _ => lookup s.fs (dirBase s ev.proc ev.dirfd path) path = none →
      ∀ dir name, openPlace s.fs (dirBase s ev.proc ev.dirfd path) path = .ok (dir, name) → name ≠ []
  | .symlink _ path => ∃ c ∈ path, c ≠ '/'
  | .link _ dst _ => ∃ c ∈ dst, c ≠ '/'
  | .rename _ dst => SoundTarget s.fs (dirBase s ev.proc ev.nfd dst) dst
  | _ => True

def Regular (s : Sys) (ev : Event) : Prop :=
  ev.Linked s ∧ Straight s ev

def RegularRun (s : Sys) : List Event → Prop
  | [] => True
  | ev :: evs => Regular s ev ∧ RegularRun (next s ev) evs

variable {s : Sys} {ev : Event}

theorem Regular.allowed (h : s.Ok) (hreg : Regular s ev) : Allowed Free (· ∈ s.cwd) s ev := by
  have hs := h.1.shape
  obtain ⟨hlink, hreg⟩ := hreg
  have hb : ∀ path, s.fs.Place (dirBase s ev.proc ev.dirfd path) :=
    fun _ => h.2.dirBase hs hlink.dirfd
  have hb' : ∀ path, s.fs.Place (dirBase s ev.proc ev.nfd path) := fun _ => h.2.dirBase hs hlink.nfd
  obtain ⟨proc, env, call⟩ := ev
  cases call with
  | «open» path fl =>
    exact fun hl dir name hp hd hlen hf => free_of_findChild hs hd hlen (hreg hl dir name hp) hf
  | mkdir path => exact fun hl => mkdir_free hs (hb path) hl
  | symlink target path => exact newName_free hs (hb path) hreg
  | link src dst follow => exact newName_free hs (hb' dst) hreg
  | rmdir path => exact fun _ _ hn => hn
  | rename src dst =>
    exact ⟨hreg.target, fun _ _ hn => hn, newName_free hs (hb' dst) hreg.1,
      fun _ _ _ _ hp hf hm hr => cleared_free h.1 (hb' dst) hreg hp hf hm hr⟩
  | _ => trivial

theorem next_ok (h : s.Ok) (hreg : Regular s ev) : (next s ev).Ok := by
  have hedits := next_edits h.1.shape h.2 hreg.1 (hreg.allowed h)
  exact ⟨hedits.sound h.1, next_based h.1.shape h.2 hreg.1 (hedits.stays h.1.shape)⟩

theorem play_ok (h : s.Ok) {evs : List Event} (hreg : RegularRun s evs) : (play s evs).Ok := by
  induction evs generalizing s with
  | nil => exact h
  | cons ev evs ih => exact ih (next_ok h hreg.1) hreg.2

theorem RegularRun.split {pre post : List Event} (h : RegularRun s (pre ++ ev :: post)) :
    RegularRun s pre ∧ Regular (play s pre) ev := by
  induction pre generalizing s with
  | nil => exact ⟨trivial, h.1⟩
  | cons e pre ih =>
    obtain ⟨h1, h2⟩ := ih h.2
    exact ⟨⟨h.1, h1⟩, h2⟩

/-- A successful rename whose new path still ends in the directory where the name was put
makes that path lead to the node that the old path led to. -/
def RenameLeads (s : Sys) (ev : Event) : Prop :=
  ∀ src dst g parent name, ev.call = .rename src dst →
    let old := dirBase s ev.proc ev.dirfd src
    let base := dirBase s ev.proc ev.nfd dst
    let base' := dirBase (next s ev) ev.proc ev.nfd dst
    doRename ev.env s.fs s.cwd old base src dst = .ok g →
    lookupParent s.fs base dst = .ok (parent, name) →
    lastStep (next s ev).fs base' dst = some (parent, name) →
    ∃ n, lookupPeek s.fs old src false = some n ∧
      lookupPeek (next s ev).fs base' dst false = some n

theorem rename_leads (h : s.Ok) (hreg : Regular s ev) : RenameLeads s ev := by
  intro src dst g parent name hcall old base base' hok hp hlast
  have hs := h.1.shape
  have hold : s.fs.Place old := h.2.dirBase hs hreg.1.dirfd
  have hb : s.fs.Place base := h.2.dirBase hs hreg.1.nfd
  have hfs : (next s ev).fs = g := by
    simp only [next, hcall]
    rw [show doRename _ _ _ (dirBase s ev.proc ev.dirfd src) _ src dst = .ok g from hok, orSame]
  have htarget : SoundTarget s.fs base dst := by
    simpa only [Straight, hcall] using hreg.2
  rw [hfs] at hlast ⊢
  exact rename_resolves h.1 hb htarget hold hok hp hlast

def boot : Sys where
  fs := rootOnly
  cwd := [0]

theorem boot_ok : boot.Ok := by
  refine ⟨rootOnly_sound, fun d hd => ?_⟩
  rw [List.mem_singleton.1 hd]
  exact root_place rootOnly_sound.shape

def plainly (call : Call) : Event where
  proc := 0
  env := { ro := fun _ => false, room := fun _ => true, mem := true }
  call := call

theorem plainly_linked (call : Call) (h : ∀ d, call ≠ .fchdir d) : (plainly call).Linked s :=
  ⟨by simp [plainly], by simp [plainly], fun d hd => absurd hd (h d)⟩

/-- The second path starts from an open root directory. -/
def mkdirRename : List Event :=
  [plainly (.mkdir ['a']), { plainly (.rename ['a'] ['b']) with nfd := some 0 }]

def throughLink : List Event :=
  [plainly (.mkdir ['d']), plainly (.open "d/f".toList { creat := true }),
    plainly (.link "d/f".toList "d/h".toList false), plainly (.symlink ['d'] ['l']),
    plainly (.open ['x'] { creat := true }), plainly (.rename ['x'] "l/h".toList)]

def removedOpen : List Event :=
  [plainly (.mkdir ['d']), plainly (.open ['d'] {}), plainly (.rmdir ['d']),
    { plainly (.mkdir ['x']) with dirfd := some 1 }, plainly (.close 1)]

end SamaraOS.Fs
