import SamaraOS.Proc.RightsOnce

/-!
# Calls that lose no reference

A file has at least as many references as there are descriptors and queued references of it, so
`dup` and `sendmsg` never close one for good.  What is left to slip is seen before the call: the
close of the last descriptor of an end, a message into a pipe that was freed, and a `recvmsg` with
fewer free descriptors than references to install.
-/

namespace SamaraOS.Rights

variable {s s' : Sys} {more more' : List Nat} {f g i j p p2 r : Nat} {q : Pipe} {x : File}

def Pipe.holds (f : Nat) (q : Pipe) : Nat := q.fds.countP (·.file = f)

def Sys.queued (s : Sys) (f : Nat) : Nat := (s.pipes.map (Pipe.holds f)).sum

/-- Descriptors, queued references and those of `more` are counted. -/
structure Held (s : Sys) (more : List Nat) : Prop where
  counts : ∀ f (l : List (Nat × Nat)), l.Nodup → (∀ x ∈ l, s.tables x.1 x.2 = some f) →
    ((l.length + s.queued f + more.count f : Nat) : Int) ≤ (s.file f).refs
  apart : ∀ f p p2, (s.file f).kind = .spair p p2 → p ≠ p2

theorem file_setFile : (s.setFile f x).file g = if g = f ∧ f < s.files.length then x else s.file g := by
  simp only [Sys.file, Sys.setFile, List.getD_eq_getElem?_getD, List.getElem?_set]
  grind

theorem pipe_setPipe : (s.setPipe p q).pipe r = if r = p ∧ p < s.pipes.length then q else s.pipe r := by
  simp only [Sys.pipe, Sys.setPipe, List.getD_eq_getElem?_getD, List.getElem?_set]
  grind

/-! ## Counting -/

theorem Held.lt (h : Held s more) (hpos : 0 < more.count f ∨ ∃ i j, s.tables i j = some f) :
    f < s.files.length := by
  by_contra hge
  have hrefs : (s.file f).refs = 0 := by
    simp [Sys.file, List.getD_eq_getElem?_getD, List.getElem?_eq_none (Nat.le_of_not_lt hge)]
  rcases hpos with hmore | ⟨i, j, hij⟩
  · have := h.counts f [] .nil (by simp)
    simp only [List.length_nil] at this
    omega
  · have := h.counts f [(i, j)] (by simp) (by simpa using hij)
    simp only [List.length_singleton] at this
    omega

theorem Held.shared (h : Held s (f :: more)) (hij : s.tables i j = some f) :
    1 < (s.file f).refs := by
  have := h.counts f [(i, j)] (by simp) (by simpa using hij)
  simp only [List.length_singleton, List.count_cons_self] at this
  omega

theorem Held.setFile (h : Held s more)
    (hle : ∀ g, (more'.count g : Int) - (if g = f then x.refs - (s.file f).refs else 0) ≤ more.count g)
    (hlt : f < s.files.length) (hkind : x.kind = (s.file f).kind) : Held (s.setFile f x) more' where
  counts g l hl ht := by
    have hold : ((l.length + s.queued g + more.count g : Nat) : Int) ≤ (s.file g).refs :=
      h.counts g l hl ht
    have hg := hle g
    rw [file_setFile]
    change ((l.length + s.queued g + more'.count g : Nat) : Int) ≤ _
    split at hg
    next heq =>
      subst heq
      rw [if_pos ⟨rfl, hlt⟩]
      omega
    next hne =>
      rw [if_neg (by simp [hne])]
      omega
  apart g p p2 hg := by
    rw [file_setFile] at hg
    split at hg
    next heq => exact h.apart f p p2 (hkind ▸ hg)
    · exact h.apart g p p2 hg

theorem Held.setPipe (h : Held s more) (hp : s.pipes[p]? = some (s.pipe p))
    (hle : ∀ f, q.holds f + more'.count f ≤ (s.pipe p).holds f + more.count f) :
    Held (s.setPipe p q) more' where
  counts f l hl ht := by
    have hold : ((l.length + s.queued f + more.count f : Nat) : Int) ≤ (s.file f).refs :=
      h.counts f l hl ht
    have hsum : (s.setPipe p q).queued f + (s.pipe p).holds f = s.queued f + q.holds f :=
      sum_map_set (Pipe.holds f) hp q
    have := hle f
    change ((l.length + (s.setPipe p q).queued f + more'.count f : Nat) : Int) ≤ (s.file f).refs
    omega
  apart := h.apart

theorem setPipe_of_none (hp : s.pipes[p]? = none) : s.setPipe p q = s := by
  rw [Sys.setPipe, List.set_eq_of_length_le (List.getElem?_eq_none_iff.1 hp)]

theorem Held.samePipe (h : Held s more) (hfds : q.fds = (s.pipe p).fds) :
    Held (s.setPipe p q) more := by
  cases hp : s.pipes[p]? with
  | none => rwa [setPipe_of_none hp]
  | some y =>
    have hy : s.pipe p = y := by simp [Sys.pipe, hp]
    exact h.setPipe (hy ▸ hp) fun f => by rw [Pipe.holds, hfds, Pipe.holds]

theorem Held.vacate (h : Held s more) (hij : s.tables i j = some f) :
    Held (s.setSlot i j none) (f :: more) where
  counts g l hl ht := by
    have hnot : (i, j) ∉ l := by
      intro hmem
      have := ht _ hmem
      simp [Sys.setSlot] at this
    have hold : ∀ y ∈ l, s.tables y.1 y.2 = some g := by
      intro y hy
      have := ht y hy
      have hne : ¬(y.1 = i ∧ y.2 = j) := fun heq => hnot (by rwa [← heq.1, ← heq.2])
      simpa [Sys.setSlot, hne] using this
    change ((l.length + s.queued g + (f :: more).count g : Nat) : Int) ≤ (s.file g).refs
    by_cases hfg : f = g
    · subst hfg
      have := h.counts f ((i, j) :: l) (List.nodup_cons.2 ⟨hnot, hl⟩)
        (List.forall_mem_cons.2 ⟨hij, hold⟩)
      rw [List.count_cons_self]
      simp only [List.length_cons] at this
      omega
    · rw [List.count_cons_of_ne hfg]
      exact h.counts g l hl hold
  apart := h.apart

theorem Held.fill (h : Held s (f :: more)) (i j : Nat) :
    Held (s.setSlot i j (some f)) more where
  counts g l hl ht := by
    have hold : ∀ y ∈ l, y ≠ (i, j) → s.tables y.1 y.2 = some g := by
      intro y hy hne
      have := ht y hy
      have hne' : ¬(y.1 = i ∧ y.2 = j) := fun heq => hne (Prod.ext heq.1 heq.2)
      simpa [Sys.setSlot, hne'] using this
    change ((l.length + s.queued g + more.count g : Nat) : Int) ≤ (s.file g).refs
    by_cases hmem : (i, j) ∈ l
    · have hfg : f = g := by
        have := ht _ hmem
        simpa [Sys.setSlot] using this
      subst hfg
      have := h.counts f (l.erase (i, j)) (hl.erase _) fun y hy =>
        hold y (List.mem_of_mem_erase hy) fun heq => (hl.not_mem_erase) (heq ▸ hy)
      rw [List.length_erase_of_mem hmem, List.count_cons_self] at this
      have := List.length_pos_of_mem hmem
      omega
    have := h.counts g l hl fun y hy => hold y hy fun heq => hmem (heq ▸ hy)
    have hle : more.count g ≤ (f :: more).count g := List.count_le_count_cons
    omega
  apart := h.apart

/-! ## Files -/

theorem Held.pipeEnd (h : Held s more) (dr dw : Int) : Held (pipeEnd s p dr dw) more :=
  h.samePipe rfl

theorem Held.shutFlag (h : Held s more) (hx : x.refs = (s.file f).refs)
    (hkind : x.kind = (s.file f).kind) : Held (s.setFile f x) more := by
  rcases Nat.lt_or_ge f s.files.length with hlt | hge
  · exact h.setFile (fun g => by split <;> omega) hlt hkind
  · have : s.setFile f x = s := by rw [Sys.setFile, List.set_eq_of_length_le hge]
    rwa [this]

theorem Held.spairShutdown (h : Held s more) (f how : Nat) : Held (spairShutdown s f how) more := by
  have hrd : ∀ {s : Sys} (p), Held s more → Held (shutRd s f p) more := by
    intro s p h
    unfold shutRd
    simp only
    split
    · exact h
    · exact Held.pipeEnd (h.shutFlag (x := { s.file f with shutRd := true }) rfl rfl) _ _
  have hwr : ∀ {s : Sys} (p), Held s more → Held (shutWr s f p) more := by
    intro s p h
    unfold shutWr
    simp only
    split
    · exact h
    · exact Held.pipeEnd (h.shutFlag (x := { s.file f with shutWr := true }) rfl rfl) _ _
  unfold Rights.spairShutdown
  split
  · exact h
  next p p2 _ =>
  have hmid : Held (if how = 0 ∨ how = 2 then shutRd s f p else s) more := by
    split
    · exact hrd p h
    · exact h
  simp only
  split
  · exact hwr p2 hmid
  · exact hmid

theorem Held.freePipe (h : Held s more) (p : Nat) : Held (freePipe s p) more := by
  unfold Rights.freePipe
  simp only
  split
  swap
  · exact h
  next hdead =>
  have hp := pipe_mem (.inl hdead.2.2)
  have hle : ∀ f, Pipe.holds f { s.pipe p with fds := [], gone := true } + more.count f ≤
      (s.pipe p).holds f + more.count f := fun f => by simp [Pipe.holds]
  split
  · exact h.setPipe hp hle
  · exact Held.setPipe (s := { s with slips := _ }) ⟨h.counts, h.apart⟩ hp hle

theorem Held.fileClose (h : Held s (f :: more)) : Held (fileClose s f) more := by
  have hlt := h.lt (f := f) (.inl (by simp))
  have hset : Held (s.setFile f { s.file f with refs := (s.file f).refs - 1 }) more := by
    refine h.setFile (fun g => ?_) hlt rfl
    split
    next heq =>
      subst heq
      rw [List.count_cons_self]
      push_cast
      omega
    next hne =>
      rw [List.count_cons_of_ne (Ne.symm hne)]
      omega
  unfold Rights.fileClose
  simp only
  split
  · exact hset
  split
  · exact hset
  · exact ((hset.spairShutdown f 2).freePipe _).freePipe _

theorem Held.fileRef (h : Held s more) (hij : s.tables i j = some f) :
    Held (fileRef s f) (f :: more) := by
  refine h.setFile (fun g => ?_) (h.lt (.inr ⟨i, j, hij⟩)) rfl
  split
  next heq =>
    subst heq
    rw [List.count_cons_self]
    push_cast
    omega
  next hne =>
    rw [List.count_cons_of_ne (Ne.symm hne)]
    omega

theorem allocFd_free {proc fd : Nat} (h : allocFd s proc = some fd) :
    fd < min (s.limit proc) maxFds ∧ s.tables proc fd = none := by
  have hfree := List.find?_some h
  have hmem := List.mem_of_find?_eq_some h
  exact ⟨List.mem_range.1 hmem, by simpa using hfree⟩

theorem Held.installFd (h : Held s (f :: more)) (proc : Nat) :
    Held (installFd s proc f).1 more := by
  unfold Rights.installFd
  split
  next fd hfd => exact h.fill proc fd
  · exact h.fileClose

theorem Held.newFile (h : Held s more) (hx : x.refs = 1)
    (hkind : ∀ p p2, x.kind = .spair p p2 → p ≠ p2) :
    Held { s with files := s.files ++ [x] } (s.files.length :: more) := by
  have hfile : ∀ g, Sys.file { s with files := s.files ++ [x] } g =
      if g = s.files.length then x else s.file g := by
    intro g
    simp only [Sys.file, List.getD_eq_getElem?_getD, List.getElem?_append]
    grind
  have hnew : (s.file s.files.length).refs = 0 := by simp [Sys.file]
  refine ⟨fun g l hl ht => ?_, fun g p p2 hg => ?_⟩
  · have hold : ((l.length + s.queued g + more.count g : Nat) : Int) ≤ (s.file g).refs :=
      h.counts g l hl ht
    rw [hfile]
    change ((l.length + s.queued g + (s.files.length :: more).count g : Nat) : Int) ≤ _
    by_cases hg : g = s.files.length
    · rw [if_pos hg, hx, hg, List.count_cons_self]
      rw [hg, hnew] at hold
      omega
    · rw [if_neg hg, List.count_cons_of_ne (Ne.symm hg)]
      exact hold
  · rw [hfile] at hg
    split at hg
    · exact hkind p p2 hg
    · exact h.apart g p p2 hg

/-! ## Slips -/

theorem fileClose_shared (h : 1 < (s.file f).refs) :
    fileClose s f = s.setFile f { s.file f with refs := (s.file f).refs - 1 } := by
  unfold fileClose
  simp only
  rw [if_pos (by omega)]

/-- What a shutdown leaves of the files and pipes. -/
structure Shut (s s' : Sys) (p p2 : Nat) : Prop where
  slips : s'.slips = s.slips
  tables : s'.tables = s.tables
  kind : ∀ g, (s'.file g).kind = (s.file g).kind
  fds : ∀ r, (s'.pipe r).fds = (s.pipe r).fds
  writers : ∀ r ≠ p2, (s'.pipe r).writers = (s.pipe r).writers
  readers : ∀ r ≠ p, (s'.pipe r).readers = (s.pipe r).readers

theorem Shut.trans {s'' : Sys} (h : Shut s s' p p2) (h' : Shut s' s'' p p2) : Shut s s'' p p2 :=
  ⟨h'.slips.trans h.slips, h'.tables.trans h.tables, fun g => (h'.kind g).trans (h.kind g),
    fun r => (h'.fds r).trans (h.fds r), fun r hr => (h'.writers r hr).trans (h.writers r hr),
    fun r hr => (h'.readers r hr).trans (h.readers r hr)⟩

theorem Shut.refl (s : Sys) (p p2 : Nat) : Shut s s p p2 :=
  ⟨rfl, rfl, fun _ => rfl, fun _ => rfl, fun _ _ => rfl, fun _ _ => rfl⟩

theorem kind_setFile (hkind : x.kind = (s.file f).kind) (g : Nat) :
    ((s.setFile f x).file g).kind = (s.file g).kind := by
  rw [file_setFile]
  split
  next heq => rw [hkind, heq.1]
  · rfl

theorem setFile_shut (hkind : x.kind = (s.file f).kind) : Shut s (s.setFile f x) p p2 :=
  ⟨rfl, rfl, kind_setFile hkind, fun _ => rfl, fun _ _ => rfl, fun _ _ => rfl⟩

theorem pipeEnd_pipe (s : Sys) (dr dw : Int) : (pipeEnd s p dr dw).pipe r = s.pipe r ∨
    r = p ∧ (pipeEnd s p dr dw).pipe r =
      { s.pipe r with readers := (s.pipe r).readers + dr, writers := (s.pipe r).writers + dw } := by
  rw [pipeEnd, pipe_setPipe]
  split
  next heq => exact .inr ⟨heq.1, by rw [heq.1]⟩
  · exact .inl rfl

theorem shutRd_shut (s : Sys) (f p p2 : Nat) : Shut s (shutRd s f p) p p2 := by
  unfold shutRd
  simp only
  split
  · exact .refl s p p2
  refine (setFile_shut (x := { s.file f with shutRd := true }) rfl).trans ?_
  refine ⟨rfl, rfl, fun _ => rfl, fun r => ?_, fun r _ => ?_, fun r hr => ?_⟩
  all_goals rcases pipeEnd_pipe (r := r) _ (-1) 0 with h | ⟨heq, h⟩
  all_goals first | exact absurd heq hr | rw [h]
  exact add_zero _

theorem shutWr_shut (s : Sys) (f p p2 : Nat) : Shut s (shutWr s f p2) p p2 := by
  unfold shutWr
  simp only
  split
  · exact .refl s p p2
  refine (setFile_shut (x := { s.file f with shutWr := true }) rfl).trans ?_
  refine ⟨rfl, rfl, fun _ => rfl, fun r => ?_, fun r hr => ?_, fun r _ => ?_⟩
  all_goals rcases pipeEnd_pipe (r := r) _ 0 (-1) with h | ⟨heq, h⟩
  all_goals first | exact absurd heq hr | rw [h]
  exact add_zero _

theorem spairShutdown_shut {how : Nat} (hkind : (s.file f).kind = .spair p p2) :
    Shut s (spairShutdown s f how) p p2 := by
  unfold spairShutdown
  rw [hkind]
  simp only
  have hmid : Shut s (if how = 0 ∨ how = 2 then shutRd s f p else s) p p2 := by
    split
    · exact shutRd_shut s f p p2
    · exact .refl s p p2
  split
  · exact hmid.trans (shutWr_shut _ f p p2)
  · exact hmid

theorem freePipe_other (hne : r ≠ p) : (freePipe s p).pipe r = s.pipe r := by
  unfold freePipe
  simp only
  split
  · rw [pipe_setPipe, if_neg fun heq => hne heq.1]
    split <;> rfl
  · rfl

theorem freePipe_slips (h : (s.pipe p).fds = [] ∨ 0 < (s.pipe p).writers ∨ 0 < (s.pipe p).readers) :
    (freePipe s p).slips = s.slips := by
  unfold freePipe
  simp only
  split
  next hdead =>
    rcases h with hnil | hw | hr
    · rw [if_pos hnil]
      rfl
    · omega
    · omega
  · rfl

theorem freePipe_tables : (freePipe s p).tables = s.tables := by
  unfold freePipe
  simp only
  split
  · split <;> rfl
  · rfl

theorem freePipe_kind : ((freePipe s p).file g).kind = (s.file g).kind := by
  unfold freePipe
  simp only
  split
  · split <;> rfl
  · rfl

theorem freePipe_nil (h : (s.pipe r).fds = []) : ((freePipe s p).pipe r).fds = [] := by
  by_cases hr : r = p
  · unfold freePipe
    simp only
    split
    · rw [pipe_setPipe]
      split_ifs <;> first | rfl | exact h
    · exact h
  · rw [freePipe_other hr]
    exact h

/-- The pipes of an end are empty, or the other end can still write to the one and read from the
other. -/
def Emptied (s : Sys) (f : Nat) : Prop :=
  ∀ p p2, (s.file f).kind = .spair p p2 → ((s.pipe p).fds = [] ∨ 0 < (s.pipe p).writers) ∧
    ((s.pipe p2).fds = [] ∨ 0 < (s.pipe p2).readers)

theorem fileClose_cases (s : Sys) (f : Nat) : Shut s (fileClose s f) 0 0 ∨
    ∃ p p2 s', (s.file f).kind = .spair p p2 ∧ Shut s s' p p2 ∧
      fileClose s f = freePipe (freePipe s' p) p2 := by
  unfold fileClose
  simp only
  have hset : ∀ p p2, Shut s (s.setFile f { s.file f with refs := (s.file f).refs - 1 }) p p2 :=
    fun _ _ => setFile_shut rfl
  split
  · exact .inl (hset 0 0)
  split
  · exact .inl (hset 0 0)
  next p p2 hkind =>
  refine .inr ⟨p, p2, _, hkind, (hset p p2).trans (spairShutdown_shut ?_), rfl⟩
  rw [(hset p p2).kind]
  exact hkind

theorem fileClose_slips (hne : ∀ p p2, (s.file f).kind = .spair p p2 → p ≠ p2) (h : Emptied s f) :
    (fileClose s f).slips = s.slips := by
  rcases fileClose_cases s f with hshut | ⟨p, p2, s', hkind, hshut, heq⟩
  · exact hshut.slips
  have hpp := hne p p2 hkind
  obtain ⟨hp, hp2⟩ := h p p2 hkind
  have hfirst : (freePipe s' p).slips = s'.slips := by
    refine freePipe_slips ?_
    rw [hshut.fds, hshut.writers p hpp]
    exact hp.imp_right .inl
  rw [heq, freePipe_slips, hfirst, hshut.slips]
  rw [freePipe_other hpp.symm, hshut.fds, hshut.readers p2 hpp.symm]
  exact hp2.imp_right .inr

theorem fileClose_kind : ((fileClose s f).file g).kind = (s.file g).kind := by
  rcases fileClose_cases s f with hshut | ⟨p, p2, s', -, hshut, heq⟩
  · exact hshut.kind g
  · rw [heq, freePipe_kind, freePipe_kind, hshut.kind]

theorem fileClose_tables : (fileClose s f).tables = s.tables := by
  rcases fileClose_cases s f with hshut | ⟨p, p2, s', -, hshut, heq⟩
  · exact hshut.tables
  · rw [heq, freePipe_tables, freePipe_tables, hshut.tables]

theorem fileClose_nil (h : (s.pipe r).fds = []) : ((fileClose s f).pipe r).fds = [] := by
  rcases fileClose_cases s f with hshut | ⟨p, p2, s', -, hshut, heq⟩
  · rw [hshut.fds, h]
  · rw [heq]
    exact freePipe_nil (freePipe_nil (by rw [hshut.fds, h]))

/-! ## Calls -/

structure Kept (s : Sys) : Prop where
  slips : s.slips = []
  held : Held s []

theorem installFd_slips (h : Held s (f :: more)) (hij : s.tables i j = some f) (proc : Nat) :
    (installFd s proc f).1.slips = s.slips := by
  unfold installFd
  split
  · rfl
  · rw [fileClose_shared (h.shared hij)]
    rfl

theorem Kept.dup (h : Kept s) (proc fd dst : Nat) : Kept (dup s proc fd dst) := by
  unfold Rights.dup
  split
  · exact h
  next f hf =>
  have href := h.held.fileRef hf
  exact ⟨(installFd_slips href (i := proc) (j := fd) hf dst).trans h.slips, href.installFd dst⟩

theorem Kept.close (h : Kept s) {proc fd : Nat}
    (hc : ∀ f, s.tables proc fd = some f → (s.file f).refs = 1 → Emptied s f) :
    Kept (close s proc fd) := by
  unfold Rights.close
  split
  · exact h
  next f hf =>
  have hheld := h.held.vacate hf
  refine ⟨?_, hheld.fileClose⟩
  have hone := h.held.counts f [(proc, fd)] (by simp) (by simpa using hf)
  simp only [List.length_singleton] at hone
  by_cases hlast : (s.file f).refs = 1
  · exact (fileClose_slips (s := s.setSlot proc fd none) (h.held.apart f) (hc f hf hlast)).trans
      h.slips
  · have hmany : 1 < ((s.setSlot proc fd none).file f).refs := by
      change 1 < (s.file f).refs
      omega
    rw [fileClose_shared hmany]
    exact h.slips

theorem Kept.openFile (h : Kept s) (proc : Nat) : Kept (openFile s proc) := by
  unfold Rights.openFile
  have hnew := h.held.newFile (x := { refs := 1, kind := .plain }) rfl (by simp)
  refine ⟨?_, hnew.installFd proc⟩
  unfold installFd
  split
  · exact h.slips
  · refine (fileClose_slips ?_ ?_).trans h.slips
    · exact fun p p2 hk => hnew.apart _ p p2 hk
    · intro p p2 hk
      simp [Sys.file] at hk

/-- The two files and pipes of a new pair. -/
structure Fresh (s : Sys) (n p : Nat) : Prop where
  first : (s.file n).kind = .spair p (p + 1)
  second : (s.file (n + 1)).kind = .spair (p + 1) p
  nil : (s.pipe p).fds = []
  nil' : (s.pipe (p + 1)).fds = []

theorem Fresh.fileClose {n : Nat} (h : Fresh s n p) (f : Nat) : Fresh (fileClose s f) n p :=
  ⟨fileClose_kind.trans h.first, fileClose_kind.trans h.second, fileClose_nil h.nil,
    fileClose_nil h.nil'⟩

theorem Fresh.slips {n : Nat} (h : Fresh s n p) (hf : f = n ∨ f = n + 1) :
    (Rights.fileClose s f).slips = s.slips := by
  refine fileClose_slips (fun a b hk => ?_) (fun a b hk => ?_)
  · rcases hf with rfl | rfl
    · rw [h.first] at hk
      cases hk
      omega
    · rw [h.second] at hk
      cases hk
      omega
  · rcases hf with rfl | rfl
    · rw [h.first] at hk
      cases hk
      exact ⟨.inl h.nil, .inl h.nil'⟩
    · rw [h.second] at hk
      cases hk
      exact ⟨.inl h.nil', .inl h.nil⟩

theorem spairCreate_fresh (s : Sys) : Fresh (spairCreate s) s.files.length s.pipes.length := by
  constructor <;> simp [spairCreate, Sys.file, Sys.pipe]

theorem Held.spairCreate (h : Held s []) :
    Held (spairCreate s) [s.files.length, s.files.length + 1] := by
  have hpipes : Held { s with pipes := s.pipes ++ [{}, {}] } [] := by
    refine ⟨fun f l hl ht => ?_, h.apart⟩
    have hq : Sys.queued { s with pipes := s.pipes ++ [{}, {}] } f = s.queued f := by
      simp [Sys.queued, Pipe.holds]
    rw [hq]
    exact h.counts f l hl ht
  have hfirst := hpipes.newFile
    (x := { refs := 1, kind := .spair s.pipes.length (s.pipes.length + 1) }) rfl
    (fun p p2 hk => by cases hk; omega)
  have hsecond := hfirst.newFile
    (x := { refs := 1, kind := .spair (s.pipes.length + 1) s.pipes.length }) rfl
    (fun p p2 hk => by cases hk; omega)
  simp only [List.append_assoc, List.singleton_append, List.length_append, List.length_singleton]
    at hsecond
  refine ⟨fun f l hl ht => ?_, hsecond.apart⟩
  have := hsecond.counts f l hl ht
  rwa [(List.Perm.swap _ _ []).count_eq]

theorem Kept.doSocketpair (h : Kept s) (proc : Nat) : Kept (doSocketpair s proc) := by
  have hheld := h.held.spairCreate
  have hfresh := spairCreate_fresh s
  have hslips : (spairCreate s).slips = [] := h.slips
  unfold Rights.doSocketpair
  generalize spairCreate s = s₁ at *
  generalize s.files.length = n at *
  have hinst := hheld.installFd proc
  simp only [installFd] at hinst ⊢
  cases hx : allocFd s₁ proc with
  | none =>
    rw [hx] at hinst
    refine ⟨?_, hinst.fileClose⟩
    simp only
    rw [(hfresh.fileClose n).slips (.inr rfl), hfresh.slips (.inl rfl), hslips]
  | some a =>
    rw [hx] at hinst
    simp only at hinst ⊢
    have hfresh₂ : Fresh (s₁.setSlot proc a (some n)) n s.pipes.length :=
      ⟨hfresh.first, hfresh.second, hfresh.nil, hfresh.nil'⟩
    cases hy : allocFd (s₁.setSlot proc a (some n)) proc with
    | some b => exact ⟨hslips, hinst.fill proc b⟩
    | none =>
      simp only
      have hclosed := hinst.fileClose
      have htab : (fileClose (s₁.setSlot proc a (some n)) (n + 1)).tables proc a = some n := by
        rw [fileClose_tables]
        simp [Sys.setSlot]
      refine ⟨?_, (hclosed.vacate htab).fileClose⟩
      have hfresh₃ := hfresh₂.fileClose (n + 1)
      have hfresh₄ : Fresh ((fileClose (s₁.setSlot proc a (some n)) (n + 1)).setSlot proc a none) n
          s.pipes.length := ⟨hfresh₃.first, hfresh₃.second, hfresh₃.nil, hfresh₃.nil'⟩
      rw [hfresh₄.slips (.inl rfl)]
      exact (hfresh₂.slips (.inr rfl)).trans hslips

/-! ### Messages -/

theorem queueRef_kept (h : Kept s) (hp : (s.pipe p).gone = false) {y : Nat}
    (hij : s.tables i j = some y) :
    Kept (queueRef s p y) ∧ ((queueRef s p y).pipe p).gone = false ∧
      (queueRef s p y).tables = s.tables := by
  unfold queueRef
  simp only
  have hheld : Held (fileRef { s with issued := s.issued + 1 } y) [y] :=
    Held.fileRef (s := { s with issued := s.issued + 1 }) ⟨h.held.counts, h.held.apart⟩ hij
  generalize hs : fileRef { s with issued := s.issued + 1 } y = s₁ at hheld
  have hpipe : s₁.pipe p = s.pipe p := by rw [← hs]; rfl
  have htab : s₁.tables = s.tables := by rw [← hs]; rfl
  have hslips : s₁.slips = [] := by rw [← hs]; exact h.slips
  rw [hpipe, if_neg (by simp [hp])]
  split
  · refine ⟨⟨hslips, hheld.setPipe (pipe_mem (.inl (hpipe ▸ hp))) fun f => ?_⟩, ?_, htab⟩
    · rw [hpipe]
      simp only [Pipe.holds, List.countP_append, List.countP_singleton, List.count_nil,
        List.count_singleton]
      grind
    · rw [pipe_setPipe, hpipe]
      split
      · exact hp
      · exact hp
  have hmany : 1 < (s₁.file y).refs := hheld.shared (htab ▸ hij)
  have hclose : fileClose { s₁ with fates := s₁.fates ++ [s.issued] } y = _ :=
    fileClose_shared (s := { s₁ with fates := s₁.fates ++ [s.issued] }) hmany
  refine ⟨⟨?_, Held.fileClose (s := { s₁ with fates := _ }) ⟨hheld.counts, hheld.apart⟩⟩, ?_, ?_⟩
  · rw [hclose]
    exact hslips
  · rw [hclose]
    exact hpipe ▸ hp
  · rw [hclose]
    exact htab

theorem queueAll_kept {proc : Nat} {fds : List Nat} (h : Kept s)
    (hp : (∃ y ∈ fds, s.tables proc y ≠ none) → (s.pipe p).gone = false) :
    Kept (queueAll s proc p fds) := by
  induction fds generalizing s with
  | nil => exact h
  | cons fd fds ih =>
    rw [queueAll, List.foldl_cons]
    cases hfd : s.tables proc fd with
    | none =>
      exact ih h fun ⟨y, hy, hne⟩ => hp ⟨y, List.mem_cons_of_mem _ hy, hne⟩
    | some y =>
      obtain ⟨hkept, hgone, -⟩ := queueRef_kept h (hp ⟨fd, List.mem_cons_self, by simp [hfd]⟩) hfd
      exact ih hkept fun _ => hgone

theorem Kept.sendmsg (h : Kept s) {proc fd n : Nat} {fds : List Nat}
    (hc : ∀ f p p2, s.tables proc fd = some f → (s.file f).kind = .spair p p2 →
      (∃ y ∈ fds, s.tables proc y ≠ none) → (s.pipe p2).gone = false) :
    Kept (sendmsg s proc fd fds n) := by
  unfold Rights.sendmsg
  split
  · exact h
  next f hf =>
  split
  · exact h
  next p p2 hkind =>
  have hall := queueAll_kept (p := p2) h (hc f p p2 hf hkind)
  unfold sendBytes
  simp only
  split
  · exact hall
  · exact ⟨hall.slips, hall.held.samePipe rfl⟩

/-- The descriptors that the process may still get. -/
def Sys.free (s : Sys) (proc : Nat) : Nat :=
  ((Finset.range (min (s.limit proc) maxFds)).filter fun fd => s.tables proc fd = none).card

theorem free_fill {proc fd : Nat} (h : allocFd s proc = some fd) :
    (s.setSlot proc fd (some f)).free proc + 1 = s.free proc := by
  obtain ⟨hlt, hnone⟩ := allocFd_free h
  have hmem : fd ∈ (Finset.range (min (s.limit proc) maxFds)).filter
      fun fd => s.tables proc fd = none := by
    simpa using ⟨by simpa using hlt, hnone⟩
  have herase : ((Finset.range (min (s.limit proc) maxFds)).filter
      fun j => (s.setSlot proc fd (some f)).tables proc j = none) =
      ((Finset.range (min (s.limit proc) maxFds)).filter
        fun fd => s.tables proc fd = none).erase fd := by
    ext j
    by_cases hj : j = fd
    · simp [Sys.setSlot, hj]
    · simp [Sys.setSlot, hj]
  rw [Sys.free, Sys.free, ← Finset.card_erase_add_one hmem, ← herase]
  rfl

theorem allocFd_of_free {proc : Nat} (h : 0 < s.free proc) : ∃ fd, allocFd s proc = some fd := by
  rw [← Option.ne_none_iff_exists']
  intro hnone
  obtain ⟨fd, hfd⟩ := Finset.card_pos.1 h
  rw [Finset.mem_filter, Finset.mem_range] at hfd
  have := List.find?_eq_none.1 hnone fd (List.mem_range.2 hfd.1)
  simp [hfd.2] at this

def ready (s : Sys) (p : Nat) : Nat :=
  ((s.pipe p).fds.takeWhile fun r => r.fpos < (s.pipe p).rtot).length

theorem installRef_kept (proc : Nat) {r : Ref} (hslips : s.slips = []) (h : Held s [r.file])
    (hfree : 0 < s.free proc) : ∃ s', installRef s proc r = (s', true) ∧ Kept s' ∧
      s'.free proc + 1 = s.free proc ∧ ∀ p, s'.pipe p = s.pipe p := by
  obtain ⟨fd, hfd⟩ := allocFd_of_free hfree
  have hinst : installFd { s with fates := s.fates ++ [r.token] } proc r.file =
      (Sys.setSlot { s with fates := s.fates ++ [r.token] } proc fd (some r.file), some fd) := by
    rw [installFd, show allocFd { s with fates := s.fates ++ [r.token] } proc = some fd from hfd]
  refine ⟨Sys.setSlot { s with fates := s.fates ++ [r.token] } proc fd (some r.file),
    by rw [installRef, hinst], ⟨hslips, ?_⟩, free_fill hfd, fun _ => rfl⟩
  exact Held.fill (s := { s with fates := s.fates ++ [r.token] }) ⟨h.counts, h.apart⟩ proc fd

theorem takeRefs_kept {proc room fuel k : Nat} (h : Kept s)
    (hfree : min (ready s p) ((room - 16) / 4 - k) ≤ s.free proc) :
    Kept (takeRefs proc p room fuel k s) := by
  induction fuel generalizing s k with
  | zero => exact h
  | succ fuel ih =>
    rw [takeRefs]
    split
    · exact h
    next r rest hfds =>
    split
    swap
    · exact h
    next htake =>
    have hp : s.pipes[p]? = some (s.pipe p) := pipe_mem (.inr (by simp [hfds]))
    have hlt : p < s.pipes.length := (List.getElem?_eq_some_iff.1 hp).1
    have hready : ready s p = (rest.takeWhile fun r => r.fpos < (s.pipe p).rtot).length + 1 := by
      rw [ready, hfds, List.takeWhile_cons_of_pos (by simpa using htake.1), List.length_cons]
    have hheld : Held (s.setPipe p { s.pipe p with fds := rest }) [r.file] := by
      refine h.held.setPipe hp fun f => ?_
      simp only [Pipe.holds, hfds, List.countP_cons, List.count_nil, List.count_singleton]
      grind
    have hpos : 0 < s.free proc := by omega
    obtain ⟨s', hinst, hkept, hcount, hpipe⟩ := installRef_kept proc (r := r)
      (s := s.setPipe p { s.pipe p with fds := rest }) h.slips hheld hpos
    rw [hinst]
    refine ih hkept ?_
    have hnow : ready s' p = (rest.takeWhile fun r => r.fpos < (s.pipe p).rtot).length := by
      rw [ready, hpipe, pipe_setPipe, if_pos ⟨rfl, hlt⟩]
    have hsame : (s.setPipe p { s.pipe p with fds := rest }).free proc = s.free proc := rfl
    simp only [if_true]
    omega

/-- How many references a `recvmsg` of `n` bytes may take out of the queue. -/
def arrived (s : Sys) (f p n : Nat) : Nat :=
  let q := s.pipe p
  let got := if (s.file f).shutRd then 0 else min n (q.wtot - q.rtot)
  (q.fds.takeWhile fun r => r.fpos < q.rtot + got).length

theorem Kept.recvmsg (h : Kept s) {proc fd n room : Nat}
    (hc : ∀ f p p2, s.tables proc fd = some f → (s.file f).kind = .spair p p2 →
      min (arrived s f p n) ((room - 16) / 4) ≤ s.free proc) : Kept (recvmsg s proc fd n room) := by
  unfold Rights.recvmsg
  split
  · exact h
  next f hf =>
  split
  · exact h
  next p p2 hkind =>
  have hfree := hc f p p2 hf hkind
  unfold arrived at hfree
  simp only at hfree ⊢
  split
  · exact h
  generalize (if (s.file f).shutRd then 0 else min n ((s.pipe p).wtot - (s.pipe p).rtot)) = got at *
  have hread : Kept (s.setPipe p { s.pipe p with rtot := (s.pipe p).rtot + got }) :=
    ⟨h.slips, h.held.samePipe rfl⟩
  split
  · exact hread
  refine takeRefs_kept hread ?_
  rw [ready, pipe_setPipe]
  split
  · exact hfree
  next hout =>
  have hnil : (s.pipe p).fds = [] := by
    have hge : s.pipes.length ≤ p := by simpa using hout
    simp [Sys.pipe, List.getD_eq_getElem?_getD, List.getElem?_eq_none hge]
  simp [hnil]

/-! ## Runs -/

/-- The file of a descriptor and its pipes, if it is an end of a pair. -/
def Sys.endOf (s : Sys) (proc fd : Nat) : Option (Nat × Nat × Nat) :=
  (s.tables proc fd).bind fun f =>
    match (s.file f).kind with
    | .plain => none
    | .spair p p2 => some (f, p, p2)

theorem endOf_eq {proc fd : Nat} (hf : s.tables proc fd = some f)
    (hkind : (s.file f).kind = .spair p p2) : (f, p, p2) ∈ s.endOf proc fd := by
  simp [Sys.endOf, hf, hkind]

/-- A call that cannot lose a reference: the last descriptor of an end is closed with its queues
empty or the other end still there for them, nothing is sent into a pipe that was freed, and there
are descriptors for what is received. -/
def Careful (s : Sys) : Event → Prop
  | .close proc fd => ∀ e ∈ s.endOf proc fd, (s.file e.1).refs = 1 →
      ((s.pipe e.2.1).fds = [] ∨ 0 < (s.pipe e.2.1).writers) ∧
        ((s.pipe e.2.2).fds = [] ∨ 0 < (s.pipe e.2.2).readers)
  | .sendmsg proc fd fds _ => ∀ e ∈ s.endOf proc fd,
      (∃ y ∈ fds, s.tables proc y ≠ none) → (s.pipe e.2.2).gone = false
  | .recvmsg proc fd n room => ∀ e ∈ s.endOf proc fd,
      min (arrived s e.1 e.2.1 n) ((room - 16) / 4) ≤ s.free proc
  | _ => True

instance (s : Sys) (e : Event) : Decidable (Careful s e) := by
  cases e <;> unfold Careful <;> infer_instance

def CarefulRun (s : Sys) : List Event → Prop
  | [] => True
  | e :: events => Careful s e ∧ CarefulRun (next s e) events

instance decidableCarefulRun : ∀ (s : Sys) (events : List Event), Decidable (CarefulRun s events)
  | _, [] => inferInstanceAs (Decidable True)
  | s, e :: events =>
    have := decidableCarefulRun (next s e) events
    inferInstanceAs (Decidable (Careful s e ∧ CarefulRun (next s e) events))

theorem Kept.next (h : Kept s) {e : Event} (hc : Careful s e) : Kept (next s e) := by
  cases e with
  | openFile proc => exact h.openFile proc
  | socketpair proc => exact h.doSocketpair proc
  | dup proc fd dst => exact h.dup proc fd dst
  | close proc fd =>
    exact h.close fun f hf hlast p p2 hkind => hc _ (endOf_eq hf hkind) hlast
  | shutdown proc fd how =>
    simp only [Rights.next, shutdown]
    split
    · exact h
    next f hf =>
    refine ⟨?_, h.held.spairShutdown f how⟩
    cases hkind : (s.file f).kind with
    | plain => simp [spairShutdown, hkind, h.slips]
    | spair p p2 => rw [(spairShutdown_shut hkind).slips, h.slips]
  | setrlimit proc n => exact ⟨h.slips, h.held.counts, h.held.apart⟩
  | sendmsg proc fd fds n => exact h.sendmsg fun f p p2 hf hkind => hc _ (endOf_eq hf hkind)
  | recvmsg proc fd n room => exact h.recvmsg fun f p p2 hf hkind => hc _ (endOf_eq hf hkind)

theorem Kept.play (h : Kept s) {events : List Event} (hc : CarefulRun s events) :
    Kept (play s events) := by
  induction events generalizing s with
  | nil => exact h
  | cons e events ih => exact ih (h.next hc.1) hc.2

theorem boot_kept : Kept boot where
  slips := rfl
  held :=
    { counts := fun f l _ ht => by
        cases l with
        | nil => simp [boot, Sys.queued, Sys.file]
        | cons x l => cases ht x List.mem_cons_self
      apart := fun f p p2 hk => by simp [boot, Sys.file] at hk }

def sentAndReceived : List Event :=
  [.socketpair 0, .openFile 0, .sendmsg 0 0 [2] 1, .close 0 0, .recvmsg 0 1 1 64, .close 0 1]

def sentAndClosed : List Event :=
  [.socketpair 0, .openFile 0, .sendmsg 0 0 [2] 1, .close 0 0, .close 0 1]

def sentToFull : List Event :=
  [.socketpair 0, .openFile 0, .sendmsg 0 0 [2] 1, .setrlimit 0 3, .recvmsg 0 1 1 64]

end SamaraOS.Rights
