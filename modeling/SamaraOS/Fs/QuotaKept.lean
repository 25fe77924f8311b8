import SamaraOS.Fs.QuotaCount

/-!
# The limit holds as long as no bytes come in by a move

Writing, cutting, making, linking and removing keep what a limited tmpfs stores below its counters
and the counters below the limit.  Moving a file into the volume asks for no room, and so does
removing a file whose next name is there, or a file in `dev/shm` that grows.
-/

namespace SamaraOS.Quota

open Siblings

section

variable (ms : List Mnt)

def carries (o o' : Option Nat) (sub : Siblings Info) : Bool :=
  o ≠ o' && (o'.bind (limitOf ms)).isSome && (walk sub).1 ≠ 0

def growOk (t : Siblings Info) (n new : Nat) : Bool :=
  match look ms t n with
  | none => true
  | some (s, a, _) =>
    new ≤ a.size || ((s.owner.bind (limitOf ms)).all fun kl => mntFind ms t n == some kl.1)

/-- The file does not grow, or its volume has no limit. -/
def shmOk (t : Siblings Info) (n new : Nat) : Bool :=
  (look ms t n).all fun r => new ≤ r.2.1.size || (r.1.owner.bind (limitOf ms)).isNone

def dropCarries (t : Siblings Info) (n : Nat) : Bool :=
  match look ms t n with
  | none => false
  | some (s, a, kids) =>
    a.hl.isNone && ((a.hn.head?.bind (look ms t)).any fun r =>
      carries ms s.owner r.1.owner (node n a kids nil))

def moveCarries (t : Siblings Info) (src dir : Nat) : Bool :=
  match look ms t src with
  | none => false
  | some (s, a, kids) => carries ms s.owner (fsOwner ms t dir) (node src a kids nil)

def renameOk (t : Siblings Info) (src dir : Nat) (name : String) : Bool :=
  match look ms t src, look ms t dir with
  | some (_, a, _), some (_, _, there) =>
    match findChild name there with
    | none => !moveCarries ms t src dir
    | some (x, c, _) =>
      decide (x = src ∨ c.hl.getD x = a.hl.getD src) ||
        (!dropCarries ms t x && !moveCarries ms (fsDropName ms t x) src dir)
  | _, _ => true

def opOk (st : State) : Op → Bool
  | .write n off len _ =>
    let n := real ms st.tree n
    if isShm ms st.tree n then shmOk ms st.tree n ((off + len) % 2 ^ 64)
    else growOk ms st.tree n ((off + len) % 2 ^ 32)
  | .ftruncate n len _ bare =>
    let n := real ms st.tree n
    if isShm ms st.tree n && decide (2 ^ 20 < len) && bare then shmOk ms st.tree n (len % 2 ^ 64)
    else growOk ms st.tree n (len % 2 ^ 32)
  | .truncate n len _ => growOk ms st.tree (real ms st.tree n) (len % 2 ^ 32)
  | .create .. => true
  | .link .. => true
  | .unlink n _ _ => !dropCarries ms st.tree n
  | .rename src dir name _ => renameOk ms st.tree src dir name

def runOk (st : State) : List Op → Bool
  | [] => true
  | op :: ops => opOk ms st op && runOk (exec ms st op).2 ops

end

variable {ms : List Mnt} {t t' there : Siblings Info}

/-! ## Changes to the tree -/

def tag (i : Nat) (a : Info) : Nat × Bool × Bool := (i, leaf a, a.mountId ≠ 0)

def tags (ms : List Mnt) (t : Siblings Info) : Multiset (Nat × Bool × Bool) :=
  total (inner ms) (fun _ i a => {tag i a}) {} t

variable {dir i n : Nat} {s : Place} {a b : Info} {kids : Siblings Info} {st : State}
  {f : Info → Info}

theorem mem_tags (hn : t.ids.Nodup) {l b : Bool} :
    (i, l, b) ∈ tags ms t ↔ ∃ s a kids, look ms t i = some (s, a, kids) ∧ leaf a = l ∧
      decide (a.mountId ≠ 0) = b := by
  rw [tags, mem_total_iff (inner ms) tag hn]
  constructor
  · rintro ⟨j, s, a, kids, hf, ht⟩
    simp only [tag, Prod.mk.injEq] at ht
    obtain ⟨rfl, hl, hb⟩ := ht
    exact ⟨s, a, kids, hf, hl, hb⟩
  rintro ⟨s, a, kids, hf, rfl, rfl⟩
  exact ⟨i, s, a, kids, hf, rfl⟩

structure Shrinks (ms : List Mnt) (t t' : Siblings Info) : Prop where
  nodup : t'.ids.Nodup
  bare : t'.Bare leaf
  tags : ∀ x ∈ tags ms t', x ∈ tags ms t
  stored : ∀ m, (limitOf ms m).isSome → stored ms t' m ≤ stored ms t m

theorem Shrinks.refl (hn : t.ids.Nodup) (hb : t.Bare leaf) : Shrinks ms t t :=
  ⟨hn, hb, fun _ hx => hx, fun _ _ => Nat.le_refl _⟩

section

variable (h : Shrinks ms t t')

include h

theorem Shrinks.trans {t'' : Siblings Info} (h' : Shrinks ms t' t'') : Shrinks ms t t'' :=
  ⟨h'.nodup, h'.bare, fun x hx => h.tags x (h'.tags x hx),
    fun m hm => Nat.le_trans (h'.stored m hm) (h.stored m hm)⟩

theorem Shrinks.mounted (hn : t.ids.Nodup) {m : Nat} (hm : Mounted ms t' m) : Mounted ms t m := by
  obtain ⟨s, a, kids, hl, ha⟩ := hm
  have hx : (m, leaf a, true) ∈ Quota.tags ms t' :=
    (mem_tags h.nodup).2 ⟨s, a, kids, hl, rfl, by simpa using ha⟩
  obtain ⟨s', a', kids', hl', -, ha'⟩ := (mem_tags hn).1 (h.tags _ hx)
  exact ⟨s', a', kids', hl', by simpa using ha'⟩

theorem Shrinks.leaf_eq (hn : t.ids.Nodup) {s' : Place} {a' : Info} {kids' : Siblings Info}
    (hl : look ms t i = some (s, a, kids)) (hl' : look ms t' i = some (s', a', kids')) :
    leaf a' = leaf a := by
  have hx := (mem_tags h.nodup).2 ⟨s', a', kids', hl', rfl, rfl⟩
  obtain ⟨s'', a'', kids'', hl'', hleaf, -⟩ := (mem_tags hn).1 (h.tags _ hx)
  rw [hl] at hl''
  cases hl''
  exact hleaf.symm

end

theorem Accounted.shrink (h : Accounted ms st) (hs : Shrinks ms st.tree t') :
    Accounted ms { st with tree := t' } where
  nodup := hs.nodup
  bare := hs.bare
  counted m k lim hm hl := by
    have hc := h.counted m k lim (hs.mounted h.nodup hm) hl
    exact ⟨Nat.le_trans (hs.stored m (by simp [hl])) hc.1, hc.2⟩

theorem shrinks_detach (hn : t.ids.Nodup) (hb : t.Bare leaf) (i : Nat) :
    Shrinks ms t (detach i t) := by
  by_cases hi : i ∈ t.ids
  · obtain ⟨s, a, kids, hf⟩ := find_of_mem (inner ms) (s := {}) hi
    refine ⟨(nodup_detach (inner ms) hn hf).2, hb.detach i, fun x hx => ?_, fun m _ => ?_⟩
    · rw [tags, total_detach (inner ms) _ hn hf]
      exact Multiset.mem_add.2 (.inr hx)
    rw [stored, stored, total_detach (inner ms) _ hn hf]
    exact Nat.le_add_left _ _
  rw [detach_of_notMem hi]
  exact .refl hn hb

structure Quiet (f : Info → Info) : Prop where
  leaf : ∀ a, leaf (f a) = leaf a
  mountId : ∀ a, (f a).mountId = a.mountId
  weight : ∀ m s i a, weight m s i (f a) = weight m s i a

theorem Quiet.inner (hf : Quiet f) (s : Place) (i : Nat) (a : Info) :
    Quota.inner ms s i (f a) = Quota.inner ms s i a := by
  simp only [Quota.inner, hf.mountId]

theorem Quiet.tag (hf : Quiet f) (i : Nat) (a : Info) : Quota.tag i (f a) = Quota.tag i a := by
  simp only [Quota.tag, hf.leaf, hf.mountId]

theorem quiet_names (name : String) (hn : List Nat) :
    Quiet fun a => { a with name := name, hn := hn } :=
  ⟨fun _ => rfl, fun _ => rfl, fun _ _ _ _ => rfl⟩

theorem quiet_hn (g : List Nat → List Nat) : Quiet fun a => { a with hn := g a.hn } :=
  ⟨fun _ => rfl, fun _ => rfl, fun _ _ _ _ => rfl⟩

theorem shrinks_modify (hn : t.ids.Nodup) (hb : t.Bare leaf) (i : Nat) (hf : Quiet f) :
    Shrinks ms t (modify i f t) := by
  by_cases hi : i ∈ t.ids
  · obtain ⟨s, a, kids, hl⟩ := find_of_mem (inner ms) (s := {}) hi
    refine ⟨by rwa [ids_modify], hb.modify i hf.leaf, fun x hx => ?_, fun m _ => ?_⟩
    · have ht := total_modify (inner ms) (fun _ i a => ({tag i a} : Multiset _)) hn
        (hf.inner s i a) hl
      rw [hf.tag] at ht
      rwa [tags, add_right_cancel ht] at hx
    have ht := total_modify (inner ms) (weight m) hn (hf.inner s i a) hl
    rw [hf.weight] at ht
    exact Nat.le_of_eq (Nat.add_right_cancel ht)
  rw [modify_of_notMem hi]
  exact .refl hn hb

theorem shrinks_move (hn : t.ids.Nodup) (hb : t.Bare leaf) {src : Nat} (hf : Quiet f) {c : Place}
    (hs : look ms t src = some (s, a, kids)) (hd : look ms t dir = some (c, b, there))
    (hleaf : leaf b = false)
    (hc : carries ms s.owner (inner ms c dir b).owner (node src a kids nil) = false) :
    Shrinks ms t (moveNode ms t src dir f) := by
  rw [moveNode, hs]
  dsimp only
  by_cases hin : dir ∈ (detach src t).ids
  swap
  · rw [attach_of_notMem hin]
    exact shrinks_detach hn hb src
  have hout : dir ∉ src :: kids.ids := fun h => notMem_detach (inner ms) hn hs h hin
  have hd' := find_detach (inner ms) hn hs hout hd
  obtain ⟨hnk, hnd⟩ := nodup_detach (inner ms) hn hs
  obtain ⟨hka, hkb⟩ := hb.find (inner ms) hs
  have hsub : (node src a kids nil).Bare leaf := ⟨hka, hkb, trivial⟩
  refine ⟨nodup_attach (inner ms) hnd hnk (fun j hj => notMem_detach (inner ms) hn hs hj) hd',
    Bare.attach (inner ms) hnd (hb.detach src) ⟨fun h => hka (hf.leaf a ▸ h), hkb, trivial⟩ hd'
      hleaf, fun x hx => ?_, fun m hm => ?_⟩
  · rw [tags, total_attach (inner ms) _ hnd hd', hf.tag,
      total_const (inner ms) _ _ (inner ms s src a)] at hx
    rwa [tags, total_detach (inner ms) _ hn hs]
  -- what counts is how the moved subtree weighs in its new place
  rw [stored, stored, total_attach (inner ms) _ hnd hd', total_detach (inner ms) _ hn hs,
    hf.weight, hf.inner]
  refine Nat.add_le_add_right ?_ _
  have hw : ∀ p, weight m p src a + total (inner ms) (weight m) (inner ms p src a) kids =
      total (inner ms) (weight m) p (node src a kids nil) := fun p => by simp [total]
  rw [hw, hw]
  by_cases hsame : s.owner = (inner ms c dir b).owner
  · exact Nat.le_of_eq (total_congr hsame.symm)
  by_cases hown : (inner ms c dir b).owner = some m
  swap
  · exact total_le hown _
  have hm' : m ∉ (node src a kids nil).ids := by
    have hmem : m = dir ∨ m ∈ (detach src t).ids := by
      rw [inner_owner] at hown
      split_ifs at hown
      · exact .inl (Option.some.inj hown).symm
      rcases owner_of_find hnd hd' with h | ⟨p, hp, hpm, -⟩
      · rw [h] at hown
        cases hown
      rw [hp] at hown
      exact .inr (Option.some.inj hown ▸ hpm)
    rw [ids, ids, List.append_nil]
    rcases hmem with rfl | hmem
    · exact hout
    · exact fun h => notMem_detach (inner ms) hn hs h hmem
  have hne : s.owner ≠ some m := hown ▸ hsame
  have hz : (walk (node src a kids nil)).1 = 0 := by
    simpa [carries, hne, hown, hm] using hc
  rw [← walk_eq hsub hm' hown, hz]
  exact Nat.zero_le _

theorem walk_detach_le (i : Nat) (t : Siblings Info) : (walk (detach i t)).1 ≤ (walk t).1 := by
  induction t with
  | nil => exact Nat.le_refl _
  | node j a child next ihc ihn =>
    rw [detach]
    split_ifs with hj
    · rw [walk]
      split_ifs <;> simp
    rw [walk, walk]
    split_ifs <;> (try dsimp only) <;> omega

theorem carries_detach {o o' : Option Nat} (h : carries ms o o' (node n a kids nil) = false)
    (hni : n ≠ i) : carries ms o o' (node n a (detach i kids) nil) = false := by
  have hle := walk_detach_le i (node n a kids nil)
  rw [detach, if_neg hni, detach] at hle
  simp only [carries, Bool.and_eq_false_iff, decide_eq_false_iff_not, not_not] at h ⊢
  rcases h with h | h
  · exact .inl h
  · exact .inr (by omega)

theorem shrinks_promote (hn : t.ids.Nodup) (hb : t.Bare leaf) {x : Nat} {sx : Place}
    {kx : Siblings Info} (hl : look ms t n = some (s, a, kids))
    (hx : look ms t x = some (sx, b, kx)) (hup : sx.up = some dir)
    (hc : carries ms s.owner sx.owner (node n a kids nil) = false) (hf : Quiet f) :
    Shrinks ms t (moveNode ms (detach x t) n dir f) := by
  have hdx : Shrinks ms t (detach x t) := shrinks_detach hn hb x
  refine hdx.trans ?_
  -- the directory of `x`, and that it is none of what is taken out
  obtain ⟨c, d, there, hdir, hsx, hleaf⟩ : ∃ c d there, look ms t dir = some (c, d, there) ∧
      sx = inner ms c dir d ∧ leaf d = false := by
    rcases find_parent (inner ms) hn hx with rfl | ⟨p, c, d, there, hp, hsx, hne⟩
    · cases hup
    rw [hsx] at hup
    cases hup
    refine ⟨c, d, there, hp, hsx, ?_⟩
    by_contra hd
    exact hne ((hb.find (inner ms) hp).1 (by simpa using hd))
  by_cases hnx : n ∈ x :: kx.ids
  · have hgone := (find_eq_none (inner ms) (s := {})).2 (notMem_detach (inner ms) hn hx hnx)
    rw [moveNode, look, hgone]
    exact .refl hdx.nodup hdx.bare
  have hl' := find_detach (inner ms) hn hx hnx hl
  have hne : n ≠ x := fun h => hnx (by simp [h])
  by_cases hdx' : dir ∈ x :: kx.ids
  · have hgone := notMem_detach (inner ms) hn hx hdx'
    have hgone' : dir ∉ (detach n (detach x t)).ids := fun h =>
      hgone (mem_detach (inner ms) hdx.nodup hl' h)
    rw [moveNode, look, hl']
    dsimp only
    rw [attach_of_notMem hgone']
    exact shrinks_detach hdx.nodup hdx.bare n
  have hdir' := find_detach (inner ms) hn hx hdx' hdir
  exact shrinks_move hdx.nodup hdx.bare hf hl' hdir' hleaf (hsx ▸ carries_detach hc hne)

theorem shrinks_drop (hn : t.ids.Nodup) (hb : t.Bare leaf) (hc : dropCarries ms t n = false) :
    Shrinks ms t (fsDropName ms t n) := by
  rw [fsDropName]
  cases hl : look ms t n with
  | none => exact .refl hn hb
  | some r =>
    obtain ⟨s, a, kids⟩ := r
    dsimp only
    cases hhl : a.hl with
    | some g =>
      have hm : Shrinks ms t _ := shrinks_modify hn hb g (quiet_hn fun l => l.erase n)
      exact hm.trans (shrinks_detach hm.nodup hm.bare n)
    | none =>
      cases hhn : a.hn with
      | nil => exact shrinks_detach hn hb n
      | cons x rest =>
        dsimp only
        cases hx : look ms t x with
        | none => exact shrinks_detach hn hb n
        | some q =>
          obtain ⟨sx, b, kx⟩ := q
          dsimp only
          cases hup : sx.up with
          | none => exact shrinks_detach hn hb n
          | some dir =>
            have hcar : carries ms s.owner sx.owner (node n a kids nil) = false := by
              simpa [dropCarries, hl, hhl, hhn, hx] using hc
            exact shrinks_promote hn hb hl hx hup hcar (quiet_names b.name rest)

/-! ## Calls -/

theorem Accounted.attach (h : Accounted ms st) {new : Nat} {made : Info}
    (hd : look ms st.tree dir = some (s, b, there))
    (hleaf : leaf b = false) (hnew : new ∉ st.tree.ids) (hid : made.mountId = 0)
    (hw : ∀ m p, weight m p new made = 0) :
    Accounted ms { st with tree := attach dir new made nil st.tree } := by
  have hn : (Siblings.attach dir new made nil st.tree).ids.Nodup := by
    refine nodup_attach (inner ms) h.nodup (by simp [ids]) ?_ hd
    simpa [ids] using hnew
  refine ⟨hn, Bare.attach (inner ms) h.nodup h.bare ⟨fun _ => rfl, trivial, trivial⟩ hd hleaf,
    fun m k lim hm hl => ?_⟩
  have hm' : Mounted ms st.tree m := by
    obtain ⟨c, a, kids, hf, ha⟩ := hm
    have hx := (mem_tags hn).2 ⟨c, a, kids, hf, rfl, rfl⟩
    rw [tags, total_attach (inner ms) _ h.nodup hd, total, add_zero, Multiset.mem_add,
      Multiset.mem_singleton] at hx
    rcases hx with hx | hx
    · simp [tag, hid, ha] at hx
    obtain ⟨c', a', kids', hf', -, ha'⟩ := (mem_tags h.nodup).1 hx
    exact ⟨c', a', kids', hf', by simpa [ha] using ha'⟩
  have hs : stored ms (Siblings.attach dir new made nil st.tree) m = stored ms st.tree m := by
    rw [stored, total_attach (inner ms) _ h.nodup hd, hw, total, stored]
    omega
  rw [hs]
  exact h.counted m k lim hm' hl

theorem Accounted.setSize (h : Accounted ms st) (hl : look ms st.tree n = some (s, a, kids))
    (z : Nat → Nat) (hfit : ∀ m k lim, s.owner = some m → Mounted ms st.tree m →
      limitOf ms m = some (k, lim) → a.size < z a.size →
      stored ms st.tree m + (z a.size - a.size) ≤ (st.use k).usedB + (st.use k).added) :
    Accounted ms (setSize st n z) := by
  set f : Info → Info := fun a => { a with size := z a.size } with hf
  have hleaf : ∀ a, leaf (f a) = leaf a := fun _ => rfl
  have hn : (modify n f st.tree).ids.Nodup := by
    rw [ids_modify]
    exact h.nodup
  refine ⟨hn, h.bare.modify n hleaf, fun m k lim hm hk => ?_⟩
  have hm' : Mounted ms st.tree m := by
    obtain ⟨c, b, kb, hb, hid⟩ := hm
    have hx := (mem_tags hn).2 ⟨c, b, kb, hb, rfl, rfl⟩
    have ht := total_modify (inner ms) (fun _ i a => ({tag i a} : Multiset _)) h.nodup
      (f := f) rfl hl
    rw [tags, add_right_cancel ht] at hx
    obtain ⟨c', b', kb', hb', -, hid'⟩ := (mem_tags h.nodup).1 hx
    exact ⟨c', b', kb', hb', by simpa [hid] using hid'⟩
  have hsum : stored ms (modify n f st.tree) m + weight m s n a =
      stored ms st.tree m + weight m s n (f a) :=
    total_modify (inner ms) (weight m) h.nodup (f := f) rfl hl
  have hc := h.counted m k lim hm' hk
  refine ⟨?_, hc.2⟩
  change stored ms (modify n f st.tree) m ≤ (st.use k).usedB + (st.use k).added
  by_cases hcount : s.owner = some m ∧ a.hl = none ∧ a.kind = .file ∧ a.dev = false
  · have hw : weight m s n a = a.size := by rw [weight, if_pos hcount]
    have hw' : weight m s n (f a) = z a.size := by rw [weight, if_pos hcount]
    by_cases hlt : a.size < z a.size
    · have hroom := hfit m k lim hcount.1 hm' hk hlt
      omega
    omega
  have hw' : weight m s n (f a) = 0 := by rw [weight, if_neg hcount]
  omega

/-- A file in `dev/shm` grows without asking, which is right where no limit is. -/
theorem setSize_kept {new : Nat} (h : Accounted ms st) (hok : shmOk ms st.tree n new = true)
    (z : Nat → Nat) (hz : ∀ x, z x ≤ max x new) : Accounted ms (setSize st n z) := by
  cases hl : look ms st.tree n with
  | none =>
    have hsame : setSize st n z = st := by
      rw [setSize, modify_of_notMem fun hmem => ?_]
      obtain ⟨s, a, kids, hf⟩ := find_of_mem (inner ms) (s := {}) hmem
      exact absurd (hl.symm.trans hf) (by simp)
    rw [hsame]
    exact h
  | some r =>
    obtain ⟨s, a, kids⟩ := r
    refine h.setSize hl z fun m k lim howner _ hk hlt => ?_
    have hza := hz a.size
    have hle : ¬ new ≤ a.size := by omega
    simp [shmOk, hl, hle, howner, hk] at hok

theorem doUnlink_kept (h : Accounted ms st) (rmdir busy : Bool)
    (hc : dropCarries ms st.tree n = false) : Accounted ms (doUnlink ms st n rmdir busy).2 := by
  rw [doUnlink]
  cases look ms st.tree n with
  | none => exact h
  | some r =>
    dsimp only
    split_ifs
    all_goals first | exact h | exact h.shrink (shrinks_drop h.nodup h.bare hc)

section

variable (hroom : ∀ e ∈ ms, e.limit + 2 ^ 32 ≤ 2 ^ 64) {new : Nat}

include hroom

variable {st : State} {n : Nat}

section

variable (h : Accounted ms st)

include h

theorem granted_kept {st' : State} {s : Place} {a : Info}
    {kids : Siblings Info} (hl : look ms st.tree n = some (s, a, kids)) (hnew : new < 2 ^ 32)
    (hok : growOk ms st.tree n new = true) (hr : mntGrow ms st n new = (none, st'))
    (z : Nat → Nat) (hz : ∀ x, z x ≤ max x new) : Accounted ms (setSize st' n z) := by
  obtain ⟨hacc, htree, hgrow⟩ := mntGrow_spec hroom h hl hnew
  rw [hr] at hacc htree hgrow
  dsimp only at hacc htree hgrow
  refine hacc.setSize (htree ▸ hl) z fun m k lim howner hm hk hlt => ?_
  have hza := hz a.size
  have hle : ¬ new ≤ a.size := by omega
  -- the slot asked was that of the file's own volume
  have hfind : mntFind ms st.tree n = some k := by
    simpa [growOk, hl, hle, howner, hk] using hok
  have hg := (hgrow m k lim (htree ▸ hm) hk hfind).1 rfl
  rw [htree]
  omega

theorem resize_kept (mem : Bool)
    (hnew : new < 2 ^ 32) (hok : growOk ms st.tree n new = true) (z : Nat → Nat)
    (hz : ∀ x, z x ≤ max x new) : Accounted ms (resize ms st n new mem z).2 := by
  rw [resize]
  cases hl : look ms st.tree n with
  | none => exact h
  | some r =>
    obtain ⟨s, a, kids⟩ := r
    have hg := (mntGrow_spec hroom h hl hnew).1
    dsimp only
    by_cases hfile : a.kind ≠ .file
    · rw [if_pos hfile]
      exact h
    rw [if_neg hfile]
    rcases hr : mntGrow ms st n new with ⟨_ | err, st'⟩
    · rw [hr] at hg
      cases mem with
      | true => exact granted_kept hroom h hl hnew hok hr z hz
      | false => exact hg
    rw [hr] at hg
    exact hg

theorem create_kept (dir : Nat) (name : String) (kind : Kind) (dev : Bool)
    (target : String) (new : Nat) : Accounted ms (create ms st dir name kind dev target new).2 := by
  rw [create]
  cases hd : look ms st.tree dir with
  | none => exact h
  | some r =>
    obtain ⟨hacc, htree⟩ := mntNewnode_spec hroom h dir
    dsimp only
    generalize hsize : (if kind = .link then target.utf8ByteSize else 0) = size
    split_ifs with hleaf
    · exact h
    · exact h
    · exact h
    rcases hr : mntNewnode ms st dir with ⟨_ | err, st'⟩
    · rw [hr] at hacc htree
      dsimp only at hacc htree ⊢
      split_ifs with hnew
      · exact hacc
      refine hacc.attach (htree ▸ hd) (by simpa using hleaf) hnew rfl fun m p => ?_
      have hfile : kind = .file → size = 0 := by
        rintro rfl
        exact hsize.symm
      simpa [weight] using fun _ hk _ => hfile hk
    rw [hr] at hacc
    exact hacc

omit hroom in
theorem doLink_kept (src dir : Nat) (name : String)
    (new : Nat) : Accounted ms (doLink ms st src dir name new).2 := by
  rw [doLink]
  dsimp only
  generalize real ms st.tree src = src
  cases hl : look ms st.tree src with
  | none => exact h
  | some r =>
    cases hd : look ms st.tree dir with
    | none => exact h
    | some q =>
      obtain ⟨s, a, kids⟩ := r
      obtain ⟨c, b, there⟩ := q
      dsimp only
      split_ifs with _ _ hleaf _ _ _ _ _ hnew
      all_goals try exact h
      -- the file gets one more name, then the name gets its node
      have hs : Shrinks ms st.tree _ :=
        shrinks_modify h.nodup h.bare src (quiet_hn fun l => new :: l)
      have hnew' : new ∉ (modify src (fun a => { a with hn := new :: a.hn }) st.tree).ids := by
        rwa [ids_modify]
      have hmem : dir ∈ (modify src (fun a => { a with hn := new :: a.hn }) st.tree).ids := by
        rw [ids_modify]
        exact mem_ids_of_find (inner ms) hd
      obtain ⟨c', b', there', hd'⟩ := find_of_mem (inner ms) (s := {}) hmem
      have hleaf' : leaf b' = false := by
        rw [hs.leaf_eq h.nodup hd hd']
        simpa using hleaf
      exact (h.shrink hs).attach hd' hleaf' hnew' rfl fun m p => by simp [weight]

omit hroom in
omit h in
theorem renamed_shrinks (hn : t.ids.Nodup) (hb : t.Bare leaf) {src dir : Nat} (name : String)
    (hleaf : ∀ c b there, look ms t dir = some (c, b, there) → leaf b = false)
    (hc : moveCarries ms t src dir = false) : Shrinks ms t (renamed ms t src dir name) := by
  cases hl : look ms t src with
  | none =>
    rw [renamed, moveNode, hl]
    exact .refl hn hb
  | some r =>
    obtain ⟨s, a, kids⟩ := r
    have hq : Quiet fun a : Info => { a with name := name } :=
      ⟨fun _ => rfl, fun _ => rfl, fun _ _ _ _ => rfl⟩
    cases hd : look ms t dir with
    | none =>
      have hout : dir ∉ (detach src t).ids := fun h =>
        (find_eq_none (inner ms)).1 hd (mem_detach (inner ms) hn hl h)
      rw [renamed, moveNode, hl]
      dsimp only
      rw [attach_of_notMem hout]
      exact shrinks_detach hn hb src
    | some q =>
      obtain ⟨c, b, there⟩ := q
      refine shrinks_move hn hb hq hl hd (hleaf c b there hd) ?_
      simpa [moveCarries, hl, fsOwner, hd] using hc

omit hroom in
omit h in
theorem doUnlink_ok {st' : State} {rmdir busy : Bool}
    (hr : doUnlink ms st n rmdir busy = (none, st')) :
    st' = { st with tree := fsDropName ms st.tree n } := by
  rw [doUnlink] at hr
  cases hl : look ms st.tree n with
  | none =>
    rw [hl] at hr
    cases hr
  | some r =>
    rw [hl] at hr
    dsimp only at hr
    split_ifs at hr
    all_goals cases hr
    rfl

omit hroom in
theorem moveOver_kept {src dir : Nat} {name : String}
    (busy : Bool) {s c : Place} {a b : Info} {kids there : Siblings Info}
    (hl : look ms st.tree src = some (s, a, kids)) (hd : look ms st.tree dir = some (c, b, there))
    (hleaf : leaf b = false) (hok : renameOk ms st.tree src dir name = true) :
    Accounted ms (moveOver ms st src dir name busy a there).2 := by
  rw [moveOver]
  rw [renameOk, hl, hd] at hok
  dsimp only at hok
  cases hx : findChild name there with
  | none =>
    rw [hx] at hok
    refine h.shrink (renamed_shrinks h.nodup h.bare name (fun c' b' there' hd' => ?_) ?_)
    · rw [hd] at hd'
      cases hd'
      exact hleaf
    · simpa using hok
  | some q =>
    obtain ⟨x, y, below⟩ := q
    rw [hx] at hok
    dsimp only at hok ⊢
    by_cases hsame : x = src ∨ y.hl.getD x = a.hl.getD src
    · rw [if_pos hsame]
      exact h
    rw [if_neg hsame]
    have hboth : dropCarries ms st.tree x = false ∧
        moveCarries ms (fsDropName ms st.tree x) src dir = false := by
      simpa [hsame] using hok
    by_cases h1 : y.kind = .dir ∧ a.kind ≠ .dir
    · rw [if_pos h1]
      exact h
    by_cases h2 : y.kind ≠ .dir ∧ a.kind = .dir
    · rw [if_neg h1, if_pos h2]
      exact h
    by_cases h3 : y.kind = .dir ∧ below.ids ≠ []
    · rw [if_neg h1, if_neg h2, if_pos h3]
      exact h
    rw [if_neg h1, if_neg h2, if_neg h3]
    have hu := doUnlink_kept h (y.kind == .dir) busy hboth.1
    rcases hr : doUnlink ms st x (y.kind == .dir) busy with ⟨_ | err, st'⟩
    · rw [hr] at hu
      have hst := doUnlink_ok hr
      have hdrop := shrinks_drop h.nodup h.bare hboth.1
      subst hst
      refine hu.shrink (renamed_shrinks hu.nodup hu.bare name (fun c' b' there' hd' => ?_) ?_)
      · rw [hdrop.leaf_eq h.nodup hd hd']
        exact hleaf
      · exact hboth.2
    rw [hr] at hu
    exact hu

theorem doRename_kept (src dir : Nat) (name : String)
    (busy : Bool) (hok : renameOk ms st.tree src dir name = true) :
    Accounted ms (doRename ms st src dir name busy).2 := by
  rw [doRename]
  cases hl : look ms st.tree src with
  | none => exact h
  | some r =>
    cases hd : look ms st.tree dir with
    | none => exact h
    | some q =>
      obtain ⟨s, a, kids⟩ := r
      obtain ⟨c, b, there⟩ := q
      dsimp only
      generalize decide (upOwner ms s src a ≠ fsOwner ms st.tree dir) = across
      by_cases hleaf : leaf b
      · rw [if_pos hleaf]
        exact h
      rw [if_neg hleaf]
      by_cases hro : (mntRo ms st.tree dir || slotRo ms s.entry) = true
      · rw [if_pos hro]
        exact h
      rw [if_neg hro]
      -- only the counters of one slot may differ after the question for a node
      have hq : Accounted ms (if across then mntNewnode ms st dir else (none, st)).2 ∧
          (if across then mntNewnode ms st dir else (none, st)).2.tree = st.tree := by
        cases across with
        | true => exact mntNewnode_spec hroom h dir
        | false => exact ⟨h, rfl⟩
      rcases hr : (if across then mntNewnode ms st dir else (none, st)) with ⟨_ | err, st'⟩
      · rw [hr] at hq
        obtain ⟨hacc, htree⟩ := hq
        split_ifs
        · exact hacc
        · exact hacc
        refine moveOver_kept hacc busy (htree ▸ hl) (htree ▸ hd) (by simpa using hleaf) ?_
        rwa [htree]
      rw [hr] at hq
      exact hq.1

theorem exec_kept (op : Op) (hok : opOk ms st op = true) : Accounted ms (exec ms st op).2 := by
  cases op with
  | write n off len mem =>
    simp only [opOk] at hok
    simp only [exec, fileWrite]
    split_ifs at hok ⊢ with hshm
    · unfold shmWrite
      split_ifs
      all_goals first | exact h | exact setSize_kept h hok _ fun x => Nat.le_refl _
    · exact resize_kept hroom h mem (Nat.mod_lt _ (by decide)) hok _ fun x => Nat.le_refl _
  | ftruncate n len mem bare =>
    simp only [opOk] at hok
    simp only [exec, ftruncate]
    split_ifs at hok ⊢ with hshm
    · exact setSize_kept h hok _ fun x => Nat.le_max_right _ _
    · exact resize_kept hroom h mem (Nat.mod_lt _ (by decide)) hok _ fun x => Nat.le_max_right _ _
  | truncate n len mem =>
    exact resize_kept hroom h mem (Nat.mod_lt _ (by decide)) hok _ fun x => Nat.le_max_right _ _
  | create dir name kind dev target new => exact create_kept hroom h dir name kind dev target new
  | link src dir name new => exact doLink_kept h src dir name new
  | unlink n rmdir busy => exact doUnlink_kept h rmdir busy (by simpa [opOk] using hok)
  | rename src dir name busy => exact doRename_kept hroom h src dir name busy hok

theorem run_kept (ops : List Op) (hok : runOk ms st ops = true) : Accounted ms (run ms st ops) := by
  induction ops generalizing st with
  | nil => exact h
  | cons op ops ih =>
    rw [runOk, Bool.and_eq_true] at hok
    exact ih (exec_kept hroom h op hok.1) hok.2

end

end

def tiny : List Mnt := [{ kind := .tmp, node := 1, limit := 4 }]

def tinyState : State where
  tree := node 0 { name := "/", kind := .dir }
    (node 1 { name := "mnt", kind := .dir, mountId := 16 }
      (node 3 { name := "f", kind := .file } nil nil)
      (node 2 { name := "big", kind := .file, size := 10 } nil nil)) nil
  use := fun _ => {}

theorem tiny_accounted : Accounted tiny tinyState where
  nodup := by decide
  bare := by simp [tinyState, Bare, leaf]
  counted m k lim _ hl := by
    obtain ⟨e, -, he, hm, -⟩ := limitOf_spec hl
    have hk : e = { kind := .tmp, node := 1, limit := 4 } := by
      simpa [tiny] using List.mem_of_getElem? he
    subst hk
    subst hm
    exact ⟨Nat.le_refl 0, Nat.zero_le _⟩

end SamaraOS.Quota
