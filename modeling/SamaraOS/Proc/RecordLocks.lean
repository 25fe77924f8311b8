import SamaraOS.Proc.Flock

/-!
# What the list of locks means

Over the list stands a map: `held ls k b` is the type with which the owner of `k`
holds byte `b`.  Every call changes that map on the range of its request only, and
`Exclusive`, which keeps rival locks apart, survives every call.
-/

namespace SamaraOS.Flock

open List SamaraOS.Span

def Lock.holds (l : Lock) (k : Key) (b : U64) : Bool := l.toKey = k ∧ b ∈ l.span

abbrev Bytes := Key → U64 → Option LockType

def held (ls : List Lock) : Bytes :=
  fun k b => (ls.find? fun l => l.holds k b).map fun l => l.type

def Bytes.set (h : Bytes) (k : Key) (r : Span 64) (v : Option LockType) : Bytes :=
  fun k' b => if k' = k ∧ b ∈ r then v else h k' b

def Bytes.drop (h : Bytes) (own : Owner) : Bytes :=
  fun k b => if k.own = own then none else h k b

variable {l m l' : Lock} {b : U64} {ls' : List Lock} {t : Thread}

theorem Lock.holds_iff {k : Key} : l.holds k b = true ↔ l.toKey = k ∧ b ∈ l.span := by
  simp [Lock.holds]

theorem held_nil (k : Key) (b : U64) : held [] k b = none := rfl

theorem held_cons (l : Lock) (ls : List Lock) (k : Key) (b : U64) :
    held (l :: ls) k b = if l.toKey = k ∧ b ∈ l.span then some l.type else held ls k b := by
  by_cases h : l.toKey = k ∧ b ∈ l.span
  · simp [held, Lock.holds, h]
  · simp only [held, find?_cons, Lock.holds, h, decide_false, if_false]

theorem held_eq_none {ls : List Lock} {k : Key} (h : ∀ l ∈ ls, l.toKey = k → b ∉ l.span) :
    held ls k b = none := by
  simp only [held, Option.map_eq_none_iff, find?_eq_none, Lock.holds_iff]
  rintro l hl ⟨hk, hb⟩
  exact h l hl hk hb

theorem held_isSome {ls : List Lock} (hl : l ∈ ls) (hb : b ∈ l.span) :
    (held ls l.toKey b).isSome := by
  rw [held, Option.isSome_map, find?_isSome]
  exact ⟨l, hl, Lock.holds_iff.2 ⟨rfl, hb⟩⟩

/-- Locks that may not share a byte: two of one owner and kind, or two of different
owners in the same family of which one is a write lock. -/
def Rival (l m : Lock) : Prop :=
  l.node = m.node ∧
    (l.kind = m.kind ∧ l.own = m.own ∨
      l.own ≠ m.own ∧ (l.kind = .flock ↔ m.kind = .flock) ∧
        (l.type = .write ∨ m.type = .write))

def Exclusive (ls : List Lock) : Prop :=
  ls.Pairwise fun l m => Rival l m → ¬ l.span.Meets m.span

def Piece (l' l : Lock) : Prop :=
  l'.toKey = l.toKey ∧ l'.type = l.type ∧ l'.span.Within l.span

theorem Piece.refl (l : Lock) : Piece l l := ⟨rfl, rfl, fun _ h => h⟩

theorem Rival.piece {m' : Lock} (hl : Piece l' l) (hm : Piece m' m)
    (h : Rival l' m') : Rival l m := by
  obtain ⟨hk, ht, -⟩ := hl
  obtain ⟨hk', ht', -⟩ := hm
  simp only [Rival, ← ht, ← ht', ← hk, ← hk'] at h ⊢
  exact h

theorem apart_piece {m' : Lock} (hl : Piece l' l) (hm : Piece m' m)
    (h : Rival l m → ¬ l.span.Meets m.span) : Rival l' m' → ¬ l'.span.Meets m'.span := by
  intro hr hmeet
  exact h (hr.piece hl hm) (hl.2.2.meets hm.2.2 hmeet)

theorem rival_of_key (h : l.toKey = m.toKey) : Rival l m := by
  refine ⟨?_, Or.inl ⟨?_, ?_⟩⟩ <;> rw [h]

/-! ## `cut` -/

section Cut

variable {mem : Bool} {k : Key} {r : Span 64} {l : Lock} {ls : List Lock}

private theorem piece_before (hs : l.span.s < r.s) (h : r.s ≤ l.span.e) :
    Piece { l with span := l.span.before r.s hs } l :=
  ⟨rfl, rfl, fun _ hx => ((mem_before hs h).1 hx).1⟩

private theorem piece_after (he : r.e < l.span.e) (h : l.span.s ≤ r.e) :
    Piece { l with span := l.span.after r.e he } l :=
  ⟨rfl, rfl, fun _ hx => ((mem_after he h).1 hx).1⟩

private theorem touched (h : ¬ (l.toKey ≠ k ∨ r.e < l.span.s ∨ l.span.e < r.s)) :
    l.toKey = k ∧ l.span.s ≤ r.e ∧ r.s ≤ l.span.e := by
  simpa only [not_or, ne_eq, not_not, BitVec.not_lt] using h

theorem cut_piece (h : l' ∈ (cut mem k r ls).1) : ∃ l ∈ ls, Piece l' l := by
  fun_induction cut mem k r ls with
  | case1 => simp at h
  | case2 l ls hk ih =>
    rcases mem_cons.1 h with rfl | h
    · exact ⟨l', mem_cons_self, .refl l'⟩
    obtain ⟨m, hm, hp⟩ := ih h
    exact ⟨m, mem_cons_of_mem _ hm, hp⟩
  | case3 l ls hk hs he =>
    obtain ⟨-, h1, h2⟩ := touched hk
    simp only [mem_cons] at h
    rcases h with rfl | rfl | h
    · exact ⟨l, mem_cons_self, piece_before hs h2⟩
    · exact ⟨l, mem_cons_self, piece_after he h1⟩
    · exact ⟨l', mem_cons_of_mem _ h, .refl l'⟩
  | case4 l ls => exact ⟨l', h, .refl l'⟩
  | case5 l ls hk hs he ih =>
    rcases mem_cons.1 h with rfl | h
    · exact ⟨l, mem_cons_self, piece_before hs (touched hk).2.2⟩
    obtain ⟨m, hm, hp⟩ := ih h
    exact ⟨m, mem_cons_of_mem _ hm, hp⟩
  | case6 l ls hk hs he ih =>
    rcases mem_cons.1 h with rfl | h
    · exact ⟨l, mem_cons_self, piece_after he (touched hk).2.1⟩
    obtain ⟨m, hm, hp⟩ := ih h
    exact ⟨m, mem_cons_of_mem _ hm, hp⟩
  | case7 l ls hk hs he ih =>
    obtain ⟨m, hm, hp⟩ := ih h
    exact ⟨m, mem_cons_of_mem _ hm, hp⟩

private theorem Exclusive.cons_cut (h : Exclusive (l :: ls)) (hl : Piece l' l)
    (ih : Exclusive (cut mem k r ls).1) : Exclusive (l' :: (cut mem k r ls).1) := by
  apply pairwise_cons.2 ⟨?_, ih⟩
  intro m' hm'
  obtain ⟨m, hm, hp⟩ := cut_piece hm'
  exact apart_piece hl hp ((pairwise_cons.1 h).1 m hm)

theorem Exclusive.cut (h : Exclusive ls) : Exclusive (cut mem k r ls).1 := by
  fun_induction Flock.cut mem k r ls with
  | case1 | case4 => exact h
  | case2 l ls hk ih => exact h.cons_cut (.refl l) (ih h.of_cons)
  | case3 l ls hk hs he =>
    obtain ⟨-, h1, h2⟩ := touched hk
    have hl := (pairwise_cons.1 h).1
    refine pairwise_cons.2 ⟨?_, pairwise_cons.2 ⟨?_, h.of_cons⟩⟩
    · intro m hm
      rcases mem_cons.1 hm with rfl | hm
      · -- the two halves lie on different sides of the range
        rintro - hmeet
        obtain ⟨x, hx, hx'⟩ := meets_iff.1 hmeet
        have hlt := ((mem_before hs h2).1 hx).2
        have hgt := ((mem_after he h1).1 hx').2
        have hle := r.le
        simp only [BitVec.lt_def, BitVec.le_def] at hlt hgt hle
        omega
      · exact apart_piece (piece_before hs h2) (.refl m) (hl m hm)
    intro m hm
    exact apart_piece (piece_after he h1) (.refl m) (hl m hm)
  | case5 l ls hk hs he ih =>
    exact h.cons_cut (piece_before hs (touched hk).2.2) (ih h.of_cons)
  | case6 l ls hk hs he ih =>
    exact h.cons_cut (piece_after he (touched hk).2.1) (ih h.of_cons)
  | case7 l ls hk hs he ih => exact ih h.of_cons

theorem cut_fails (h : (cut mem k r ls).2 = false) :
    ∃ l ∈ ls, l.toKey = k ∧ r.Within l.span ∧ l.span.s < r.s ∧ r.e < l.span.e ∧ mem = false := by
  fun_induction cut mem k r ls with
  | case1 | case3 => simp at h
  | case4 l ls hk hs he hmem =>
    refine ⟨l, mem_cons_self, (touched hk).1, ?_, hs, he, Bool.eq_false_iff.2 hmem⟩
    intro x hx
    simp only [mem_def, BitVec.le_def, BitVec.lt_def] at hx hs he ⊢
    omega
  | case2 l ls hk ih | case5 l ls hk hs he ih | case6 l ls hk hs he ih
  | case7 l ls hk hs he ih =>
    obtain ⟨m, hm, hp⟩ := ih h
    exact ⟨m, mem_cons_of_mem _ hm, hp⟩

private theorem cut_tail_ok (h : Exclusive (l :: ls))
    (hk : ¬ (l.toKey ≠ k ∨ r.e < l.span.s ∨ l.span.e < r.s)) : (cut mem k r ls).2 = true := by
  by_contra hf
  obtain ⟨m, hm, hmk, hw, -, -⟩ := cut_fails (Bool.eq_false_iff.2 hf)
  obtain ⟨hlk, h1, h2⟩ := touched hk
  have hmeet : l.span.Meets r := ⟨h1, h2⟩
  exact (pairwise_cons.1 h).1 m hm (rival_of_key (hlk.trans hmk.symm))
    (Span.Within.meets (fun _ h => h) hw hmeet)

theorem cut_of_fails (hx : Exclusive ls) (h : (cut mem k r ls).2 = false) :
    (cut mem k r ls).1 = ls := by
  fun_induction cut mem k r ls with
  | case1 | case4 => rfl
  | case2 l ls hk ih => rw [ih hx.of_cons h]
  | case3 => simp at h
  | case5 l ls hk hs he ih | case6 l ls hk hs he ih | case7 l ls hk hs he ih =>
    rw [cut_tail_ok hx hk] at h
    cases h

theorem cut_full_ok : (cut mem k .full ls).2 = true := by
  by_contra hf
  obtain ⟨l, -, -, -, hlt, -⟩ := cut_fails (Bool.eq_false_iff.2 hf)
  simp [Span.full] at hlt

private theorem held_cons_cut {p : Span 64} {k' : Key} {b : U64}
    (hspan : l.toKey = k' → (b ∈ p ↔ b ∈ l.span ∧ ¬ (k' = k ∧ b ∈ r)))
    (ih : held ls' k' b = (held ls).set k r none k' b) :
    held ({ l with span := p } :: ls') k' b = (held (l :: ls)).set k r none k' b := by
  rw [held_cons, ih]
  simp only [Bytes.set, held_cons]
  by_cases hk : l.toKey = k'
  · by_cases hr : k' = k ∧ b ∈ r
    · simp [hspan hk, hr]
    · simp [hspan hk, hr]
  · simp [hk]

private theorem mem_before_cut {b : U64} (hs : l.span.s < r.s) (h : r.s ≤ l.span.e)
    (he : l.span.e ≤ r.e) : b ∈ l.span.before r.s hs ↔ b ∈ l.span ∧ b ∉ r := by
  rw [mem_before hs h]
  simp only [mem_def, BitVec.le_def, BitVec.lt_def] at *
  omega

private theorem mem_after_cut {b : U64} (he : r.e < l.span.e) (h : l.span.s ≤ r.e)
    (hs : r.s ≤ l.span.s) : b ∈ l.span.after r.e he ↔ b ∈ l.span ∧ b ∉ r := by
  rw [mem_after he h]
  simp only [mem_def, BitVec.le_def, BitVec.lt_def] at *
  omega

private theorem mem_split_cut {b : U64} (hs : l.span.s < r.s) (he : r.e < l.span.e) :
    (b ∈ l.span.before r.s hs ∨ b ∈ l.span.after r.e he) ↔ b ∈ l.span ∧ b ∉ r := by
  have hle := r.le
  rw [mem_before hs (by bv_omega), mem_after he (by bv_omega)]
  simp only [mem_def, BitVec.le_def, BitVec.lt_def] at *
  omega

theorem held_cut (hx : Exclusive ls) (h : (cut mem k r ls).2 = true) :
    held (cut mem k r ls).1 = (held ls).set k r none := by
  funext k' b
  fun_induction cut mem k r ls with
  | case1 => simp [held_nil, Bytes.set]
  | case2 l ls hk ih =>
    apply held_cons_cut ?_ (ih hx.of_cons h)
    rintro rfl
    simp only [mem_def, BitVec.le_def, BitVec.lt_def] at hk ⊢
    by_cases hkey : l.toKey = k
    · simp only [hkey, ne_eq, not_true_eq_false, false_or, true_and] at hk ⊢
      omega
    · simp [hkey]
  | case3 l ls hk hs he hmem =>
    obtain ⟨rfl, h1, h2⟩ := touched hk
    -- the other locks of this owner lie outside of `l`, hence outside of the range
    have hrest : l.toKey = k' → b ∈ r → held ls k' b = none := by
      rintro rfl hb
      apply held_eq_none
      intro m hm hmk hbm
      apply (pairwise_cons.1 hx).1 m hm (rival_of_key hmk.symm)
      refine meets_iff.2 ⟨b, ?_, hbm⟩
      simp only [mem_def, BitVec.le_def, BitVec.lt_def] at hb hs he ⊢
      omega
    have hmem := mem_split_cut (b := b) hs he
    simp only [held_cons, Bytes.set]
    by_cases hkey : l.toKey = k'
    swap
    · simp [hkey, Ne.symm hkey]
    by_cases hb : b ∈ r
    · have hno : ¬ (b ∈ l.span.before r.s hs) ∧ ¬ (b ∈ l.span.after r.e he) := by
        rw [← not_or, hmem]
        exact fun hc => hc.2 hb
      simp [hkey, hb, hno, hrest hkey hb]
    by_cases hbl : b ∈ l.span.before r.s hs
    · simp [hkey, hb, hbl, (hmem.1 (.inl hbl)).1]
    by_cases hba : b ∈ l.span.after r.e he
    · simp [hkey, hb, hba, (hmem.1 (.inr hba)).1]
    have hl : b ∉ l.span := fun hl => by
      have := hmem.2 ⟨hl, hb⟩
      simp [hbl, hba] at this
    simp [hkey, hb, hbl, hba, hl]
  | case4 => simp at h
  | case5 l ls hk hs he ih =>
    obtain ⟨rfl, h1, h2⟩ := touched hk
    apply held_cons_cut ?_ (ih hx.of_cons h)
    rintro rfl
    simpa using mem_before_cut hs h2 (BitVec.not_lt.1 he)
  | case6 l ls hk hs he ih =>
    obtain ⟨rfl, h1, h2⟩ := touched hk
    apply held_cons_cut ?_ (ih hx.of_cons h)
    rintro rfl
    simpa using mem_after_cut he h1 (BitVec.not_lt.1 hs)
  | case7 l ls hk hs he ih =>
    obtain ⟨rfl, h1, h2⟩ := touched hk
    rw [ih hx.of_cons h]
    simp only [Bytes.set, held_cons]
    by_cases hb : l.toKey = k' ∧ b ∈ l.span
    · have hr : b ∈ r := by
        simp only [mem_def, BitVec.le_def, BitVec.lt_def] at hb hs he ⊢
        omega
      simp [hb, hr]
    · simp [hb]

end Cut

variable {ls : List Lock} {l : Lock} {r : Request} {env : Env} {st : State}

theorem Exclusive.sublist (h : Exclusive ls) (hs : ls'.Sublist ls) :
    Exclusive ls' := List.Pairwise.sublist hs h

theorem held_release (f : Nat) (ls : List Lock) :
    held (ls.filter fun l => l.own ≠ .file f) = (held ls).drop (.file f) := by
  funext k b
  induction ls with
  | nil => simp [held_nil, Bytes.drop]
  | cons l ls ih =>
    by_cases hl : l.own = .file f
    · rw [filter_cons_of_neg (by simpa using hl), ih]
      simp only [Bytes.drop, held_cons]
      by_cases hk : l.toKey = k
      · subst hk
        simp [hl]
      · simp [hk]
    rw [filter_cons_of_pos (by simpa using hl), held_cons, ih]
    simp only [Bytes.drop, held_cons]
    by_cases hk : l.toKey = k
    · subst hk
      simp [hl]
    · simp [hk]

theorem held_add (r : Request) (pid : U32) (ls : List Lock) :
    held (add r pid ls) = (held ls).set r.toKey r.span (some r.type) := by
  funext k b
  simp [add, held_cons, Bytes.set, eq_comm (a := k)]

theorem Bytes.set_set (h : Bytes) (k : Key) (r : Span 64) (v v' : Option LockType) :
    (h.set k r v).set k r v' = h.set k r v' := by
  funext k' b
  simp only [Bytes.set]
  split_ifs <;> rfl

theorem clash_of_rival (hown : r.own ≠ l.own)
    (hfam : r.kind = .flock ↔ l.kind = .flock) (htype : r.type = .write ∨ l.type = .write)
    (hmeet : l.span.Meets r.span) : clash l r = true := by
  have hread : ¬ (l.type = .read ∧ r.type = .read) := by
    rintro ⟨h1, h2⟩
    simp [h1, h2] at htype
  simp [clash, Ne.symm hown, hread, hmeet, hfam]

theorem Exclusive.finish {pid : U32} {mem : Bool} (h : Exclusive ls)
    (hok : (Flock.cut mem r.toKey r.span ls).2 = true) (hfree : findClash ls r = none) :
    Exclusive (add r pid (Flock.cut mem r.toKey r.span ls).1) := by
  apply pairwise_cons.2 ⟨?_, h.cut⟩
  rintro m' hm' ⟨hnode, hrival⟩ hmeet
  obtain ⟨x, hx, hx'⟩ := meets_iff.1 hmeet
  rcases hrival with ⟨hkind, hown⟩ | ⟨hown, hfam, htype⟩
  · -- a lock of the same owner would hold a byte of the range that was cut
    have hkey : m'.toKey = r.toKey := Key.ext hnode.symm hkind.symm hown.symm
    have hsome := held_isSome hm' hx'
    rw [held_cut h hok, hkey] at hsome
    simp [Bytes.set, hx] at hsome
  obtain ⟨m, hm, hk, ht, hw⟩ := cut_piece hm'
  have hno := find?_eq_none.1 hfree m hm
  have hmeets : m.span.Meets r.span := meets_iff.2 ⟨x, hw x hx', hx⟩
  rw [hk] at hnode hown hfam
  rw [ht] at htype
  simp [clash_of_rival hown hfam htype hmeets, ← hnode] at hno

/-! ## Calls -/

def order (st : State) : Event → Order
  | .flock _ f op => (flockOrder f op).toOption.getD .nothing
  | .fcntl t f cmd u => (fcntlOrder t.sh f cmd u).toOption.getD .nothing
  | .poll t => ((st.asleep t).map fun r => .lock r true).getD .nothing
  | .close sh f => if f.isNode then .unlock ⟨f.node, .posix, .table sh⟩ .full else .nothing
  | .release _ => .nothing
  | .exit _ => .nothing

/-- What an answered order has done to the map.  A lock that fails for want of memory
may already have given up the range it asked for. -/
def Effect (h h' : Bytes) : Order → Res → Prop
  | .lock r _, .ok => h' = h.set r.toKey r.span (some r.type)
  | .lock r _, .error .enomem => h' = h ∨ h' = h.set r.toKey r.span none
  | .unlock k span, .ok => h' = h.set k span none
  | _, _ => h' = h

theorem cut_request_ok {mem : Bool} (h : r.kind = .flock) :
    (cut mem r.toKey r.span ls).2 = true := by
  rw [r.whole h]
  exact cut_full_ok

theorem finish_spec (wait : Bool) (hx : Exclusive st.locks) (hfree : findClash st.locks r = none) :
    Exclusive (finish env st r).1.locks ∧
      Effect (held st.locks) (held (finish env st r).1.locks) (.lock r wait)
        (finish env st r).2 := by
  unfold finish
  cases hok : (cut env.cutMem r.toKey r.span st.locks).2 with
  | false =>
    have hkind : r.kind ≠ .flock := fun h => by simp [cut_request_ok h] at hok
    simp [hok, hkind, cut_of_fails hx hok, hx, Effect]
  | true =>
    cases env.addMem with
    | false => simp [hok, hx.cut, Effect, held_cut hx hok]
    | true => simp [hok, hx.finish hok hfree, Effect, held_add, held_cut hx hok, Bytes.set_set]

theorem poll_spec {wait : Bool} (hx : Exclusive st.locks) :
    Exclusive (poll env st t r wait).1.locks ∧
      Effect (held st.locks) (held (poll env st t r wait).1.locks) (.lock r wait)
        (poll env st t r wait).2 := by
  unfold poll
  split
  · next hfree =>
    have hx' : Exclusive (st.wake t (waitClr r.own st.wt)).locks := hx
    exact finish_spec wait hx' hfree
  · split_ifs <;> exact ⟨hx, rfl⟩

theorem perform_spec (o : Order) (hx : Exclusive st.locks) :
    Exclusive (perform env st t o).1.locks ∧
      Effect (held st.locks) (held (perform env st t o).1.locks) o (perform env st t o).2 := by
  cases o with
  | nothing | query r u => exact ⟨hx, rfl⟩
  | lock r wait => exact poll_spec hx
  | unlock k span =>
    unfold perform
    cases hok : (cut env.cutMem k span st.locks).2 with
    | false => simp [hok, cut_of_fails hx hok, hx, Effect]
    | true => simp [hok, hx.cut, Effect, held_cut hx hok]

theorem step_exclusive (ev : Event) (hx : Exclusive st.locks) :
    Exclusive (step env st ev).1.locks := by
  cases ev with
  | flock t f op =>
    simp only [step, flkFlock]
    split
    · exact hx
    · exact (perform_spec _ hx).1
  | fcntl t f cmd u =>
    simp only [step, flkFcntl]
    split
    · exact hx
    · exact (perform_spec _ hx).1
  | poll t =>
    simp only [step]
    split
    · exact (poll_spec hx).1
    · exact hx
  | close sh f =>
    simp only [step, flkClose]
    split
    · exact hx.cut
    · exact hx
  | release f => exact hx.sublist filter_sublist
  | exit sh => exact hx

theorem play_exclusive (hx : Exclusive st.locks) (evs : List (Env × Event)) :
    Exclusive (play st evs).locks := by
  induction evs generalizing st with
  | nil => exact hx
  | cons x evs ih =>
    apply ih
    unfold next
    split
    · exact step_exclusive x.2 hx
    · exact hx

/-! ## What a call asks for

Said once more from the arguments of the calls alone: which bytes, of whom, and what for. -/

structure Ask where
  key : Key
  bytes : U64 → Prop
  value : Option LockType

/-- The first byte in front of or behind which the range lies. -/
def firstByte (f : File) (u : FlockArg) : Int :=
  (u.start + if u.whence = 1 then f.off else if u.whence = 2 then f.size else 0).toInt

/-- A length of zero reaches to the end of all files, a negative one back. -/
def InRange (f : File) (u : FlockArg) (b : U64) : Prop :=
  if u.len.toInt < 0 then firstByte f u + u.len.toInt ≤ b.toNat ∧ b.toNat < firstByte f u
  else firstByte f u ≤ b.toNat ∧ (u.len = 0 ∨ b.toNat < firstByte f u + u.len.toInt)

structure Valid (f : File) (cmd : Nat) (u : FlockArg) : Prop where
  node : f.isNode = true
  type : u.type = 0 ∨ u.type = 1 ∨ u.type = 2
  pid : 36 ≤ cmd → u.pid = 0
  whence : u.whence = 0 ∨ u.whence = 1 ∨ u.whence = 2
  start : 0 ≤ firstByte f u
  len : u.len.toInt < 0 → 0 ≤ firstByte f u + u.len.toInt
  read : u.type = 0 → accMode f ≠ 1
  write : u.type = 1 → accMode f ≠ 0

/-- `F_GETLK`, `F_GETLK64` and `F_OFD_GETLK`. -/
def IsGet (cmd : Nat) : Prop := cmd = 5 ∨ cmd = 12 ∨ cmd = 36

def fcntlAsk (t : Thread) (f : File) (cmd : Nat) (u : FlockArg) : Ask where
  key := if 36 ≤ cmd then ⟨f.node, .ofd, .file f.id⟩ else ⟨f.node, .posix, .table t.sh⟩
  bytes := InRange f u
  value := if u.type = 0 then some .read else if u.type = 1 then some .write else none

def wholeAsk (k : Key) (v : Option LockType) : Ask := ⟨k, fun _ => True, v⟩

inductive Asks (st : State) : Event → Ask → Prop
  | flock {t : Thread} {f : File} {op : U32} {v : Option LockType} (node : f.isNode = true)
      (how : (op &&& ~~~4, v) ∈ [(1, some .read), (2, some .write), (8, none)]) :
      Asks st (.flock t f op) (wholeAsk ⟨f.node, .flock, .file f.id⟩ v)
  | fcntl {t : Thread} {f : File} {cmd : Nat} {u : FlockArg} (valid : Valid f cmd u) (set : ¬ IsGet cmd) :
      Asks st (.fcntl t f cmd u) (fcntlAsk t f cmd u)
  | again {t : Thread} {r : Request} (asleep : st.asleep t = some r) :
      Asks st (.poll t) ⟨r.toKey, (· ∈ r.span), some r.type⟩
  | close {sh : Nat} {f : File} (node : f.isNode = true) :
      Asks st (.close sh f) (wholeAsk ⟨f.node, .posix, .table sh⟩ none)

/-- The bytes asked for get `v`, and all others stay. -/
def Sets (h h' : Bytes) (a : Ask) (v : Option LockType) : Prop :=
  (∀ b, a.bytes b → h' a.key b = v) ∧ ∀ k b, ¬ (k = a.key ∧ a.bytes b) → h' k b = h k b

/-- A request that waits is kept as it was asked. -/
def Kept (st : State) (t : Option Thread) (a : Ask) : Prop :=
  ∃ t' ∈ t, ∃ r, st.asleep t' = some r ∧ r.toKey = a.key ∧ (∀ b, b ∈ r.span ↔ a.bytes b) ∧
    some r.type = a.value

/-- What a call that asks for something has done when it answers.  A lock that fails for want of
memory may already have given up the range it asked for. -/
def Does (st st' : State) (t : Option Thread) (a : Ask) : Res → Prop
  | .ok => Sets (held st.locks) (held st'.locks) a a.value
  | .sleeps => held st'.locks = held st.locks ∧ Kept st' t a
  | .error .enomem => held st'.locks = held st.locks ∨
      a.value.isSome ∧ Sets (held st.locks) (held st'.locks) a none
  | .error .eagain | .error .eintr | .error .edeadlk =>
      held st'.locks = held st.locks ∧ a.value.isSome
  | .error .einval | .error .ebadf | .info _ => False

/-- An order carries out what is asked. -/
def Order.Fulfils (a : Ask) : Order → Prop
  | .lock r _ => r.toKey = a.key ∧ (∀ b, b ∈ r.span ↔ a.bytes b) ∧ some r.type = a.value
  | .unlock k span => k = a.key ∧ (∀ b, b ∈ span ↔ a.bytes b) ∧ a.value = none
  | _ => False

variable {a : Ask} {o : Order}

theorem Sets.of_set {h : Bytes} {k : Key} {span : Span 64} (v : Option LockType) (hk : k = a.key)
    (hb : ∀ b, b ∈ span ↔ a.bytes b) : Sets h (h.set k span v) a v := by
  subst hk
  constructor
  · intro b hab
    simp [Bytes.set, hb, hab]
  · intro k' b hno
    exact if_neg fun h => hno ⟨h.1, (hb b).1 h.2⟩

theorem perform_does (hx : Exclusive st.locks) (ho : o.Fulfils a) :
    Does st (perform env st t o).1 (some t) a (perform env st t o).2 := by
  have heff : Effect (held st.locks) (held (perform env st t o).1.locks) o (perform env st t o).2 :=
    (perform_spec o hx).2
  cases o with
  | nothing | query => exact ho.elim
  | unlock k span =>
    obtain ⟨hk, hb, hv⟩ := ho
    unfold perform at *
    cases hok : (cut env.cutMem k span st.locks).2 with
    | false =>
      simp only [hok, Bool.false_eq_true, if_false] at heff ⊢
      exact .inl heff
    | true =>
      simp only [hok, if_true] at heff ⊢
      rw [Effect] at heff
      simp only [Does, heff, hv]
      exact Sets.of_set none hk hb
  | lock r wait =>
    obtain ⟨hk, hb, hv⟩ := ho
    have hsome : a.value.isSome := by simp [← hv]
    have hres : (∃ e ∈ [Errno.eagain, .eintr, .edeadlk, .enomem],
        (perform env st t (.lock r wait)).2 = .error e) ∨
        (perform env st t (.lock r wait)).2 = .ok ∨
          perform env st t (.lock r wait) = (st.sleep t r (waitSet r.own
            (((findClash st.locks r).map (·.own)).getD r.own) st.wt), .sleeps) := by
      simp only [perform, poll, finish]
      split
      · split_ifs <;> simp
      · next hc => split_ifs <;> simp [hc]
    rcases hres with ⟨e, he, hres⟩ | hres | hres
    · rw [hres] at heff ⊢
      simp only [mem_cons, not_mem_nil, or_false] at he
      rcases he with rfl | rfl | rfl | rfl
      · exact ⟨heff, hsome⟩
      · exact ⟨heff, hsome⟩
      · exact ⟨heff, hsome⟩
      · refine heff.imp id fun h => ⟨hsome, ?_⟩
        rw [h]
        exact Sets.of_set none hk hb
    · rw [hres] at heff ⊢
      simp only [Does, ← hv]
      rw [Effect] at heff
      rw [heff]
      exact Sets.of_set _ hk hb
    · rw [hres]
      exact ⟨rfl, t, rfl, r, by simp [State.sleep], hk, hb, hv⟩

theorem toNat_of_nonneg {w : U64} (h : 0 ≤ w.toInt) : (w.toNat : Int) = w.toInt := by
  rw [BitVec.toInt_eq_toNat_cond] at h ⊢
  have := w.isLt
  split at h <;> omega

theorem toNat_of_neg {w : U64} (h : w.toInt < 0) : (w.toNat : Int) = w.toInt + 2 ^ 64 := by
  rw [BitVec.toInt_eq_toNat_cond] at h ⊢
  split at h <;> omega

theorem toInt_lt (w : U64) : w.toInt < 2 ^ 63 ∧ -2 ^ 63 ≤ w.toInt := ⟨w.toInt_lt, w.le_toInt⟩

section

variable {st len : U64}

theorem toInt_add_back (hs : 0 ≤ st.toInt) (hl : len.toInt < 0) :
    (st + len).toInt = st.toInt + len.toInt := by
  have := toInt_lt st
  have := toInt_lt len
  rw [BitVec.toInt_add, Int.bmod_eq_of_le (by omega) (by omega)]

theorem mem_upto (hs : 0 ≤ st.toInt) (hl : 0 ≤ len.toInt) (h0 : len ≠ 0) (b : U64) :
    (st ≤ b ∧ b ≤ st + len - 1) ↔ st.toInt ≤ b.toNat ∧ b.toNat < st.toInt + len.toInt := by
  have hst := toNat_of_nonneg hs
  have hlen := toNat_of_nonneg hl
  have := toInt_lt st
  have := toInt_lt len
  have hpos : len.toNat ≠ 0 := fun h => h0 (BitVec.eq_of_toNat_eq h)
  have hlast : (st + len - 1).toNat = st.toNat + len.toNat - 1 := by
    rw [BitVec.toNat_sub, BitVec.toNat_add, show (1 : U64).toNat = 1 from rfl]
    omega
  rw [BitVec.le_def, BitVec.le_def, hlast]
  omega

theorem mem_back (hs : 0 ≤ st.toInt) (hl : len.toInt < 0) (h : 0 ≤ st.toInt + len.toInt)
    (b : U64) : (st + len ≤ b ∧ b ≤ st - 1) ↔
      st.toInt + len.toInt ≤ b.toNat ∧ b.toNat < st.toInt := by
  have hst := toNat_of_nonneg hs
  have hlen := toNat_of_neg hl
  have := toInt_lt st
  have := toInt_lt len
  have hfirst : (st + len).toNat = st.toInt + len.toInt := by
    rw [BitVec.toNat_add]
    omega
  have hlast : (st - 1).toNat = st.toNat - 1 := by
    rw [BitVec.toNat_sub, show (1 : U64).toNat = 1 from rfl]
    omega
  rw [BitVec.le_def, BitVec.le_def, hlast]
  omega

theorem spanOf_spec (st len : U64) :
    match spanOf st len with
    | none => st.toInt < 0 ∨ len.toInt < 0 ∧ st.toInt + len.toInt < 0
    | some span => 0 ≤ st.toInt ∧ (len.toInt < 0 → 0 ≤ st.toInt + len.toInt) ∧
        ∀ b : U64, b ∈ span ↔
          if len.toInt < 0 then st.toInt + len.toInt ≤ b.toNat ∧ b.toNat < st.toInt
          else st.toInt ≤ b.toNat ∧ (len = 0 ∨ b.toNat < st.toInt + len.toInt) := by
  have hz : (0 : U64).toInt = 0 := rfl
  unfold spanOf
  by_cases hs : st.toInt < 0
  · have : st.slt 0 = true := by rwa [BitVec.slt_iff_toInt_lt, hz]
    split_ifs <;> exact .inl hs
  have hs' : ¬ st.slt 0 = true := by rwa [BitVec.slt_iff_toInt_lt, hz]
  have hpos : 0 ≤ st.toInt := by omega
  by_cases hl : len.toInt < 0
  · have hl' : len.slt 0 = true := by rwa [BitVec.slt_iff_toInt_lt, hz]
    have hadd := toInt_add_back hpos hl
    by_cases hsum : st.toInt + len.toInt < 0
    · have hsum' : (st + len).slt 0 = true := by rwa [BitVec.slt_iff_toInt_lt, hz, hadd]
      rw [dif_pos hl', dif_pos hsum']
      exact .inr ⟨hl, hsum⟩
    have hsum' : ¬ (st + len).slt 0 = true := by rwa [BitVec.slt_iff_toInt_lt, hz, hadd]
    rw [dif_pos hl', dif_neg hsum', dif_neg hs']
    refine ⟨hpos, fun _ => by omega, fun b => ?_⟩
    rw [if_pos hl]
    exact mem_back hpos hl (by omega) b
  have hl' : ¬ len.slt 0 = true := by rwa [BitVec.slt_iff_toInt_lt, hz]
  rw [dif_neg hl', dif_neg hs']
  have hfirst := toNat_of_nonneg hpos
  by_cases h0 : len = 0
  · rw [dif_pos h0]
    refine ⟨hpos, fun h => absurd h hl, fun b => ?_⟩
    rw [if_neg hl, mem_def, BitVec.le_def]
    have : b ≤ BitVec.allOnes 64 := ((mem_full b).2)
    simp only [this, h0, true_or, and_true]
    omega
  rw [dif_neg h0]
  refine ⟨hpos, fun h => absurd h hl, fun b => ?_⟩
  rw [if_neg hl]
  simp only [h0, false_or]
  exact mem_upto hpos (by omega) h0 b

end

theorem lockType_eq_none {ty : U16} :
    lockType ty = none ↔ ¬ (ty = 0 ∨ ty = 1 ∨ ty = 2) := by
  unfold lockType
  split_ifs <;> simp_all

theorem startOf_spec (f : File) (u : FlockArg) :
    match startOf f u with
    | none => ¬ (u.whence = 0 ∨ u.whence = 1 ∨ u.whence = 2)
    | some st => (u.whence = 0 ∨ u.whence = 1 ∨ u.whence = 2) ∧ st.toInt = firstByte f u := by
  unfold startOf firstByte
  split_ifs <;> simp_all

theorem lockType_value {ty : U16} {v : Option LockType} (h : lockType ty = some v) :
    v = if ty = 0 then some .read else if ty = 1 then some .write else none := by
  unfold lockType at h
  split_ifs at h <;> simp_all

/-- Orders are made of valid arguments, as they ask for it. -/
theorem fcntlOrder_spec (t : Thread) (f : File) (cmd : Nat) (u : FlockArg) :
    match fcntlOrder t.sh f cmd u with
    | .error _ => ¬ IsGet cmd → ¬ Valid f cmd u
    | .ok (.query _ _) => IsGet cmd
    | .ok o => Valid f cmd u ∧ ¬ IsGet cmd ∧ o.Fulfils (fcntlAsk t f cmd u) := by
  cases hnode : f.isNode with
  | false =>
    simp only [fcntlOrder, hnode]
    exact fun _ h => by simp [h.node] at hnode
  | true =>
  cases hty : lockType u.type with
  | none =>
    simp only [fcntlOrder, hnode, hty]
    exact fun _ h => lockType_eq_none.1 hty h.type
  | some v =>
  have htype : u.type = 0 ∨ u.type = 1 ∨ u.type = 2 := by
    by_contra h
    rw [lockType_eq_none.2 h] at hty
    cases hty
  have hvalue := lockType_value hty
  by_cases hpid : 36 ≤ cmd ∧ u.pid ≠ 0
  · simp only [fcntlOrder, hnode, hty, if_pos hpid]
    exact fun _ h => hpid.2 (h.pid hpid.1)
  have hstart := startOf_spec f u
  cases hst : startOf f u with
  | none =>
    simp only [fcntlOrder, hnode, hty, if_neg hpid, hst]
    rw [hst] at hstart
    exact fun _ h => hstart h.whence
  | some st =>
  rw [hst] at hstart
  obtain ⟨hwhence, hfirst⟩ := hstart
  have hspan := spanOf_spec st u.len
  cases hsp : spanOf st u.len with
  | none =>
    simp only [fcntlOrder, hnode, hty, if_neg hpid, hst, hsp]
    rw [hsp, hfirst] at hspan
    intro _ h
    have := h.start
    have := h.len
    rcases hspan with hneg | ⟨hlen, hneg⟩
    · omega
    · have := this hlen
      omega
  | some span =>
  rw [hsp, hfirst] at hspan
  obtain ⟨hpos, hback, hmem⟩ := hspan
  by_cases hget : cmd = 5 ∨ cmd = 12 ∨ cmd = 36
  · simp only [fcntlOrder, hnode, hty, if_neg hpid, hst, hsp, if_pos hget]
    exact hget
  have hv (hr : u.type = 0 → accMode f ≠ 1) (hw : u.type = 1 → accMode f ≠ 0) : Valid f cmd u :=
    ⟨hnode, htype, fun h => by_contra fun hp => hpid ⟨h, hp⟩, hwhence, hpos, hback, hr, hw⟩
  have hkey : fcntlKey t.sh f cmd = (fcntlAsk t f cmd u).key := rfl
  cases v with
  | none =>
    have hne : u.type ≠ 0 ∧ u.type ≠ 1 := by
      constructor <;> intro h <;> simp [h] at hvalue
    simp only [fcntlOrder, hnode, hty, if_neg hpid, hst, hsp, if_neg hget]
    exact ⟨hv (fun h => absurd h hne.1) (fun h => absurd h hne.2), hget, hkey, hmem, hvalue.symm⟩
  | some type =>
    have h0 : u.type = 0 ↔ type = .read := by
      constructor
      · intro h
        simpa [h] using hvalue
      · rintro rfl
        by_contra h
        simp only [h, if_false] at hvalue
        split at hvalue <;> simp at hvalue
    have h1 : u.type = 1 ↔ type = .write := by
      constructor
      · intro h
        simpa [h] using hvalue
      · rintro rfl
        by_contra h
        simp only [h, if_false] at hvalue
        split at hvalue <;> simp at hvalue
    by_cases hr : type = .read ∧ accMode f = 1
    · simp only [fcntlOrder, hnode, hty, if_neg hpid, hst, hsp, if_neg hget, if_pos hr]
      exact fun _ h => h.read (h0.2 hr.1) hr.2
    by_cases hw : type = .write ∧ accMode f = 0
    · simp only [fcntlOrder, hnode, hty, if_neg hpid, hst, hsp, if_neg hget, if_neg hr, if_pos hw]
      exact fun _ h => h.write (h1.2 hw.1) hw.2
    simp only [fcntlOrder, hnode, hty, if_neg hpid, hst, hsp, if_neg hget, if_neg hr, if_neg hw]
    exact ⟨hv (fun h ha => hr ⟨h0.1 h, ha⟩) (fun h ha => hw ⟨h1.1 h, ha⟩), hget, hkey, hmem,
      hvalue⟩

def Event.thread : Event → Option Thread
  | .flock t _ _ => some t
  | .fcntl t _ _ _ => some t
  | .poll t => some t
  | _ => none

theorem step_does {ev : Event} (hx : Exclusive st.locks) (hask : Asks st ev a) :
    Does st (step env st ev).1 ev.thread a (step env st ev).2 := by
  cases hask with
  | @flock t f op v hnode how =>
    have hord : ∃ o, flockOrder f op = .ok o ∧
        o.Fulfils (wholeAsk ⟨f.node, .flock, .file f.id⟩ v) := by
      simp only [mem_cons, Prod.mk.injEq, not_mem_nil, or_false] at how
      rcases how with ⟨hop, rfl⟩ | ⟨hop, rfl⟩ | ⟨hop, rfl⟩ <;>
        exact ⟨_, by unfold flockOrder; simp only [hnode, hop]; rfl,
          by simp [Order.Fulfils, wholeAsk]⟩
    obtain ⟨o, hok, ho⟩ := hord
    simp only [step, flkFlock, hok]
    exact perform_does hx ho
  | @fcntl t f cmd u hvalid hset =>
    have hspec := fcntlOrder_spec t f cmd u
    simp only [step, flkFcntl]
    cases hord : fcntlOrder t.sh f cmd u with
    | error e =>
      rw [hord] at hspec
      exact absurd hvalid (hspec hset)
    | ok o =>
      rw [hord] at hspec
      cases o with
      | query r u' => exact absurd hspec hset
      | nothing => exact hspec.2.2.elim
      | lock r w => exact perform_does hx hspec.2.2
      | unlock k span => exact perform_does hx hspec.2.2
  | @again t r hr =>
    simp only [step, hr]
    exact perform_does (o := .lock r true) hx ⟨rfl, fun _ => Iff.rfl, rfl⟩
  | @close sh f hnode =>
    simp only [step, flkClose, if_pos hnode, Does, held_cut hx cut_full_ok]
    exact Sets.of_set none rfl (by simp [wholeAsk])

theorem step_unasked {ev : Event} (hrel : ∀ f, ev ≠ .release f)
    (hno : ∀ a, ¬ Asks st ev a) : held (step env st ev).1.locks = held st.locks := by
  cases ev with
  | flock t f op =>
    have hord : flockOrder f op = .ok .nothing ∨ flockOrder f op = .error .einval := by
      cases hnode : f.isNode with
      | false => exact .inl (by simp [flockOrder, hnode])
      | true =>
        refine .inr ?_
        have h8 : op &&& ~~~4 ≠ 8 := fun h => hno _ (.flock (v := none) hnode (by rw [h]; simp))
        have h1 : op &&& ~~~4 ≠ 1 := fun h => hno _ (.flock (v := some .read) hnode (by rw [h]; simp))
        have h2 : op &&& ~~~4 ≠ 2 := fun h => hno _ (.flock (v := some .write) hnode (by rw [h]; simp))
        unfold flockOrder
        simp only [hnode, Bool.not_true, Bool.false_eq_true, if_false, if_neg h8, if_neg h1,
          if_neg h2]
    simp only [step, flkFlock]
    rcases hord with h | h
    · rw [h]
      rfl
    · rw [h]
  | fcntl t f cmd u =>
    have hspec := fcntlOrder_spec t f cmd u
    simp only [step, flkFcntl]
    cases hord : fcntlOrder t.sh f cmd u with
    | error e => rfl
    | ok o =>
      rw [hord] at hspec
      cases o with
      | query r u' => rfl
      | nothing => rfl
      | lock r w => exact absurd (.fcntl hspec.1 hspec.2.1) (hno _)
      | unlock k span => exact absurd (.fcntl hspec.1 hspec.2.1) (hno _)
  | poll t =>
    simp only [step]
    cases hr : st.asleep t with
    | none => rfl
    | some r => exact absurd (.again hr) (hno _)
  | close sh f =>
    cases hnode : f.isNode with
    | false => simp [step, flkClose, hnode]
    | true => exact absurd (.close hnode) (hno _)
  | release f => exact absurd rfl (hrel f)
  | exit sh => rfl

theorem Exclusive.single (h : Exclusive ls) (k : Key) (b : U64) :
    (ls.filter fun l => l.holds k b).length ≤ 1 := by
  have hf : Exclusive (ls.filter fun l => l.holds k b) := h.sublist filter_sublist
  have hall : ∀ l ∈ ls.filter fun l => l.holds k b, l.toKey = k ∧ b ∈ l.span :=
    fun l hl => Lock.holds_iff.1 (mem_filter.1 hl).2
  match hls : ls.filter fun l => l.holds k b with
  | [] => simp [hls]
  | [l] => simp [hls]
  | l :: m :: ms =>
    rw [hls] at hf hall
    have hl := hall l (by simp)
    have hm := hall m (by simp)
    exact absurd (meets_iff.2 ⟨b, hl.2, hm.2⟩)
      ((pairwise_cons.1 hf).1 m (by simp) (rival_of_key (hl.1.trans hm.1.symm)))

theorem Rival.symm {m : Lock} (h : Rival l m) : Rival m l := by
  obtain ⟨hn, ⟨hk, ho⟩ | ⟨ho, hf, ht⟩⟩ := h
  · exact ⟨hn.symm, .inl ⟨hk.symm, ho.symm⟩⟩
  · exact ⟨hn.symm, .inr ⟨ho.symm, hf.symm, ht.symm⟩⟩

theorem Exclusive.apart (h : Exclusive ls) {m : Lock} (hl : l ∈ ls)
    (hm : m ∈ ls) (hne : l ≠ m) (hr : Rival l m) : ¬ l.span.Meets m.span := by
  have : Std.Symm fun l m : Lock => Rival l m → ¬ l.span.Meets m.span :=
    ⟨fun _ _ h hr hmeet => h hr.symm hmeet.symm⟩
  exact List.Pairwise.forall h hl hm hne hr

end SamaraOS.Flock
