import SamaraOS.Proc.Namespaces

/-!
# The counts of the namespaces are right

As long as only processes with one thread change their namespaces, no call runs out of entries
half-way, no fork fails in `start_task` and no teardown is cut, the count of every namespace but
the initial ones is the number of references that live processes hold and the number of
namespaces that name it as their parent.
-/

namespace SamaraOS.Namespaces

open Refs Function Option List

structure Right (st : State) : Prop where
  counts : ∀ k i, i < nn → i ≠ 0 → (st.nst k i).used →
    (st.nst k i).refs = holders st.procs k i + fromKids k.linked nn (st.nst k) i ∧
      0 < (st.nst k i).refs
  pointed : ∀ p ∈ st.procs, ∀ k, p.idx k < nn ∧ (st.nst k (p.idx k)).used
  kids : ∀ p ∈ st.procs, p.kidns < nn ∧ (st.nst .pid p.kidns).used
  /-- The initial namespaces are never freed. -/
  initial : ∀ k, (st.nst k 0).used

def alone (st : State) (p : Proc) : Prop :=
  p.isThread = false ∧ ∀ q ∈ st.procs, q.isThread → q.tgid ≠ p.tgid

def room (ts : Tables) (p : Proc) (k : Kind) : Bool :=
  !tooDeep ts p k && (firstFree nn (ts k)).isSome

def Whole (ts : Tables) (p : Proc) (fl : Kind → Bool) : Prop :=
  (∀ k ∈ kinds.filter fl, room ts p k) ∨ ∃ k ∈ (kinds.filter fl).head?, room ts p k = false

def Regular (st : State) : Op → Prop
  | .unshare i fl => ∀ p, st.procs[i]? = some p → alone st p ∧ Whole st.nst p fl
  | .setns i _ _ => ∀ p, st.procs[i]? = some p → alone st p
  | .fork i fl _ .ok => ∀ p, st.procs[i]? = some p →
      Whole st.nst p (notPid (fl.getD p.nsfl))
  | .fork _ _ _ .late => False
  | .exitCut _ => False
  | _ => True

def RegularRun : State → List Op → Prop
  | _, [] => True
  | st, op :: ops => Regular st op ∧ RegularRun (step st op) ops

theorem nn_pos : 0 < nn := Nat.zero_lt_succ 31

def Sound (ts : Tables) (H : Kind → Nat → Nat) : Prop :=
  ∀ k, Counted k.linked nn (ts k) (H k) ∧ Positive nn (ts k) fun _ => False

def adds (h : Nat → Nat) (l : List Nat) : Nat → Nat := fun j => h j + l.count j

def plus (H : Kind → Nat → Nat) (p : Proc) : Kind → Nat → Nat := fun k => adds (H k) (p.held k)

theorem adds_cons (h : Nat → Nat) (i : Nat) (l : List Nat) :
    adds h (i :: l) = add (adds h l) i := by
  funext j
  by_cases hji : j = i
  · subst hji
    simp only [adds, add, count_cons_self, if_true]
    omega
  · simp only [adds, add, count_cons_of_ne (Ne.symm hji), if_neg hji, Nat.add_zero]

theorem adds_nil (h : Nat → Nat) : adds h [] = h := by
  funext j
  simp [adds]

theorem add_comm (h : Nat → Nat) (i j : Nat) : add (add h i) j = add (add h j) i := by
  funext x
  simp only [add]
  omega

variable {ts : Tables} {H : Kind → Nat → Nat} {k k' : Kind} {i : Nat} {c p p' : Proc} {ps : List Proc}
  {ks : List Kind} {fl : Kind → Bool} {st : State} {h : Nat → Nat}

theorem Sound.set (hs : Sound ts H) {t : Table Nat}
    (ht : Counted k.linked nn t h ∧ Positive nn t fun _ => False) :
    Sound (ts.set k t) (update H k h) := by
  intro k'
  by_cases hk : k' = k
  · subst hk
    simpa [Tables.set] using ht
  · simpa [Tables.set, hk] using hs k'

theorem Sound.get (hs : Sound ts H) (hi : i < nn) (hu : (ts k i).used) :
    Sound (nsGet k i ts) (update H k (add (H k) i)) :=
  hs.set ⟨(hs k).1.get hi hu, (hs k).2.get i⟩

theorem Sound.put (hs : Sound ts H) (hh : H k = add h i) : Sound (nsPut k i ts)
    (update H k h) := by
  refine hs.set ⟨?_, (hs k).2.put nn i⟩
  have hc := (hs k).1
  rw [hh] at hc
  exact hc.put (live_card_le _)

def base (p : Proc) (k : Kind) : List Nat := if k = .pid then [p.idx .pid] else []

theorem plus_eq (hp : p.isThread = false) (k : Kind) :
    plus H p k = add (adds (H k) (base p k)) (old p k) := by
  simp only [plus, Proc.held, hp, base, old]
  by_cases hk : k = .pid
  · subst hk
    simp only [if_true, Bool.false_eq_true, if_false, adds_cons, adds_nil]
    exact add_comm ..
  · simp only [if_neg hk, Bool.false_eq_true, if_false, adds_cons, adds_nil]

theorem plus_thread (hp : p.isThread) : plus H p = H := by
  funext k
  simp only [plus, Proc.held, hp, if_true, adds_nil]

theorem holders_erase (h : ps[i]? = some p) : holders ps = plus (holders (ps.eraseIdx i)) p := by
  funext k j
  exact (sum_map_eraseIdx (fun p : Proc => (p.held k).count j) h).symm

theorem holders_cons (p : Proc) (ps : List Proc) : holders (p :: ps) = plus (holders ps) p := by
  funext k j
  simp only [holders, map_cons, sum_cons, plus, adds]
  omega

theorem holders_set (h : ps[i]? = some p) (p' : Proc) :
    holders (ps.set i p') = plus (holders (ps.eraseIdx i)) p' := by
  funext k j
  have h1 := sum_map_set (fun p : Proc => (p.held k).count j) h p'
  have h2 := sum_map_eraseIdx (fun p : Proc => (p.held k).count j) h
  simp only [holders, plus, adds]
  omega

theorem holders_filter {f : Proc → Bool} (hf : ∀ p ∈ ps, f p = false → p.isThread) :
    holders (ps.filter f) = holders ps := by
  induction ps with
  | nil => rfl
  | cons p ps ih =>
    have ih := ih fun q hq => hf q (mem_cons_of_mem p hq)
    rw [filter_cons]
    split
    · rw [holders_cons, holders_cons, ih]
    next hno =>
    rw [holders_cons, ih, plus_thread (hf p mem_cons_self (by simpa using hno))]

theorem mem_held_used (hs : Sound ts (plus H p)) (hi : i ∈ p.held k) : i < nn ∧ (ts k i).used := by
  refine (hs k).1.held i ?_
  have : 0 < (p.held k).count i := count_pos_iff.2 hi
  simp only [plus, adds]
  omega

/-! ## `apply` -/

theorem set_same (ts : Tables) (k : Kind) (t : Table Nat) : ts.set k t k = t := by simp [Tables.set]

theorem set_other (ts : Tables) (t : Table Nat) (h : k' ≠ k) :
    ts.set k t k' = ts k' := by simp [Tables.set, h]

theorem makeAll_spec {ts' : Tables} {made : List (Kind × Nat)}
    (h : makeAll p ks ts = (some made, ts')) (hnd : ks.Nodup) :
    made.map Prod.fst = ks ∧ (∀ k, k ∉ ks → ts' k = ts k) ∧
      ∀ k i, (k, i) ∈ made → firstFree nn (ts k) = some i ∧
        ∃ info, ts' k = make k.linked (ts k) i (parentFor p k) info := by
  induction ks generalizing ts ts' made with
  | nil =>
    cases h
    exact ⟨rfl, fun _ _ => rfl, nofun⟩
  | cons k ks ih =>
    obtain ⟨hk, hnd⟩ := nodup_cons.1 hnd
    unfold makeAll at h
    split at h
    · cases h
    cases hnew : nsNew k (parentFor p k) ts with
    | none =>
      rw [hnew] at h
      cases h
    | some r =>
      obtain ⟨i, ts₁⟩ := r
      rw [hnew] at h
      simp only [Prod.mk.injEq, map_eq_some_iff] at h
      obtain ⟨⟨made', hmade, rfl⟩, rfl⟩ := h
      obtain ⟨hfst, hsame, hspec⟩ := ih (Prod.ext hmade rfl) hnd
      simp only [nsNew, map_eq_some_iff, Prod.mk.injEq] at hnew
      obtain ⟨_, hfree, rfl, rfl⟩ := hnew
      refine ⟨by rw [map_cons, hfst], fun k' hk' => ?_, fun k' i' hmem => ?_⟩
      · rw [mem_cons, not_or] at hk'
        exact (hsame k' hk'.2).trans (set_other _ _ hk'.1)
      rcases mem_cons.1 hmem with heq | hrest
      · cases heq
        exact ⟨hfree, _, (hsame k hk).trans (set_same ..)⟩
      have hne : k' ≠ k := by
        intro heq
        subst heq
        exact hk (hfst ▸ mem_map_of_mem hrest)
      have hrest := hspec k' i' hrest
      rw [set_other _ _ hne] at hrest
      exact hrest

structure SameElse (p p' : Proc) : Prop where
  isThread : p'.isThread = p.isThread
  tgid : p'.tgid = p.tgid
  pidns : p'.idx .pid = p.idx .pid

theorem replace_same (p : Proc) (k : Kind) (i : Nat) : SameElse p (replace p k i) := by
  unfold replace
  split
  · exact ⟨rfl, rfl, rfl⟩
  next hk => exact ⟨rfl, rfl, by simp [Ne.symm hk]⟩

theorem old_replace (p : Proc) (k : Kind) (i : Nat) (k' : Kind) :
    old (replace p k i) k' = if k' = k then i else old p k' := by
  unfold old replace
  by_cases hk : k = .pid
  · subst hk
    by_cases hk' : k' = .pid
    · subst hk'
      simp
    · simp [hk']
  by_cases hk' : k' = k
  · subst hk'
    simp [hk]
  by_cases hp : k' = .pid
  · subst hp
    simp [hk, hk']
  · simp [hk, hk', hp]

theorem moveAll_spec {made : List (Kind × Nat)} (hnd : (made.map Prod.fst).Nodup) (p : Proc)
    (ts : Tables) : SameElse p (moveAll made p ts).1 ∧ (∀ k, k ∉ made.map Prod.fst →
        (moveAll made p ts).2 k = ts k ∧ old (moveAll made p ts).1 k = old p k) ∧
      ∀ k i, (k, i) ∈ made → (moveAll made p ts).2 k = get (put k.linked nn (ts k) (old p k)) i ∧
          old (moveAll made p ts).1 k = i := by
  induction made generalizing p ts with
  | nil => exact ⟨⟨rfl, rfl, rfl⟩, fun _ _ => ⟨rfl, rfl⟩, nofun⟩
  | cons m made ih =>
    obtain ⟨k, i⟩ := m
    rw [map_cons, nodup_cons] at hnd
    obtain ⟨hk, hnd⟩ := hnd
    obtain ⟨hsame, hother, hspec⟩ := ih hnd (replace p k i) (nsGet k i (nsPut k (old p k) ts))
    have hrep := replace_same p k i
    refine ⟨⟨hsame.isThread.trans hrep.isThread, hsame.tgid.trans hrep.tgid,
      hsame.pidns.trans hrep.pidns⟩, fun k' hk' => ?_, fun k' i' hmem => ?_⟩
    · rw [map_cons, mem_cons, not_or] at hk'
      obtain ⟨hts, hold⟩ := hother k' hk'.2
      refine ⟨hts.trans ?_, hold.trans ?_⟩
      · rw [nsGet, set_other _ _ hk'.1, nsPut, set_other _ _ hk'.1]
      · rw [old_replace, if_neg hk'.1]
    rcases mem_cons.1 hmem with heq | hrest
    · cases heq
      obtain ⟨hts, hold⟩ := hother k hk
      refine ⟨hts.trans ?_, hold.trans ?_⟩
      · rw [nsGet, set_same, nsPut, set_same]
      · rw [old_replace, if_pos rfl]
    have hne : k' ≠ k := by
      intro heq
      subst heq
      exact hk (mem_map.2 ⟨(k', i'), hrest, rfl⟩)
    obtain ⟨hts, hold⟩ := hspec k' i' hrest
    refine ⟨hts.trans ?_, hold⟩
    rw [old_replace, if_neg hne, nsGet, set_other _ _ hne, nsPut, set_other _ _ hne]

section

variable (hp : p.isThread = false)

include hp

theorem childPid_mem : childPid p ∈ p.held .pid := by
  simp only [Proc.held, hp, Bool.false_eq_true, if_false, if_true, childPid]
  split <;> simp

theorem idx_mem (k : Kind) : p.idx k ∈ p.held k := by
  unfold Proc.held
  by_cases hk : k = .pid
  · subst hk
    simp [hp]
  · simp [hp, hk]

theorem parentFor_used (hs : Sound ts (plus H p)) (k : Kind) :
    parentFor p k < nn ∧ (ts k (parentFor p k)).used := by
  cases k with
  | user => exact mem_held_used hs (idx_mem hp .user)
  | pid => exact mem_held_used hs (childPid_mem hp)
  | mnt => exact ⟨nn_pos, (hs .mnt).1.root⟩
  | uts => exact ⟨nn_pos, (hs .uts).1.root⟩
  | ipc => exact ⟨nn_pos, (hs .ipc).1.root⟩
  | net => exact ⟨nn_pos, (hs .net).1.root⟩

end

theorem kinds_filter_nodup (fl : Kind → Bool) : (kinds.filter fl).Nodup :=
  List.Nodup.filter fl (by decide)

theorem apply_sound {ts' : Tables} (hp : p.isThread = false) (hs : Sound ts (plus H p))
    (h : apply p fl ts = (some p', ts')) : Sound ts' (plus H p') ∧ SameElse p p' := by
  unfold apply at h
  split at h
  · cases h
  next made ts₁ hmade =>
  obtain ⟨rfl, rfl⟩ := h
  have hnd := kinds_filter_nodup fl
  obtain ⟨hfst, hother, hspec⟩ := makeAll_spec hmade hnd
  rw [← hfst] at hnd
  obtain ⟨hsame, hmother, hmspec⟩ := moveAll_spec hnd p ts₁
  refine ⟨fun k => ?_, hsame⟩
  have hbase : base (moveAll made p ts₁).1 k = base p k := by
    unfold base
    rw [hsame.pidns]
  rw [plus_eq (hsame.isThread.trans hp), hbase]
  have hk := hs k
  rw [plus_eq hp] at hk
  by_cases hmem : k ∈ made.map Prod.fst
  · obtain ⟨⟨k', i⟩, hm, hkk⟩ := mem_map.1 hmem
    obtain rfl : k' = k := hkk
    obtain ⟨hfree, info, hts₁⟩ := hspec k' i hm
    obtain ⟨hts', hold⟩ := hmspec k' i hm
    obtain ⟨hlt, hused⟩ := parentFor_used hp hs k'
    rw [hold, hts', hts₁]
    exact renew_counted hk.1 hk.2 hfree hlt hused
  obtain ⟨hts', hold⟩ := hmother k hmem
  rw [hold, hts', hother k (hfst ▸ hmem)]
  exact hk

theorem room_set (hne : k' ≠ k) (t : Table Nat) :
    room (ts.set k t) p k' = room ts p k' := by
  have hdeep : tooDeep (ts.set k t) p k' = tooDeep ts p k' := by
    unfold tooDeep
    by_cases hk : k' = .pid
    · subst hk
      rw [set_other _ _ hne]
    · simp [hk]
  rw [room, room, hdeep, set_other _ _ hne]

theorem makeAll_some (hnd : ks.Nodup)
    (h : ∀ k ∈ ks, room ts p k) : ∃ made ts', makeAll p ks ts = (some made, ts') := by
  induction ks generalizing ts with
  | nil => exact ⟨[], ts, rfl⟩
  | cons k ks ih =>
    obtain ⟨hk, hnd⟩ := nodup_cons.1 hnd
    have hroom := h k mem_cons_self
    simp only [room, Bool.and_eq_true, Bool.not_eq_true'] at hroom
    obtain ⟨i, hi⟩ := isSome_iff_exists.1 hroom.2
    have hrest : ∀ k' ∈ ks, ∀ t, room (ts.set k t) p k' := by
      intro k' hk' t
      have hne : k' ≠ k := fun heq => hk (heq ▸ hk')
      rw [room_set hne]
      exact h k' (mem_cons_of_mem k hk')
    obtain ⟨made, ts', hmade⟩ := ih hnd fun k' hk' => hrest k' hk' _
    refine ⟨(k, i) :: made, ts', ?_⟩
    unfold makeAll
    rw [if_neg (by simp [hroom.1])]
    simp only [nsNew, hi, map_some]
    rw [hmade]
    rfl

theorem makeAll_none (hk : k ∈ ks.head?)
    (h : room ts p k = false) : makeAll p ks ts = (none, ts) := by
  cases ks with
  | nil => cases hk
  | cons k' ks =>
    cases hk
    unfold makeAll
    split
    · rfl
    next hdeep =>
    simp only [room, Bool.and_eq_false_iff, Bool.not_eq_false', isSome_eq_false_iff,
      isNone_iff_eq_none] at h
    rcases h with hd | hfull
    · exact absurd hd hdeep
    · simp only [nsNew, hfull, map_none]

theorem apply_whole (h : Whole ts p fl) :
    (∃ p' ts', apply p fl ts = (some p', ts')) ∨ apply p fl ts = (none, ts) := by
  rcases h with hall | ⟨k, hk, hroom⟩
  · obtain ⟨made, ts', hmade⟩ := makeAll_some (kinds_filter_nodup fl) hall
    left
    unfold apply
    rw [hmade]
    exact ⟨_, _, rfl⟩
  right
  unfold apply
  rw [makeAll_none hk hroom]

def Follows (t l : Proc) : Prop :=
  l.isThread = false ∧ l.tgid = t.tgid ∧ ∀ k, t.idx k ∈ l.held k

structure Good (st : State) : Prop where
  sound : Sound st.nst (holders st.procs)
  kidns : ∀ t ∈ st.procs, t.isThread → t.kidns = 0
  threads : ∀ t ∈ st.procs, t.isThread → ∃ l ∈ st.procs, Follows t l

section

variable (hg : Good st)

include hg

theorem sound_erase (h : st.procs[i]? = some p) :
    Sound st.nst (plus (holders (st.procs.eraseIdx i)) p) := by
  rw [← holders_erase h]
  exact hg.sound

theorem Good.held_used (hp : p ∈ st.procs) (hi : i ∈ p.held k) : i < nn ∧ (st.nst k i).used := by
  obtain ⟨n, hn⟩ := mem_iff_getElem?.mp hp
  exact mem_held_used (sound_erase hg hn) hi

theorem Good.idx_used (hp : p ∈ st.procs) (k : Kind) :
    p.idx k < nn ∧ (st.nst k (p.idx k)).used := by
  cases hth : p.isThread with
  | false => exact hg.held_used hp (idx_mem hth k)
  | true =>
    obtain ⟨l, hl, hfol⟩ := hg.threads p hp hth
    exact hg.held_used hl (hfol.2.2 k)

theorem Good.childPid_used (hp : p ∈ st.procs) :
    childPid p < nn ∧ (st.nst .pid (childPid p)).used := by
  cases hth : p.isThread with
  | false => exact hg.held_used hp (childPid_mem hth)
  | true =>
    have hk := hg.kidns p hp hth
    simp only [childPid, hk, ne_eq, not_true_eq_false, if_false]
    exact hg.idx_used hp .pid

theorem Good.right : Right st where
  counts k i hi h0 hu := by
    refine ⟨(hg.sound k).1.refs i hi h0 hu, ?_⟩
    rcases (hg.sound k).2 i hi h0 hu with hno | hpos
    · exact hno.elim
    · exact hpos
  pointed p hp k := hg.idx_used hp k
  kids p hp := by
    cases hth : p.isThread with
    | false => exact hg.held_used hp (by simp [Proc.held, hth])
    | true =>
      rw [hg.kidns p hp hth]
      exact ⟨nn_pos, (hg.sound .pid).1.root⟩
  initial k := (hg.sound k).1.root

omit hg in
theorem mem_set_of_ne {q : Proc} (h : ps[i]? = some p) (hq : q ∈ ps)
    (hne : q.tgid ≠ p.tgid) (p' : Proc) : q ∈ ps.set i p' := by
  obtain ⟨n, hn⟩ := mem_iff_getElem?.mp hq
  have hni : i ≠ n := by
    intro heq
    rw [heq, hn] at h
    cases h
    exact hne rfl
  exact mem_iff_getElem?.mpr ⟨n, by rw [getElem?_set_ne hni, hn]⟩

theorem Good.set_alone (h : st.procs[i]? = some p) (halone : alone st p) (hsame : SameElse p p')
    (hs : Sound ts (plus (holders (st.procs.eraseIdx i)) p')) : Good ⟨ts, st.procs.set i p'⟩ := by
  have hlead : p'.isThread = false := hsame.isThread.trans halone.1
  refine ⟨?_, fun t ht hth => ?_, fun t ht hth => ?_⟩
  · rw [holders_set h]
    exact hs
  · rcases mem_or_eq_of_mem_set ht with hold | heq
    · exact hg.kidns t hold hth
    rw [heq, hlead] at hth
    cases hth
  rcases mem_or_eq_of_mem_set ht with hold | heq
  · obtain ⟨l, hl, hfol⟩ := hg.threads t hold hth
    refine ⟨l, mem_set_of_ne h hl ?_ p', hfol⟩
    rw [hfol.2.1]
    exact halone.2 t hold hth
  rw [heq, hlead] at hth
  cases hth

theorem unshare_good (h : Regular st (.unshare i fl)) : Good (step st (.unshare i fl)) := by
  simp only [step, unshare]
  cases hp : st.procs[i]? with
  | none => exact hg
  | some p =>
    obtain ⟨halone, hwhole⟩ := h p hp
    have hs := sound_erase hg hp
    rcases apply_whole hwhole with ⟨p', ts', hok⟩ | hfail
    · obtain ⟨hs', hsame⟩ := apply_sound halone.1 hs hok
      simp only [hok]
      exact hg.set_alone hp halone hsame hs'
    simp only [hfail]
    exact hg

theorem setns_good {j : Nat} (h : Regular st (.setns i k j)) : Good (step st (.setns i k j)) := by
  simp only [step, setns]
  cases hp : st.procs[i]? with
  | none => exact hg
  | some p =>
    have halone := h p hp
    have hs := sound_erase hg hp
    simp only
    split
    swap
    · exact hg
    next hj =>
    have hsame := replace_same p k j
    have hget := hs.get (k := k) hj.1 hj.2
    have hput := hget.put (k := k) (i := old p k)
      (h := add (adds (holders (st.procs.eraseIdx i) k) (base p k)) j)
      (by rw [update_self, plus_eq halone.1, add_comm])
    refine hg.set_alone hp halone hsame ?_
    convert hput using 1
    funext k'
    have hbase : base (replace p k j) k' = base p k' := by
      unfold base
      rw [hsame.pidns]
    rw [plus_eq (hsame.isThread.trans halone.1), hbase, old_replace, update_idem]
    by_cases hk : k' = k
    · subst hk
      simp
    · simp [hk, plus_eq halone.1]

end

/-! ## New processes -/

theorem firstFree_get (t : Table Nat) (i : Nat) : firstFree nn (get t i) = firstFree nn t := by
  have hused : ∀ j, (get t i j).used = (t j).used := by
    intro j
    unfold Refs.get
    split
    · rfl
    · exact update_refs_used _
  simp only [firstFree, hused]

theorem getAll_apply (c : Proc) (ts : Tables) (k : Kind) : getAll c ts k = get (ts k)
    (c.idx k) := by
  cases k <;> simp [getAll, kinds, nsGet, Tables.set]

theorem getAll_sound (hs : Sound ts H) (hc : c.isThread = false) (hkid : c.kidns = 0)
    (hidx : ∀ k, c.idx k < nn ∧ (ts k (c.idx k)).used) : Sound (getAll c ts) (plus H c) := by
  intro k
  rw [getAll_apply, plus_eq hc]
  refine ⟨?_, (hs k).2.get _⟩
  have hget := (hs k).1.get (hidx k).1 (hidx k).2
  by_cases hk : k = .pid
  · subst hk
    simp only [base, old, if_true, hkid, adds_cons, adds_nil]
    exact (Counted.root_iff nn_pos).2 hget
  simp only [base, old, if_neg hk, adds_nil]
  exact hget

theorem newPid_sound (hc : c.isThread = false) (hs : Sound ts (plus H c)) :
    Sound (newPid c ts).2 (plus H (newPid c ts).1) ∧ (newPid c ts).1.isThread = false := by
  simp only [newPid]
  split
  · exact ⟨hs, hc⟩
  cases hfree : firstFree nn (ts .pid) with
  | none =>
    simp only [nsNew, hfree, map_none]
    exact ⟨hs, hc⟩
  | some n =>
    simp only [nsNew, hfree, map_some]
    obtain ⟨hlt, hused⟩ := mem_held_used hs (idx_mem hc .pid)
    obtain ⟨hn, hn0, hnu⟩ := firstFree_some hfree
    have hne : c.idx .pid ≠ n := by
      intro heq
      rw [heq, hnu] at hused
      cases hused
    refine ⟨fun k => ?_, hc⟩
    by_cases hk : k = .pid
    · subst hk
      have hcount : Counted Kind.pid.linked nn (ts .pid) (add (add (H .pid) c.kidns) (c.idx .pid)) := by
        have := (hs .pid).1
        simpa only [plus, Proc.held, hc, Bool.false_eq_true, if_false, if_true, adds_cons,
          adds_nil] using this
      have hnew : plus H { c with idx := update c.idx .pid n } .pid =
          add (add (H .pid) c.kidns) n := by
        simp only [plus, Proc.held, hc, Bool.false_eq_true, if_false, if_true, adds_cons,
          adds_nil, update_self]
      rw [hnew, nsPut, set_same, nsGet, set_same, set_same]
      generalize (if True then (ts .pid (c.idx .pid)).info + 1 else 0) = level
      have hmade : Counted Kind.pid.linked nn
          (make Kind.pid.linked (ts .pid) n (c.idx .pid) level) _ :=
        hcount.make hn hn0 hnu hlt hused
      have hget := hmade.get hn (by rw [make_used hne]; simp)
      rw [add_comm] at hget
      have hput := hget.put (live_card_le _)
      exact ⟨hput, ((((hs .pid).2.make hne).get n).put nn _).settle hput⟩
    rw [nsPut, set_other _ _ hk, nsGet, set_other _ _ hk, set_other _ _ hk]
    have hsame : plus H { c with idx := update c.idx .pid n } k = plus H c k := by
      simp [plus, Proc.held, hk]
    rw [hsame]
    exact hs k

theorem room_notPid (ts : Tables) (p : Proc) (hk : k ≠ .pid) :
    room ts p k = (firstFree nn (ts k)).isSome := by
  simp [room, tooDeep, hk]

theorem Whole.child (h : Whole ts p (notPid fl))
    (c : Proc) : Whole (getAll c ts) c (notPid fl) := by
  have hroom : ∀ k ∈ kinds.filter (notPid fl), room (getAll c ts) c k = room ts p k := by
    intro k hk
    have hne : k ≠ .pid := by
      have := (mem_filter.1 hk).2
      simp only [notPid, Bool.and_eq_true, decide_eq_true_eq] at this
      exact this.2
    rw [room_notPid _ _ hne, room_notPid _ _ hne, getAll_apply, firstFree_get]
  rcases h with hall | ⟨k, hk, hno⟩
  · exact .inl fun k hk => (hroom k hk).trans (hall k hk)
  · exact .inr ⟨k, hk, (hroom k (mem_of_head? hk)).trans hno⟩

theorem nsFork_sound (hs : Sound ts H) (hc : c.isThread = false)
    (hidx : ∀ k, p.idx k < nn ∧ (ts k (p.idx k)).used)
    (hpid : childPid p < nn ∧ (ts .pid (childPid p)).used) (hwhole : Whole ts p (notPid fl)) :
    Sound (nsFork p c fl ts).2 (plus H (nsFork p c fl ts).1) ∧
      (nsFork p c fl ts).1.isThread = false := by
  have hci : (inherit p c).isThread = false := hc
  have hcidx : ∀ k, (inherit p c).idx k < nn ∧ (ts k ((inherit p c).idx k)).used := by
    intro k
    by_cases hk : k = .pid
    · subst hk
      simpa [inherit] using hpid
    · simpa [inherit, hk] using hidx k
  have hget := getAll_sound hs hci rfl hcidx
  simp only [nsFork, hci, Bool.false_eq_true, if_false]
  rcases apply_whole (hwhole.child (inherit p c)) with ⟨c', ts', hok⟩ | hfail
  · obtain ⟨hs', hsame⟩ := apply_sound hci hget hok
    simp only [hok]
    split
    · exact newPid_sound (hsame.isThread.trans hci) hs'
    · exact ⟨hs', hsame.isThread.trans hci⟩
  simp only [hfail]
  split
  · exact newPid_sound hci hget
  · exact ⟨hget, hci⟩

structure Relabel (p p' : Proc) : Prop where
  isThread : p'.isThread = p.isThread
  tgid : p'.tgid = p.tgid
  idx : p'.idx = p.idx
  kidns : p'.kidns = p.kidns

theorem Relabel.held (h : Relabel p p') (k : Kind) : p'.held k = p.held k := by
  simp only [Proc.held, h.isThread, h.idx, h.kidns]

section

variable (hg : Good st)

include hg

theorem Good.relabel (p' : Proc) (h : st.procs[i]? = some p) (hrel : Relabel p p') :
    Good ⟨st.nst, st.procs.set i p'⟩ := by
  have hold : ∀ q ∈ st.procs.set i p', ∃ q₀ ∈ st.procs, Relabel q₀ q := by
    intro q hq
    rcases mem_or_eq_of_mem_set hq with hq | rfl
    · exact ⟨q, hq, rfl, rfl, rfl, rfl⟩
    · exact ⟨p, mem_of_getElem? h, hrel⟩
  have hnew : ∀ q ∈ st.procs, ∃ q' ∈ st.procs.set i p', Relabel q q' := by
    intro q hq
    obtain ⟨n, hn⟩ := mem_iff_getElem?.mp hq
    by_cases hni : i = n
    · subst hni
      rw [h] at hn
      cases hn
      have hlt := (List.getElem?_eq_some_iff.1 h).1
      exact ⟨p', mem_set hlt p', hrel⟩
    exact ⟨q, mem_iff_getElem?.mpr ⟨n, by rw [getElem?_set_ne hni, hn]⟩,
      rfl, rfl, rfl, rfl⟩
  refine ⟨?_, fun t ht hth => ?_, fun t ht hth => ?_⟩
  · have hsame : holders (st.procs.set i p') = holders st.procs := by
      rw [holders_set h, holders_erase h]
      funext k
      simp only [plus, hrel.held]
    rw [hsame]
    exact hg.sound
  · obtain ⟨t₀, ht₀, hr⟩ := hold t ht
    rw [hr.kidns]
    exact hg.kidns t₀ ht₀ (hr.isThread ▸ hth)
  obtain ⟨t₀, ht₀, hr⟩ := hold t ht
  obtain ⟨l, hl, hfol⟩ := hg.threads t₀ ht₀ (hr.isThread ▸ hth)
  obtain ⟨l', hl', hr'⟩ := hnew l hl
  refine ⟨l', hl', hr'.isThread.trans hfol.1, (hr'.tgid.trans hfol.2.1).trans hr.tgid.symm,
    fun k => ?_⟩
  rw [hr.idx, hr'.held]
  exact hfol.2.2 k

theorem Good.cons (hc : c.isThread = false) (hs : Sound ts (plus (holders st.procs) c)) :
    Good ⟨ts, c :: st.procs⟩ := by
  refine ⟨?_, fun t ht hth => ?_, fun t ht hth => ?_⟩
  · rw [holders_cons]
    exact hs
  · rcases mem_cons.1 ht with rfl | ht
    · rw [hc] at hth
      cases hth
    · exact hg.kidns t ht hth
  rcases mem_cons.1 ht with rfl | ht
  · rw [hc] at hth
    cases hth
  obtain ⟨l, hl, hfol⟩ := hg.threads t ht hth
  exact ⟨l, mem_cons_of_mem c hl, hfol⟩

theorem fork_good {fl : Option (Kind → Bool)} {pid : Nat} {e : Ending}
    (h : Regular st (.fork i fl pid e)) : Good (step st (.fork i fl pid e)) := by
  simp only [step, fork]
  cases hp : st.procs[i]? with
  | none => exact hg
  | some p =>
    have hmem := mem_of_getElem? hp
    cases e with
    | early => exact hg.relabel _ hp ⟨rfl, rfl, rfl, rfl⟩
    | late => exact h.elim
    | ok =>
      have hset := hg.relabel { p with nsfl := fun _ => false } hp ⟨rfl, rfl, rfl, rfl⟩
      have hidx : ∀ k, p.idx k < nn ∧ (st.nst k (p.idx k)).used := hg.idx_used hmem
      have hpid : childPid p < nn ∧ (st.nst .pid (childPid p)).used := hg.childPid_used hmem
      have hfork := nsFork_sound (p := { p with nsfl := fl.getD p.nsfl })
        (c := ⟨pid, pid, false, fun _ => 0, 0, fun _ => false⟩) hset.sound rfl hidx hpid (h p hp)
      exact hset.cons hfork.2 hfork.1

theorem cloneThread_good (i pid : Nat) (e : Ending) : Good (step st (.cloneThread i pid e)) := by
  simp only [step, cloneThread]
  cases hp : st.procs[i]? with
  | none => exact hg
  | some p =>
    have hmem := mem_of_getElem? hp
    have hset := hg.relabel { p with nsfl := fun _ => false } hp ⟨rfl, rfl, rfl, rfl⟩
    cases e with
    | early => exact hg
    | late => exact hset
    | ok =>
      have hlt := (List.getElem?_eq_some_iff.1 hp).1
      refine ⟨?_, fun t ht hth => ?_, fun t ht hth => ?_⟩
      · rw [holders_cons, plus_thread rfl]
        exact hset.sound
      · rcases mem_cons.1 ht with rfl | ht
        · rfl
        · exact hset.kidns t ht hth
      rcases mem_cons.1 ht with rfl | ht
      swap
      · obtain ⟨l, hl, hfol⟩ := hset.threads t ht hth
        exact ⟨l, mem_cons_of_mem _ hl, hfol⟩
      -- the new thread has the indices of the caller, and so of the leader
      cases hpt : p.isThread with
      | false =>
        refine ⟨{ p with nsfl := fun _ => false },
          mem_cons_of_mem _ (mem_set hlt _), hpt, rfl, fun k => ?_⟩
        change _ ∈ p.held k
        by_cases hk : k = .pid
        · subst hk
          simpa [nsFork, inherit] using childPid_mem hpt
        · simpa [nsFork, inherit, hk] using idx_mem hpt k
      | true =>
        have hself : { p with nsfl := fun _ => false } ∈ st.procs.set i
            { p with nsfl := fun _ => false } := mem_set hlt _
        obtain ⟨l, hl, hfol⟩ := hset.threads _ hself hpt
        refine ⟨l, mem_cons_of_mem _ hl, hfol.1, hfol.2.1, fun k => ?_⟩
        have hkid : childPid p = p.idx .pid := by
          simp [childPid, hg.kidns p hmem hpt]
        by_cases hk : k = .pid
        · subst hk
          simpa [nsFork, inherit, hkid] using hfol.2.2 .pid
        · simpa [nsFork, inherit, hk] using hfol.2.2 k

end

/-! ## Exits -/

theorem putAll_apply (p : Proc) (ts : Tables) (k : Kind) : putAll p ts k =
      if k = .pid then put true nn (put true nn (ts .pid) (p.idx .pid)) p.kidns
      else put k.linked nn (ts k) (p.idx k) := by
  cases k <;> simp [putAll, kinds, nsPut, Tables.set, Kind.linked]

theorem putAll_sound (hp : p.isThread = false)
    (hs : Sound ts (plus H p)) : Sound (putAll p ts) H := by
  intro k
  have hk := hs k
  rw [putAll_apply]
  simp only [plus, Proc.held, hp, Bool.false_eq_true, if_false] at hk
  split
  next hkp =>
    subst hkp
    simp only [if_true, adds_cons, adds_nil] at hk
    exact ⟨(hk.1.put (live_card_le _)).put (live_card_le _), (hk.2.put nn _).put nn _⟩
  next hkp =>
  simp only [if_neg hkp, adds_cons, adds_nil] at hk
  exact ⟨hk.1.put (live_card_le _), hk.2.put nn _⟩

section

variable (hg : Good st) (i : Nat)

include hg

theorem exit_good : Good (step st (.exit i)) := by
  simp only [step, exit]
  cases hp : st.procs[i]? with
  | none => exact hg
  | some p =>
    simp only
    split
    · exact hg
    next hth =>
    have hth : p.isThread = false := by simpa using hth
    have hthread : ∀ q ∈ st.procs.eraseIdx i,
        (!(q.isThread && q.tgid = p.tgid)) = false → q.isThread := by
      intro q _ hq
      simp only [Bool.not_eq_false', Bool.and_eq_true] at hq
      exact hq.1
    refine ⟨?_, fun t ht hthr => ?_, fun t ht hthr => ?_⟩
    · rw [holders_filter hthread]
      exact putAll_sound hth (sound_erase hg hp)
    · exact hg.kidns t (mem_of_mem_eraseIdx (mem_filter.1 ht).1) hthr
    obtain ⟨ht, hkeep⟩ := mem_filter.1 ht
    simp only [hthr, Bool.true_and, Bool.not_eq_true', decide_eq_false_iff_not] at hkeep
    obtain ⟨l, hl, hfol⟩ := hg.threads t (mem_of_mem_eraseIdx ht) hthr
    have hne : l.tgid ≠ p.tgid := hfol.2.1.trans_ne hkeep
    obtain ⟨n, hn⟩ := mem_iff_getElem?.mp hl
    have hni : n ≠ i := by
      intro heq
      rw [heq, hp] at hn
      cases hn
      exact hne rfl
    refine ⟨l, mem_filter.2 ⟨mem_eraseIdx_iff_getElem?.mpr ⟨n, hni, hn⟩, ?_⟩, hfol⟩
    simp [hfol.1]

theorem threadExit_good : Good (step st (.threadExit i)) := by
  simp only [step, threadExit]
  cases hp : st.procs[i]? with
  | none => exact hg
  | some p =>
    simp only
    split
    swap
    · exact hg
    next hth =>
    refine ⟨?_, fun t ht hthr => ?_, fun t ht hthr => ?_⟩
    · have := sound_erase hg hp
      rwa [plus_thread hth] at this
    · exact hg.kidns t (mem_of_mem_eraseIdx ht) hthr
    obtain ⟨l, hl, hfol⟩ := hg.threads t (mem_of_mem_eraseIdx ht) hthr
    obtain ⟨n, hn⟩ := mem_iff_getElem?.mp hl
    have hni : n ≠ i := by
      intro heq
      rw [heq, hp] at hn
      cases hn
      rw [hfol.1] at hth
      cases hth
    exact ⟨l, mem_eraseIdx_iff_getElem?.mpr ⟨n, hni, hn⟩, hfol⟩

theorem spawn_good (pid : Nat) : Good (step st (.spawn pid)) := by
  refine hg.cons rfl fun k => ⟨?_, (hg.sound k).2⟩
  have hroot : Counted k.linked nn (st.nst k) (add (holders st.procs k) 0) :=
    (Counted.root_iff nn_pos).2 (hg.sound k).1
  by_cases hk : k = .pid
  · subst hk
    simpa only [plus, Proc.held, Bool.false_eq_true, if_false, if_true, adds_cons, adds_nil] using
      (Counted.root_iff nn_pos).2 hroot
  simpa only [plus, Proc.held, Bool.false_eq_true, if_false, if_neg hk, adds_cons, adds_nil] using
    hroot

theorem step_good {op : Op} (h : Regular st op) : Good (step st op) := by
  cases op with
  | unshare i fl => exact unshare_good hg h
  | setns i k j => exact setns_good hg h
  | fork i fl pid e => exact fork_good hg h
  | cloneThread i pid e => exact cloneThread_good hg i pid e
  | exit i => exact exit_good hg i
  | exitCut i => exact h.elim
  | threadExit i => exact threadExit_good hg i
  | spawn pid => exact spawn_good hg pid

end

theorem boot_good : Good boot := by
  refine ⟨fun k => ⟨⟨rfl, fun i hi => ?_, fun _ i _ h0 hu => ?_, fun i _ h0 hu => ?_⟩,
    fun i _ h0 hu => ?_⟩, nofun, nofun⟩
  · cases hi
  all_goals simp [boot, bootTable, h0] at hu

theorem run_good (hg : Good st) {ops : List Op} (h : RegularRun st ops) : Good (run st ops) := by
  induction ops generalizing st with
  | nil => exact hg
  | cons op ops ih => exact ih (step_good hg h.1) h.2

/-- In every state that a regular run reaches, every namespace but the initial ones has as many
references as are held, at least one, and every live process points to namespaces that are
there. -/
theorem refs_right (ops : List Op) (h : RegularRun boot ops) : Right (run boot ops) :=
  (run_good boot_good h).right

/-- A child in its own user and pid namespace comes and goes. -/
theorem refs_right_container :
    Right (run boot [.spawn 1, .fork 0 (some fun k => k = .user || k = .pid) 2 .ok, .exit 0]) := by
  apply refs_right
  refine ⟨trivial, fun p hp => ?_, trivial, trivial⟩
  cases hp
  exact .inl (by decide)

/-- An initial namespace is not counted.  A thread that joins another namespace gives back the
reference of its leader, whose namespace is then gone.  A fork that fails in `start_task` keeps
the references of its child.  A teardown that is entered again puts the pid namespace twice, so that
it is gone while another process is in it. -/
theorem refs_wrong :
    let st := run boot [.spawn 1]
    let own := run boot [.spawn 1, .unshare 0 fun k => k = .uts]
    let joined := run own [.cloneThread 0 2 .ok, .setns 0 .uts 0]
    let failed := run own [.fork 0 none 2 .late]
    let inside := run boot [.spawn 1, .fork 0 (some fun k => k = .pid) 2 .ok, .fork 0 none 3 .ok]
    let twice := run inside [.exitCut 1, .exit 1]
    (st.nst .mnt 0).used ∧
      (st.nst .mnt 0).refs ≠ holders st.procs .mnt 0 + fromKids Kind.mnt.linked nn (st.nst .mnt) 0 ∧
      (joined.procs.any fun p => !p.isThread && p.idx .uts = 1) ∧ (joined.nst .uts 1).used = false ∧
      (failed.nst .uts 1).refs = 2 ∧ holders failed.procs .uts 1 = 1 ∧
      (inside.nst .pid 1).refs = 2 ∧ (twice.procs.any fun p => p.pid = 3 && p.idx .pid = 1) ∧
      (twice.nst .pid 1).used = false := by
  decide +kernel

end SamaraOS.Namespaces
