import SamaraOS.Fs.Quota

/-!
# What a tmpfs stores and what its counters say

`stored` is the sum of the sizes of the files of a volume, each counted once.  The walk of a
recount finds just that; the counters of the slot are an estimate from above, and the question
for more bytes is refused exactly when they do not fit.
-/

namespace SamaraOS.Quota

open Siblings Option

section

variable (ms : List Mnt)

def limitOf (m : Nat) : Option (Nat × Nat) :=
  (findAt ms m).bind fun k => (ms[k]?).bind fun e =>
    if e.kind = .tmp ∧ e.limit ≠ 0 then some (k, e.limit) else none

def weight (m : Nat) (s : Place) (_ : Nat) (a : Info) : Nat :=
  if s.owner = some m ∧ a.hl = none ∧ a.kind = .file ∧ a.dev = false then a.size else 0

def stored (t : Siblings Info) (m : Nat) : Nat := total (inner ms) (weight m) {} t

def Mounted (t : Siblings Info) (m : Nat) : Prop :=
  ∃ s a kids, look ms t m = some (s, a, kids) ∧ a.mountId ≠ 0

/-- No node twice, nothing below a leaf, and the counters of every limited tmpfs are at least
what it stores and at most its limit. -/
structure Accounted (st : State) : Prop where
  nodup : st.tree.ids.Nodup
  bare : st.tree.Bare leaf
  counted : ∀ m k lim, Mounted ms st.tree m → limitOf ms m = some (k, lim) →
    stored ms st.tree m ≤ (st.use k).usedB + (st.use k).added ∧
      (st.use k).usedB + (st.use k).added ≤ lim

end

variable {ms : List Mnt} {m : Nat} {t : Siblings Info} {a : Info} {s' : Place}

/-! ## Bytes by volume -/

theorem limitOf_spec {k lim : Nat} (h : limitOf ms m = some (k, lim)) :
    ∃ e, findAt ms m = some k ∧ ms[k]? = some e ∧ e.node = m ∧ e.kind = .tmp ∧ e.limit ≠ 0 ∧
      e.limit = lim := by
  rw [limitOf, bind_eq_some_iff] at h
  obtain ⟨j, hj, h⟩ := h
  rw [bind_eq_some_iff] at h
  obtain ⟨e, he, h⟩ := h
  split_ifs at h with hc
  cases h
  refine ⟨e, hj, he, ?_, hc.1, hc.2, rfl⟩
  rw [findAt, List.findIdx?_eq_some_iff_getElem] at hj
  obtain ⟨hlt, hp, -⟩ := hj
  rw [List.getElem?_eq_getElem hlt, some.injEq] at he
  rw [he] at hp
  simpa using (Bool.and_eq_true_iff.1 hp).2

theorem inner_owner (s : Place) (i : Nat) (a : Info) :
    (inner ms s i a).owner = if a.mountId ≠ 0 then some i else s.owner := rfl

variable {s : Place} {kids : Siblings Info} {st : State}

theorem weight_congr (h : s.owner = s'.owner) (i : Nat) (a : Info) :
    weight m s i a = weight m s' i a := by
  rw [weight, weight, h]

theorem total_congr (h : s.owner = s'.owner) :
    total (inner ms) (weight m) s t = total (inner ms) (weight m) s' t := by
  induction t generalizing s s' with
  | nil => rfl
  | node i a child next ihc ihn =>
    have hin : (inner ms s i a).owner = (inner ms s' i a).owner := by
      rw [inner_owner, inner_owner, h]
    rw [total, total, weight_congr h, ihc hin, ihn h]

theorem total_le (h : s.owner ≠ some m) (s' : Place) :
    total (inner ms) (weight m) s t ≤ total (inner ms) (weight m) s' t := by
  induction t generalizing s s' with
  | nil => exact Nat.le_refl 0
  | node i a child next ihc ihn =>
    have hw : weight m s i a = 0 := by simp [weight, h]
    have hc : total (inner ms) (weight m) (inner ms s i a) child ≤
        total (inner ms) (weight m) (inner ms s' i a) child := by
      by_cases ha : a.mountId = 0
      · exact ihc (by simpa [inner_owner, ha] using h) _
      · exact Nat.le_of_eq (total_congr (by simp [inner_owner, ha]))
    have hx := ihn h s'
    rw [total, total, hw]
    omega

theorem total_eq_zero (hm : m ∉ t.ids) (h : s.owner ≠ some m) :
    total (inner ms) (weight m) s t = 0 := by
  induction t generalizing s with
  | nil => rfl
  | node i a child next ihc ihn =>
    simp only [ids, List.mem_cons, List.mem_append, not_or] at hm
    have hin : (inner ms s i a).owner ≠ some m := by
      rw [inner_owner]
      split_ifs
      · exact fun he => hm.1 (some.inj he).symm
      · exact h
    rw [total, ihc hm.2.1 hin, ihn hm.2.2 h, weight, if_neg fun hc => h hc.1]

theorem walk_eq (hb : t.Bare leaf) (hm : m ∉ t.ids) (h : s.owner = some m) :
    (walk t).1 = total (inner ms) (weight m) s t := by
  induction t generalizing s with
  | nil => rfl
  | node i a child next ihc ihn =>
    simp only [ids, List.mem_cons, List.mem_append, not_or] at hm
    have hx := ihn hb.2.2 hm.2.2 h
    have hc := @ihc (inner ms s i a) hb.2.1 hm.2.1
    have hz := @total_eq_zero ms m child (inner ms s i a) hm.2.1
    rw [walk, total]
    by_cases hl : a.hl.isSome
    · have hk : child = nil := hb.1 (by simp [leaf, hl])
      have hn : a.hl ≠ none := isSome_iff_ne_none.1 hl
      simp [hl, hx, hk, weight, hn, total]
    have hn : a.hl = none := by simpa using hl
    by_cases hd : a.kind = .dir
    · by_cases ha : a.mountId = 0
      · simp [hx, hd, ha, weight, hn, hc (by simp [inner_owner, ha, h])]
      have hi : (inner ms s i a).owner ≠ some m := by
        rw [inner_owner, if_pos ha]
        exact fun he => hm.1 (some.inj he).symm
      simp [hx, hd, ha, weight, hn, hz hi]
    have hk : child = nil := hb.1 (by simp [leaf, hd])
    simp [hx, hd, weight, hn, h, hk, total]

theorem owner_of_find {c : Place} {j : Nat} (hn : t.ids.Nodup) (h : find (inner ms) s j t = some (c, a, kids)) :
    c.owner = s.owner ∨ ∃ p, c.owner = some p ∧ p ∈ t.ids ∧ p ∉ j :: kids.ids := by
  induction t generalizing s with
  | nil => cases h
  | node k b child next ihc ihn =>
    obtain ⟨hnc, hnn⟩ := nodup_parts hn
    rcases find_cases (inner ms) hn h with ⟨rfl, hr⟩ | ⟨hk, hc, hi⟩ | ⟨hk, hx, hi⟩
    · cases hr
      exact Or.inl rfl
    · rcases ihc hnc hc with ho | ⟨p, hp, hpc, hpj⟩
      · rw [inner_owner] at ho
        split_ifs at ho with hb
        · refine Or.inr ⟨k, ho, by simp [ids], fun hkj => ?_⟩
          have hin : k ∈ child.ids := by
            rw [(ids_detach_perm (inner ms) hnc hc).mem_iff, ← List.cons_append]
            exact List.mem_append_left _ hkj
          exact (List.nodup_cons.1 hn).1 (List.mem_append_left _ hin)
        · exact Or.inl ho
      · exact Or.inr ⟨p, hp, by simp [ids, hpc], hpj⟩
    rcases ihn hnn hx with ho | ⟨p, hp, hpc, hpj⟩
    · exact Or.inl ho
    · exact Or.inr ⟨p, hp, by simp [ids, hpc], hpj⟩

theorem stored_eq_walk (hn : t.ids.Nodup) (hb : t.Bare leaf)
    (h : look ms t m = some (s, a, kids)) (ha : a.mountId ≠ 0) : stored ms t m = (walk kids).1 := by
  have ho : s.owner ≠ some m := by
    rcases owner_of_find hn h with ho | ⟨p, hp, -, hpm⟩
    · rw [ho]
      exact nofun
    rintro hs
    rw [hp] at hs
    exact hpm (by simp [some.inj hs])
  have hk : m ∉ kids.ids := (List.nodup_cons.1 (nodup_detach (inner ms) hn h).1).1
  have hd := notMem_detach (inner ms) hn h (List.mem_cons_self)
  rw [stored, total_detach (inner ms) _ hn h, total_eq_zero hd (by simp),
    ← walk_eq (hb.find (inner ms) h).2 hk (by simp [inner_owner, ha]),
    weight, if_neg fun hc => ho hc.1]
  omega

/-! ## The counters -/

@[simp] theorem setUse_self (st : State) (k : Nat) (u : Use) : (st.setUse k u).use k = u := by
  simp [State.setUse]

theorem setUse_ne (st : State) {k j : Nat} (u : Use) (h : j ≠ k) :
    (st.setUse k u).use j = st.use j := by
  simp [State.setUse, h]

theorem recount_spec {e : Mnt} {u : Use} (hn : st.tree.ids.Nodup)
    (hb : st.tree.Bare leaf) (hm : Mounted ms st.tree m) (he : e.node = m) :
    (recount ms st e u).usedB = stored ms st.tree m % 2 ^ 64 ∧ (recount ms st e u).added = 0 := by
  obtain ⟨s, a, kids, hl, ha⟩ := hm
  rw [recount, he, hl, stored_eq_walk hn hb hl ha]
  exact ⟨rfl, rfl⟩

theorem Accounted.setUse (h : Accounted ms st) {k : Nat} {u : Use}
    (hu : ∀ m lim, Mounted ms st.tree m → limitOf ms m = some (k, lim) →
      stored ms st.tree m ≤ u.usedB + u.added ∧ u.usedB + u.added ≤ lim) :
    Accounted ms (st.setUse k u) where
  nodup := h.nodup
  bare := h.bare
  counted m j lim hm hl := by
    by_cases hj : j = k
    · subst hj
      rw [setUse_self]
      exact hu m lim hm hl
    rw [setUse_ne st u hj]
    exact h.counted m j lim hm hl

section

variable (hroom : ∀ e ∈ ms, e.limit + 2 ^ 32 ≤ 2 ^ 64) {e : Mnt}

include hroom

variable {st : State}

section

variable (h : Accounted ms st)

include h

theorem Accounted.recount_eq {k lim : Nat} (he : ms[k]? = some e)
    (hm : Mounted ms st.tree m) (hl : limitOf ms m = some (k, lim)) :
    (recount ms st e (st.use k)).usedB = stored ms st.tree m ∧
      (recount ms st e (st.use k)).added = 0 := by
  obtain ⟨e', -, he', hnode, -, -, hlim⟩ := limitOf_spec hl
  rw [he] at he'
  cases he'
  have hc := h.counted m k lim hm hl
  have hr := hroom e (List.mem_of_getElem? he)
  have hs := @recount_spec ms m st e (st.use k) h.nodup h.bare hm hnode
  rw [hs.1, hs.2, Nat.mod_eq_of_lt (by omega)]
  exact ⟨rfl, rfl⟩

theorem Accounted.recount {k : Nat} (he : ms[k]? = some e) :
    Accounted ms (st.setUse k (recount ms st e (st.use k))) := by
  refine h.setUse fun m lim hm hl => ?_
  have hc := h.counted m k lim hm hl
  obtain ⟨hu, ha⟩ := h.recount_eq hroom he hm hl
  omega

theorem mntNewnode_spec (dir : Nat) :
    Accounted ms (mntNewnode ms st dir).2 ∧ (mntNewnode ms st dir).2.tree = st.tree := by
  rw [mntNewnode]
  cases mntFind ms st.tree dir with
  | none => exact ⟨h, rfl⟩
  | some k =>
    dsimp only
    cases he : ms[k]? with
    | none => exact ⟨h, rfl⟩
    | some e =>
      dsimp only
      split_ifs
      · exact ⟨h, rfl⟩
      · exact ⟨h, rfl⟩
      · exact ⟨h.recount hroom he, rfl⟩
      · exact ⟨h.recount hroom he, rfl⟩

theorem mntGrow_spec {n new : Nat} {s : Place} {kids : Siblings Info}
    (hl : look ms st.tree n = some (s, a, kids)) (hnew : new < 2 ^ 32) :
    Accounted ms (mntGrow ms st n new).2 ∧ (mntGrow ms st n new).2.tree = st.tree ∧
      ∀ m k lim, Mounted ms st.tree m → limitOf ms m = some (k, lim) →
        mntFind ms st.tree n = some k →
        ((mntGrow ms st n new).1 = none → stored ms st.tree m + (new - a.size) ≤
          ((mntGrow ms st n new).2.use k).usedB + ((mntGrow ms st n new).2.use k).added) ∧
        (slotRo ms (some k) = false → ((mntGrow ms st n new).1 = some .ENOSPC ↔
          a.size < new ∧ lim < stored ms st.tree m + (new - a.size))) := by
  have hfind : mntFind ms st.tree n = (inner ms s n a).entry := by rw [mntFind, hl]; rfl
  rw [mntGrow, hl, hfind]
  dsimp only
  cases hent : (inner ms s n a).entry with
  | none => exact ⟨h, rfl, fun m k lim _ _ hk => nomatch hk⟩
  | some j =>
    dsimp only
    cases he : ms[j]? with
    | none =>
      refine ⟨h, rfl, fun m k lim _ hk hj => ?_⟩
      obtain ⟨e, -, he', -⟩ := limitOf_spec hk
      rw [some.inj hj, he'] at he
      cases he
    | some e =>
      dsimp only
      have hr := hroom e (List.mem_of_getElem? he)
      -- the slot asked is that of every volume the statement speaks of
      have hslot : ∀ {m k lim}, limitOf ms m = some (k, lim) → some j = some k →
          j = k ∧ e.kind = .tmp ∧ e.limit ≠ 0 ∧ e.limit = lim := by
        intro m k lim hk hj
        obtain ⟨e', -, he', -, ht, h0, hlim⟩ := limitOf_spec hk
        rw [← some.inj hj, he] at he'
        cases he'
        exact ⟨some.inj hj, ht, h0, hlim⟩
      by_cases hro : e.ro
      · rw [if_pos hro]
        refine ⟨h, rfl, fun m k lim _ hk hj => ⟨nofun, fun hs => ?_⟩⟩
        rw [← (hslot hk hj).1] at hs
        simp [slotRo, he, hro] at hs
      rw [if_neg hro]
      by_cases hskip : e.kind ≠ .tmp ∨ e.limit = 0 ∨ new ≤ a.size
      · rw [if_pos hskip]
        refine ⟨h, rfl, fun m k lim hm hk hj => ?_⟩
        obtain ⟨rfl, ht, h0, -⟩ := hslot hk hj
        have hle : new ≤ a.size := by
          rcases hskip with hx | hx | hx
          · exact absurd ht hx
          · exact absurd hx h0
          · exact hx
        have hc := h.counted m j lim hm hk
        refine ⟨fun _ => by dsimp only; omega, fun _ => ⟨nofun, fun hx => ?_⟩⟩
        omega
      rw [if_neg hskip]
      simp only [not_or, Nat.not_le] at hskip
      have hsize := hskip.2.2
      by_cases hest : e.limit < ((st.use j).usedB + (st.use j).added + (new - a.size)) % 2 ^ 64
      · rw [if_pos hest]
        by_cases hfull : e.limit < ((recount ms st e (st.use j)).usedB + (new - a.size)) % 2 ^ 64
        · rw [if_pos hfull]
          refine ⟨h.recount hroom he, rfl, fun m k lim hm hk hj => ⟨nofun, fun _ => ?_⟩⟩
          obtain ⟨rfl, -, -, rfl⟩ := hslot hk hj
          have hc := h.counted m j _ hm hk
          rw [(h.recount_eq hroom he hm hk).1, Nat.mod_eq_of_lt (by omega)] at hfull
          exact ⟨fun _ => ⟨hsize, hfull⟩, fun _ => rfl⟩
        rw [if_neg hfull]
        have hput : ∀ m lim, Mounted ms st.tree m → limitOf ms m = some (j, lim) →
            stored ms st.tree m + (new - a.size) ≤ lim ∧
            (recount ms st e (st.use j)).usedB = stored ms st.tree m ∧
            ((recount ms st e (st.use j)).added + (new - a.size)) % 2 ^ 64 = new - a.size := by
          intro m lim hm hk
          obtain ⟨-, -, -, rfl⟩ := hslot hk rfl
          have hc := h.counted m j _ hm hk
          obtain ⟨hu, ha⟩ := h.recount_eq hroom he hm hk
          omega
        refine ⟨h.setUse fun m lim hm hk => ?_, rfl, fun m k lim hm hk hj => ?_⟩
        · obtain ⟨h1, h2, h3⟩ := hput m lim hm hk
          dsimp only
          omega
        obtain ⟨rfl, -, -, rfl⟩ := hslot hk hj
        obtain ⟨h1, h2, h3⟩ := hput m _ hm hk
        rw [setUse_self]
        dsimp only
        exact ⟨fun _ => by omega, fun _ => ⟨nofun, fun hx => by omega⟩⟩
      rw [if_neg hest]
      have hput : ∀ m lim, Mounted ms st.tree m → limitOf ms m = some (j, lim) →
          stored ms st.tree m ≤ (st.use j).usedB + (st.use j).added ∧
          (st.use j).usedB + (st.use j).added + (new - a.size) ≤ lim ∧
          ((st.use j).added + (new - a.size)) % 2 ^ 64 = (st.use j).added + (new - a.size) := by
        intro m lim hm hk
        obtain ⟨-, -, -, rfl⟩ := hslot hk rfl
        have hc := h.counted m j _ hm hk
        omega
      refine ⟨h.setUse fun m lim hm hk => ?_, rfl, fun m k lim hm hk hj => ?_⟩
      · obtain ⟨h1, h2, h3⟩ := hput m lim hm hk
        dsimp only
        omega
      obtain ⟨rfl, -, -, rfl⟩ := hslot hk hj
      obtain ⟨h1, h2, h3⟩ := hput m _ hm hk
      rw [setUse_self]
      dsimp only
      exact ⟨fun _ => by omega, fun _ => ⟨nofun, fun hx => by omega⟩⟩

end

end

end SamaraOS.Quota
