import Mathlib

/-!
# Trees of child and next pointers

A node points at its first child and at its next sibling, so a directory's children are a chain.
Walking down, each node hands a context to its children; `total` sums a weight that may depend on
that context.  Taking a node out, hanging one in and rewriting one change a total by what stands
at that place, in its context.
-/

namespace SamaraOS

open List Option

inductive Siblings (α : Type*) where
  | nil
  | node (id : Nat) (a : α) (child next : Siblings α)

namespace Siblings

variable {α σ M : Type*} {d : Nat} {f : α → α} {r : σ × α × Siblings α}

def ids : Siblings α → List Nat
  | nil => []
  | node i _ child next => i :: (ids child ++ ids next)

def find (inner : σ → Nat → α → σ) (s : σ) (i : Nat) : Siblings α → Option (σ × α × Siblings α)
  | nil => none
  | node j a child next =>
    if j = i then some (s, a, child)
    else (find inner (inner s j a) i child).or (find inner s i next)

def detach (i : Nat) : Siblings α → Siblings α
  | nil => nil
  | node j a child next =>
    if j = i then next else node j a (detach i child) (detach i next)

def attach (d i : Nat) (a : α) (kids : Siblings α) : Siblings α → Siblings α
  | nil => nil
  | node j b child next =>
    if j = d then node j b (node i a kids child) next
    else node j b (attach d i a kids child) (attach d i a kids next)

def modify (i : Nat) (f : α → α) : Siblings α → Siblings α
  | nil => nil
  | node j a child next =>
    if j = i then node j (f a) child next else node j a (modify i f child) (modify i f next)

section

variable (inner : σ → Nat → α → σ) {s : σ} {i : Nat} {T : Siblings α}

theorem find_eq_none : find inner s i T = none ↔ i ∉ T.ids := by
  induction T generalizing s with
  | nil => simp [find, ids]
  | node j a child next ihc ihn =>
    by_cases hj : j = i
    · simp [find, ids, hj]
    · simp [find, ids, hj, ihc, ihn, Ne.symm hj]

theorem mem_ids_of_find (h : find inner s i T = some r) : i ∈ T.ids := by
  by_contra hi
  rw [(find_eq_none inner).2 hi] at h
  cases h

theorem detach_of_notMem (h : i ∉ T.ids) : detach i T = T := by
  induction T with
  | nil => rfl
  | node j a child next ihc ihn =>
    simp only [ids, mem_cons, mem_append, not_or] at h
    rw [detach, if_neg (Ne.symm h.1), ihc h.2.1, ihn h.2.2]

theorem attach_of_notMem {a : α} {kids : Siblings α} (h : d ∉ T.ids) :
    attach d i a kids T = T := by
  induction T with
  | nil => rfl
  | node j b child next ihc ihn =>
    simp only [ids, mem_cons, mem_append, not_or] at h
    rw [attach, if_neg (Ne.symm h.1), ihc h.2.1, ihn h.2.2]

theorem modify_of_notMem (h : i ∉ T.ids) : modify i f T = T := by
  induction T with
  | nil => rfl
  | node j b child next ihc ihn =>
    simp only [ids, mem_cons, mem_append, not_or] at h
    rw [modify, if_neg (Ne.symm h.1), ihc h.2.1, ihn h.2.2]

theorem find_cases {j : Nat} {b : α} {child next : Siblings α}
    (hn : (node j b child next).ids.Nodup) (h : find inner s i (node j b child next) = some r) :
    (j = i ∧ r = (s, b, child)) ∨
      (j ≠ i ∧ find inner (inner s j b) i child = some r ∧ i ∉ next.ids) ∨
      (j ≠ i ∧ find inner s i next = some r ∧ i ∉ child.ids) := by
  simp only [ids, nodup_cons, nodup_append] at hn
  rw [find] at h
  split_ifs at h with hj
  · exact .inl ⟨hj, (some.inj h).symm⟩
  rcases or_eq_some_iff.1 h with hc | ⟨hnone, hnx⟩
  · refine .inr (.inl ⟨hj, hc, fun hi => ?_⟩)
    exact hn.2.2.2 i (mem_ids_of_find inner hc) i hi rfl
  · exact .inr (.inr ⟨hj, hnx, (find_eq_none inner).1 hnone⟩)

end

/-! ## Totals -/

section

variable [AddCommMonoid M] (inner : σ → Nat → α → σ) (w : σ → Nat → α → M) {b : α}

def total (s : σ) : Siblings α → M
  | nil => 0
  | node i a child next => w s i a + total (inner s i a) child + total s next

theorem nodup_parts {j : Nat} {child next : Siblings α}
    (hn : (node j b child next).ids.Nodup) : child.ids.Nodup ∧ next.ids.Nodup := by
  simp only [ids, nodup_cons, nodup_append] at hn
  exact ⟨hn.2.1, hn.2.2.1⟩

variable {c s : σ} {i : Nat} {a : α} {T kids : Siblings α}

theorem total_detach (hn : T.ids.Nodup) (h : find inner s i T = some (c, a, kids)) :
    total inner w s T =
      w c i a + total inner w (inner c i a) kids + total inner w s (detach i T) := by
  induction T generalizing s with
  | nil => cases h
  | node j b child next ihc ihn =>
    obtain ⟨hnc, hnn⟩ := nodup_parts hn
    rcases find_cases inner hn h with ⟨rfl, hr⟩ | ⟨hj, hc, hi⟩ | ⟨hj, hx, hi⟩
    · cases hr
      rw [detach, if_pos rfl, total]
    · rw [detach, if_neg hj, detach_of_notMem hi, total, total, ihc hnc hc]
      abel
    rw [detach, if_neg hj, detach_of_notMem hi, total, total, ihn hnn hx]
    abel

theorem total_attach {kids' : Siblings α}
    (hn : T.ids.Nodup) (h : find inner s d T = some (c, b, kids')) :
    total inner w s (attach d i a kids T) =
      w (inner c d b) i a + total inner w (inner (inner c d b) i a) kids + total inner w s T := by
  induction T generalizing s with
  | nil => cases h
  | node j b' child next ihc ihn =>
    obtain ⟨hnc, hnn⟩ := nodup_parts hn
    rcases find_cases inner hn h with ⟨rfl, hr⟩ | ⟨hj, hc, hi⟩ | ⟨hj, hx, hi⟩
    · cases hr
      rw [attach, if_pos rfl, total, total, total]
      abel
    · rw [attach, if_neg hj, attach_of_notMem hi, total, total, ihc hnc hc]
      abel
    rw [attach, if_neg hj, attach_of_notMem hi, total, total, ihn hnn hx]
    abel

theorem total_modify (hn : T.ids.Nodup) (hf : inner c i (f a) = inner c i a)
    (h : find inner s i T = some (c, a, kids)) :
    total inner w s (modify i f T) + w c i a = total inner w s T + w c i (f a) := by
  induction T generalizing s with
  | nil => cases h
  | node j b child next ihc ihn =>
    obtain ⟨hnc, hnn⟩ := nodup_parts hn
    rcases find_cases inner hn h with ⟨rfl, hr⟩ | ⟨hj, hc, hi⟩ | ⟨hj, hx, hi⟩
    · cases hr
      rw [modify, if_pos rfl, total, total, hf]
      abel
    · rw [modify, if_neg hj, modify_of_notMem hi, total, total]
      have := congrArg (w s j b + · + total inner w s next) (ihc hnc hc)
      convert this using 1 <;> abel
    rw [modify, if_neg hj, modify_of_notMem hi, total, total]
    have := congrArg (w s j b + total inner w (inner s j b) child + ·) (ihn hnn hx)
    convert this using 1 <;> abel

theorem total_const (v : Nat → α → M) (s s' : σ) (T : Siblings α) :
    total inner (fun _ i a => v i a) s T = total inner (fun _ i a => v i a) s' T := by
  induction T generalizing s s' with
  | nil => rfl
  | node i a child next ihc ihn =>
    rw [total, total, ihc (inner s i a) (inner s' i a), ihn s s']

theorem coe_ids (s : σ) (T : Siblings α) :
    (T.ids : Multiset Nat) = total inner (fun _ i _ => {i}) s T := by
  induction T generalizing s with
  | nil => rfl
  | node i a child next ihc ihn =>
    rw [ids, total, ← ihc (inner s i a), ← ihn s, ← Multiset.cons_coe, ← Multiset.coe_add,
      ← Multiset.singleton_add, add_assoc]

end

section

variable (inner : σ → Nat → α → σ) {c s : σ} {i j : Nat} {a b : α} {T kids kids' : Siblings α}

section

variable (hn : T.ids.Nodup)

include hn

theorem ids_detach_perm (h : find inner s i T = some (c, a, kids)) :
    List.Perm T.ids (i :: (kids.ids ++ (detach i T).ids)) := by
  rw [← Multiset.coe_eq_coe, coe_ids inner s T, total_detach inner _ hn h, ← coe_ids, ← coe_ids,
    ← Multiset.cons_coe, ← Multiset.coe_add, ← Multiset.singleton_add, add_assoc]

theorem ids_attach_perm (h : find inner s d T = some (c, b, kids')) :
    List.Perm (attach d i a kids T).ids (i :: (kids.ids ++ T.ids)) := by
  rw [← Multiset.coe_eq_coe, coe_ids inner s, total_attach inner _ hn h, ← coe_ids, ← coe_ids,
    ← Multiset.cons_coe, ← Multiset.coe_add, ← Multiset.singleton_add, add_assoc]

omit hn in
theorem ids_modify (i : Nat) (f : α → α) (T : Siblings α) : (modify i f T).ids = T.ids := by
  induction T with
  | nil => rfl
  | node j a child next ihc ihn =>
    rw [modify]
    split_ifs
    · rfl
    · rw [ids, ids, ihc, ihn]

omit hn in
theorem find_of_mem (h : i ∈ T.ids) : ∃ c a kids, find inner s i T = some (c, a, kids) := by
  cases hf : find inner s i T with
  | none => exact absurd h ((find_eq_none inner).1 hf)
  | some r => exact ⟨r.1, r.2.1, r.2.2, rfl⟩

section

variable (h : find inner s i T = some (c, a, kids))

include h

theorem notMem_detach (hj : j ∈ i :: kids.ids) : j ∉ (detach i T).ids := by
  have hp := (ids_detach_perm inner hn h).nodup_iff.1 hn
  exact fun hd => (nodup_append.1 hp).2.2 j hj j hd rfl

theorem nodup_detach : (i :: kids.ids).Nodup ∧ (detach i T).ids.Nodup := by
  have hp := (ids_detach_perm inner hn h).nodup_iff.1 hn
  rw [← cons_append] at hp
  exact ⟨(nodup_append.1 hp).1, (nodup_append.1 hp).2.1⟩

theorem mem_detach (hj : j ∈ (detach i T).ids) : j ∈ T.ids := by
  rw [(ids_detach_perm inner hn h).mem_iff]
  simp [hj]

end

theorem nodup_attach (hi : (i :: kids.ids).Nodup) (hd : ∀ j ∈ i :: kids.ids, j ∉ T.ids)
    (h : find inner s d T = some (c, b, kids')) : (attach d i a kids T).ids.Nodup := by
  rw [(ids_attach_perm inner hn h).nodup_iff, ← cons_append]
  exact nodup_append.2 ⟨hi, hn, fun x hx y hy hxy => hd x hx (hxy ▸ hy)⟩

theorem find_detach {e : σ} (h : find inner s i T = some (c, a, kids))
    (hj : j ∉ i :: kids.ids) (hf : find inner s j T = some (e, b, kids')) :
    find inner s j (detach i T) = some (e, b, detach i kids') := by
  induction T generalizing s with
  | nil => cases h
  | node k p child next ihc ihn =>
    obtain ⟨hnc, hnn⟩ := nodup_parts hn
    simp only [mem_cons, not_or] at hj
    -- what is found in a part without `i` does not contain it
    have hsame : ∀ {s' : σ} {R : Siblings α}, R.ids.Nodup → i ∉ R.ids →
        find inner s' j R = some (e, b, kids') → detach i kids' = kids' := by
      intro s' R hnR hi hR
      refine detach_of_notMem fun hik => hi ?_
      rw [(ids_detach_perm inner hnR hR).mem_iff]
      simp [hik]
    rcases find_cases inner hn h with ⟨rfl, hr⟩ | ⟨hk, hc, hi⟩ | ⟨hk, hx, hi⟩
    · cases hr
      have hi : k ∉ next.ids := fun hi => (nodup_cons.1 hn).1 (mem_append_right _ hi)
      rw [detach, if_pos rfl]
      rw [find, if_neg (Ne.symm hj.1), (find_eq_none inner).2 hj.2, none_or] at hf
      rw [hf, hsame hnn hi hf]
    · rw [detach, if_neg hk, detach_of_notMem hi]
      rcases find_cases inner hn hf with ⟨rfl, hr⟩ | ⟨hkj, hcj, hjn⟩ | ⟨hkj, hxj, hjc⟩
      · cases hr
        rw [find, if_pos rfl]
      · rw [find, if_neg hkj, ihc hnc hc hcj, some_or]
      have hd : j ∉ (detach i child).ids := fun hd => hjc (mem_detach inner hnc hc hd)
      rw [find, if_neg hkj, (find_eq_none inner).2 hd, none_or, hxj, hsame hnn hi hxj]
    rw [detach, if_neg hk, detach_of_notMem hi]
    rcases find_cases inner hn hf with ⟨rfl, hr⟩ | ⟨hkj, hcj, hjn⟩ | ⟨hkj, hxj, hjc⟩
    · cases hr
      rw [find, if_pos rfl, detach_of_notMem hi]
    · rw [find, if_neg hkj, hcj, some_or, hsame hnc hi hcj]
    · rw [find, if_neg hkj, (find_eq_none inner).2 hjc, none_or, ihn hnn hx hxj]

omit hn in
theorem mem_total_iff {β : Type*} (f : Nat → α → β) {x : β} (hn : T.ids.Nodup) :
    x ∈ total inner (fun _ i a => ({f i a} : Multiset β)) s T ↔
      ∃ i c a kids, find inner s i T = some (c, a, kids) ∧ f i a = x := by
  induction T generalizing s with
  | nil => simp [total, find]
  | node j b child next ihc ihn =>
    obtain ⟨hnc, hnn⟩ := nodup_parts hn
    rw [total, Multiset.mem_add, Multiset.mem_add, Multiset.mem_singleton, ihc hnc, ihn hnn]
    simp only [ids, nodup_cons, mem_append, not_or, nodup_append] at hn
    constructor
    · rintro ((rfl | ⟨i, c, a, kids, hf, rfl⟩) | ⟨i, c, a, kids, hf, rfl⟩)
      · exact ⟨j, s, b, child, by rw [find, if_pos rfl], rfl⟩
      · have hi := mem_ids_of_find inner hf
        have hj : j ≠ i := fun hj => hn.1.1 (hj ▸ hi)
        exact ⟨i, c, a, kids, by rw [find, if_neg hj, hf, some_or], rfl⟩
      have hi := mem_ids_of_find inner hf
      have hj : j ≠ i := fun hj => hn.1.2 (hj ▸ hi)
      have hc : i ∉ child.ids := fun hc => hn.2.2.2 i hc i hi rfl
      exact ⟨i, c, a, kids, by
        rw [find, if_neg hj, (find_eq_none inner).2 hc, none_or, hf], rfl⟩
    rintro ⟨i, c, a, kids, hf, rfl⟩
    rw [find] at hf
    split_ifs at hf with hj
    · cases hf
      exact .inl (.inl (by rw [hj]))
    rcases or_eq_some_iff.1 hf with hc | ⟨-, hx⟩
    · exact .inl (.inr ⟨i, c, a, kids, hc, rfl⟩)
    · exact .inr ⟨i, c, a, kids, hx, rfl⟩

theorem find_parent (h : find inner s i T = some (c, a, kids)) :
    c = s ∨ ∃ p c' b kids', find inner s p T = some (c', b, kids') ∧ c = inner c' p b ∧
      kids' ≠ nil := by
  induction T generalizing s with
  | nil => cases h
  | node j q child next ihc ihn =>
    obtain ⟨hnc, hnn⟩ := nodup_parts hn
    have hout : ∀ p ∈ child.ids ++ next.ids, j ≠ p := by
      rintro p hp rfl
      exact (nodup_cons.1 hn).1 hp
    rcases find_cases inner hn h with ⟨rfl, hr⟩ | ⟨hj, hc, hi⟩ | ⟨hj, hx, hi⟩
    · cases hr
      exact .inl rfl
    · right
      rcases ihc hnc hc with rfl | ⟨p, c', b, kids', hp, hcp, hk⟩
      · refine ⟨j, s, q, child, by rw [find, if_pos rfl], rfl, ?_⟩
        rintro rfl
        cases hc
      refine ⟨p, c', b, kids', ?_, hcp, hk⟩
      have hjp := hout p (mem_append_left _ (mem_ids_of_find inner hp))
      rw [find, if_neg hjp, hp, some_or]
    rcases ihn hnn hx with rfl | ⟨p, c', b, kids', hp, hcp, hk⟩
    · exact .inl rfl
    right
    refine ⟨p, c', b, kids', ?_, hcp, hk⟩
    have hpn := mem_ids_of_find inner hp
    have hjp := hout p (mem_append_right _ hpn)
    have hpc : p ∉ child.ids := fun hpc => by
      simp only [ids, nodup_cons, nodup_append] at hn
      exact hn.2.2.2 p hpc p hpn rfl
    rw [find, if_neg hjp, (find_eq_none inner).2 hpc, none_or, hp]

end

end

def Bare (leaf : α → Bool) : Siblings α → Prop
  | nil => True
  | node _ a child next => (leaf a = true → child = nil) ∧ Bare leaf child ∧ Bare leaf next

section

variable (inner : σ → Nat → α → σ) {leaf : α → Bool} {T : Siblings α} {i : Nat}

theorem Bare.find {s c : σ} {a : α} {kids : Siblings α} (hb : T.Bare leaf)
    (h : Siblings.find inner s i T = some (c, a, kids)) :
    (leaf a = true → kids = nil) ∧ kids.Bare leaf := by
  induction T generalizing s with
  | nil => cases h
  | node j b child next ihc ihn =>
    rw [Siblings.find] at h
    split_ifs at h with hj
    · cases h
      exact ⟨hb.1, hb.2.1⟩
    rcases or_eq_some_iff.1 h with hc | ⟨-, hx⟩
    · exact ihc hb.2.1 hc
    · exact ihn hb.2.2 hx

theorem Bare.detach (hb : T.Bare leaf) (i : Nat) :
    (Siblings.detach i T).Bare leaf := by
  induction T with
  | nil => trivial
  | node j a child next ihc ihn =>
    rw [Siblings.detach]
    split_ifs with hj
    · exact hb.2.2
    refine ⟨fun hl => ?_, ihc hb.2.1, ihn hb.2.2⟩
    rw [hb.1 hl, Siblings.detach]

theorem Bare.modify (hb : T.Bare leaf) (i : Nat)
    (hf : ∀ a, leaf (f a) = leaf a) : (Siblings.modify i f T).Bare leaf := by
  induction T with
  | nil => trivial
  | node j a child next ihc ihn =>
    rw [Siblings.modify]
    split_ifs with hj
    · exact ⟨fun hl => hb.1 (hf a ▸ hl), hb.2⟩
    refine ⟨fun hl => ?_, ihc hb.2.1, ihn hb.2.2⟩
    rw [hb.1 hl, Siblings.modify]

theorem Bare.attach {s c : σ} {a b : α} {kids kids' : Siblings α}
    (hn : T.ids.Nodup) (hb : T.Bare leaf) (hk : (node i a kids nil).Bare leaf)
    (h : Siblings.find inner s d T = some (c, b, kids')) (hl : leaf b = false) :
    (Siblings.attach d i a kids T).Bare leaf := by
  induction T generalizing s with
  | nil => cases h
  | node j b' child next ihc ihn =>
    obtain ⟨hnc, hnn⟩ := nodup_parts hn
    rcases find_cases inner hn h with ⟨rfl, hr⟩ | ⟨hj, hc, hi⟩ | ⟨hj, hx, hi⟩
    · cases hr
      rw [Siblings.attach, if_pos rfl]
      exact ⟨fun h' => absurd h' (by simp [hl]), ⟨hk.1, hk.2.1, hb.2.1⟩, hb.2.2⟩
    · rw [Siblings.attach, if_neg hj, attach_of_notMem hi]
      refine ⟨fun h' => ?_, ihc hnc hb.2.1 hc, hb.2.2⟩
      rw [hb.1 h'] at hc
      cases hc
    rw [Siblings.attach, if_neg hj, attach_of_notMem hi]
    exact ⟨hb.1, hb.2.1, ihn hnn hb.2.2 hx⟩

end

end Siblings

end SamaraOS
