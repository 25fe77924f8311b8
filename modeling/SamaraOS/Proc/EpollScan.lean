import SamaraOS.Proc.Epoll

/-!
# What one scan of an interest list reports

A chunk that is in order, its dropped entries last, hands the walk exactly the entries it has not
seen.  In any other chunk that is not the last one, the array's last entry is moved in front of
the walk and an entry of the chunk is left for it to meet again.
-/

namespace SamaraOS.Epoll

open SwapOut List

def GoneLast (getf : Nat → Option Nat) (ks : List (Nat × Nat)) : Prop :=
  ks = ks.filter (current getf) ++ ks.filter (gone getf)

instance (getf : Nat → Option Nat) (ks : List (Nat × Nat)) : Decidable (GoneLast getf ks) :=
  inferInstanceAs (Decidable (_ = _))

def tidyFrom (getf : Nat → Option Nat) : Nat → List (Nat × Nat) → Nat → Prop
  | 0, _, _ => True
  | fuel + 1, ks, pos =>
    let sn := (ks.drop pos).take chunkSize
    ks.length ≤ pos + chunkSize ∨
      GoneLast getf sn ∧
        tidyFrom getf fuel (dropAll id (sn.filter (gone getf)) ks)
          (pos + (sn.filter (current getf)).length)

def Interest.Tidy (s : Interest) (getf : Nat → Option Nat) : Prop :=
  tidyFrom getf (s.it.length + 1) (s.it.map Epi.key) 0

section

variable (getf : Nat → Option Nat) (ks : List (Nat × Nat))

theorem tidyFrom_of_short (fuel : Nat) {ks : List (Nat × Nat)} {pos : Nat}
    (h : ks.length ≤ pos + chunkSize) : tidyFrom getf fuel ks pos := by
  cases fuel with
  | zero => trivial
  | succ fuel => exact .inl h

theorem exists_hole {getf : Nat → Option Nat} {ks : List (Nat × Nat)} (h : ¬GoneLast getf ks) :
    ∃ A d B, ks = A ++ d :: B ∧ (∀ k ∈ A, current getf k = true) ∧ gone getf d = true ∧
      ∃ k ∈ B, current getf k = true := by
  induction ks with
  | nil => exact absurd rfl h
  | cons a ks ih =>
    by_cases ha : current getf a = true
    · have hks : ¬GoneLast getf ks := by
        intro hl
        apply h
        unfold GoneLast at hl ⊢
        rw [filter_cons_of_pos ha, filter_cons_of_neg (by simp [gone, ha]), cons_append, ← hl]
      obtain ⟨A, d, B, rfl, hA, hd, hB⟩ := ih hks
      refine ⟨a :: A, d, B, rfl, ?_, hd, hB⟩
      simpa [ha] using hA
    by_cases hlive : ∃ k ∈ ks, current getf k = true
    · exact ⟨[], a, ks, rfl, by simp, by simpa [gone] using ha, hlive⟩
    refine absurd ?_ h
    push Not at hlive
    have h1 : (a :: ks).filter (current getf) = [] := by
      simpa [ha] using hlive
    have h2 : (a :: ks).filter (gone getf) = a :: ks := by
      simpa [gone, ha] using hlive
    rw [GoneLast, h1, h2, nil_append]

theorem length_live_add_gone :
    (ks.filter (current getf)).length + (ks.filter (gone getf)).length = ks.length :=
  (length_eq_length_filter_add (current getf)).symm

theorem live_append_gone_perm : List.Perm (ks.filter (gone getf) ++ ks.filter (current getf)) ks :=
  perm_append_comm.trans (filter_append_perm (current getf) ks)

end

/-! ## The loop, chunk by chunk -/

section Chunk

variable {env : Env} {max got : Nat} {P C T : List Epi}

theorem chunk_eq (hC : (C ++ T).take chunkSize = C) :
    ((P ++ (C ++ T)).drop P.length).take chunkSize = C := by
  rw [drop_left, hC]

theorem exists_chunk {W : List Epi} (hW : W ≠ []) :
    ∃ C T, W = C ++ T ∧ (C ++ T).take chunkSize = C ∧ C ≠ [] := by
  refine ⟨W.take chunkSize, W.drop chunkSize, (take_append_drop _ W).symm, ?_, ?_⟩
  · rw [take_append_drop]
  · simpa [chunkSize] using hW

theorem scan_full (fuel : Nat) (hC : (C ++ T).take chunkSize = C) (hne : C ≠ [])
    (hgot : got < max) (hr : max - got ≤ (C.filter (Epi.ready env)).length) :
    (scan env max (fuel + 1) (P ++ (C ++ T)) P.length got).2 =
      ((C.filter (Epi.ready env)).map (Epi.event env)).take (max - got) := by
  have hlen : max ≤ got + (look env (max - got) C).events.length := by
    rw [look_events, length_take, length_map]
    omega
  rw [scan]
  rw [chunk_eq hC, if_neg hne, if_pos (Or.inl hlen)]
  exact look_events env (max - got) C

section

variable (getf : Nat → Option Nat) (C : List Epi)

theorem scan_end (fuel : Nat) {it : List Epi} {pos : Nat} (h : it.length ≤ pos) :
    (scan env max fuel it pos got).2 = [] := by
  cases fuel with
  | zero => rfl
  | succ fuel => simp [scan, drop_eq_nil_of_le h]

theorem filter_key :
    (C.map Epi.key).filter (current getf) = (C.filter fun e => current getf e.key).map Epi.key :=
  filter_map ..

theorem filter_gone_key :
    (C.map Epi.key).filter (gone getf) = (C.filter fun e => gone getf e.key).map Epi.key :=
  filter_map ..

end

def settled (env : Env) (room : Nat) (C it : List Epi) : List Epi := (look env room C).settle it

theorem settled_length_le (room : Nat) (C it : List Epi) :
    (settled env room C it).length ≤ it.length := by
  have hkey := congrArg length ((look env room C).settle_key it)
  rw [length_map] at hkey
  rw [settled, hkey]
  simpa using dropAll_length_le id _ (it.map Epi.key)

theorem scan_next (fuel : Nat) (hC : (C ++ T).take chunkSize = C) (hne : C ≠ [])
    (hr : (C.filter (Epi.ready env)).length < max - got) :
    (scan env max (fuel + 1) (P ++ (C ++ T)) P.length got).2 =
      (C.filter (Epi.ready env)).map (Epi.event env) ++
        (scan env max fuel (settled env (max - got) C (P ++ (C ++ T)))
          (P.length + ((C.map Epi.key).filter (current env.getf)).length)
          (got + (C.filter (Epi.ready env)).length)).2 := by
  have hev : (look env (max - got) C).events = (C.filter (Epi.ready env)).map (Epi.event env) := by
    rw [look_events, take_of_length_le]
    rw [length_map]
    omega
  have hpos : C.length - (look env (max - got) C).dead.length =
      ((C.map Epi.key).filter (current env.getf)).length := by
    have hsum := length_live_add_gone env.getf (C.map Epi.key)
    rw [filter_gone_key, length_map, length_map] at hsum
    rw [look_dead env hr]
    omega
  rw [scan]
  dsimp only
  rw [chunk_eq hC, if_neg hne, hev, hpos, length_map]
  split_ifs with hstop
  · have hend : (P ++ (C ++ T)).length ≤
        P.length + ((C.map Epi.key).filter (current env.getf)).length := by omega
    rw [scan_end fuel (Nat.le_trans (settled_length_le _ C _) hend), append_nil]
  · rfl

theorem settled_key (hr : (C.filter (Epi.ready env)).length < max - got) (it : List Epi) :
    (settled env (max - got) C it).map Epi.key =
      dropAll id ((C.map Epi.key).filter (gone env.getf)) (it.map Epi.key) := by
  rw [settled, Look.settle_key, look_dead env hr, filter_gone_key]

theorem switchOff_append {P' : List Epi} (Z : List Epi) {k : Nat × Nat}
    (hk : k ∉ Z.map Epi.key) : switchOff (P' ++ Z) k = switchOff P' k ++ Z := by
  rw [switchOff, map_append]
  congr 1
  refine (map_congr_left fun e he => if_neg ?_).trans (map_id' Z)
  exact fun h => hk (h ▸ mem_map_of_mem he)

theorem foldl_switchOff_append (P' Z : List Epi) {ks : List (Nat × Nat)}
    (hk : ∀ k ∈ ks, k ∉ Z.map Epi.key) :
    ∃ P'', ks.foldl switchOff (P' ++ Z) = P'' ++ Z ∧ P''.length = P'.length := by
  induction ks generalizing P' with
  | nil => exact ⟨P', rfl, rfl⟩
  | cons k ks ih =>
    obtain ⟨P'', hP, hlen⟩ := ih (switchOff P' k) fun x hx => hk x (by simp [hx])
    refine ⟨P'', ?_, ?_⟩
    · rw [foldl_cons, switchOff_append Z (hk k (by simp)), hP]
    · simpa [switchOff] using hlen

theorem live_append_gone_entries (getf : Nat → Option Nat) (C : List Epi) :
    List.Perm (C.filter (fun e => current getf e.key) ++ C.filter (fun e => gone getf e.key)) C :=
  filter_append_perm (fun e => current getf e.key) C

theorem goneLast_entries {getf : Nat → Option Nat} (h : GoneLast getf (C.map Epi.key)) :
    C = C.filter (fun e => current getf e.key) ++ C.filter (fun e => gone getf e.key) := by
  induction C with
  | nil => rfl
  | cons e C ih =>
    unfold GoneLast at h ih
    by_cases he : current getf e.key = true
    · have hg : gone getf e.key = false := by simp [gone, he]
      simp only [map_cons, filter_cons_of_pos he, hg, Bool.false_eq_true,
        not_false_eq_true, filter_cons_of_neg, cons_append, cons.injEq,
        true_and] at h
      simp only [he, hg, filter_cons_of_pos, Bool.false_eq_true, not_false_eq_true,
        filter_cons_of_neg, cons_append, cons.injEq, true_and]
      exact ih h
    have hg : gone getf e.key = true := by simpa [gone] using he
    -- an entry kept behind `e` would come first
    have hnone : C.filter (fun e => current getf e.key) = [] := by
      by_contra hne
      obtain ⟨x, xs, hx⟩ := exists_cons_of_ne_nil hne
      have hhead : current getf x.key = true := by
        have hmem : x ∈ C.filter (fun e => current getf e.key) := by rw [hx]; simp
        simpa using (mem_filter.1 hmem).2
      rw [map_cons, filter_cons_of_neg he, filter_key, hx, map_cons,
        cons_append, cons.injEq] at h
      exact he (h.1 ▸ hhead)
    have hall : C.filter (fun e => gone getf e.key) = C := by
      rw [filter_eq_self]
      intro x hx
      have hx' := filter_eq_nil_iff.1 hnone x hx
      simpa [gone] using hx'
    simp [he, hg, hnone, hall]

theorem settled_shape (hn : ((P ++ (C ++ T)).map Epi.key).Nodup)
    (hr : (C.filter (Epi.ready env)).length < max - got)
    (h : T = [] ∨ GoneLast env.getf (C.map Epi.key)) :
    ∃ P' Z, settled env (max - got) C (P ++ (C ++ T)) = P' ++ Z ∧
      P'.length = P.length + ((C.map Epi.key).filter (current env.getf)).length ∧
      List.Perm Z T := by
  set L := C.filter fun e => current env.getf e.key with hL
  set D := C.filter fun e => gone env.getf e.key with hD
  have hLlen : ((C.map Epi.key).filter (current env.getf)).length = L.length := by
    rw [filter_key, length_map]
  rw [hLlen, settled, Look.settle, look_dead env hr, ← hD]
  have hone : ∀ k ∈ (look env (max - got) C).one.map Epi.key, k ∈ L.map Epi.key := fun k hk =>
    map_subset _ (look_one_subset env (max - got) C) hk
  rcases h with rfl | hlast
  · have hW : List.Perm (C ++ []) (D ++ L) := by
      rw [append_nil]
      exact ((live_append_gone_entries env.getf C).symm).trans perm_append_comm
    obtain ⟨Z, hZ, hperm⟩ := dropAll_append Epi.key hn hW
    rw [hZ]
    obtain ⟨P', hP', hlen⟩ := foldl_switchOff_append (P ++ Z) []
      (fun k (_ : k ∈ (look env (max - got) C).one.map Epi.key) => by simp)
    rw [append_nil] at hP'
    refine ⟨P', [], hP', ?_, List.Perm.refl _⟩
    rw [hlen, length_append, hperm.length_eq]
  have hC := goneLast_entries hlast
  rw [← hL, ← hD] at hC
  have hsplit : P ++ (C ++ T) = (P ++ L) ++ (D ++ T) := by
    conv_lhs => rw [hC]
    simp
  rw [hsplit] at hn ⊢
  obtain ⟨Z, hZ, hperm⟩ := dropAll_append Epi.key hn (List.Perm.refl (D ++ T))
  rw [hZ]
  have hdisj : ∀ k ∈ (look env (max - got) C).one.map Epi.key, k ∉ Z.map Epi.key := by
    intro k hk hkZ
    rw [map_append, nodup_append] at hn
    refine hn.2.2 k ?_ k ?_ rfl
    · exact map_subset _ (subset_append_right P L) (hone k hk)
    · exact map_subset _ (subset_append_right D T) ((hperm.map Epi.key).mem_iff.1 hkZ)
  obtain ⟨P', hP', hlen⟩ := foldl_switchOff_append (P ++ L) Z hdisj
  exact ⟨P', Z, hP', by rw [hlen, length_append], hperm⟩

end Chunk

theorem event_keys (env : Env) (es : List Epi) :
    (es.map (Epi.event env)).map Event.key = es.map Epi.key := by
  rw [map_map]
  rfl

structure Covers (env : Env) (W : List Epi) (r : List Event) : Prop where
  some_event : (∃ e ∈ W, e.ready env = true) → r ≠ []
  once : (r.map Event.key).Nodup
  registered : ∀ v ∈ r, v.key ∈ W.map Epi.key

theorem Covers.nil (env : Env) : Covers env [] [] := ⟨by simp, by simp, by simp⟩

variable {env : Env} {getf : Nat → Option Nat} {C T : List (Nat × Nat)}

theorem Covers.take {C : List Epi} (T : List Epi) {room : Nat}
    (hn : (C.map Epi.key).Nodup) (hpos : 0 < room)
    (hroom : room ≤ (C.filter (Epi.ready env)).length) :
    Covers env (C ++ T) (((C.filter (Epi.ready env)).map (Epi.event env)).take room) := by
  have hsub : ((((C.filter (Epi.ready env)).map (Epi.event env)).take room).map Event.key).Sublist
      (C.map Epi.key) := by
    rw [map_take, event_keys]
    exact (take_sublist _ _).trans (filter_sublist.map Epi.key)
  refine ⟨fun _ hnil => ?_, hn.sublist hsub, fun v hv => ?_⟩
  · have hlen := congrArg length hnil
    simp only [length_take, length_map, length_nil] at hlen
    omega
  rw [map_append]
  exact mem_append_left _ (hsub.subset (mem_map_of_mem hv))

theorem Covers.append {C T Z : List Epi} {r : List Event}
    (hn : ((C ++ T).map Epi.key).Nodup) (hZ : List.Perm Z T) (h : Covers env Z r) :
    Covers env (C ++ T) ((C.filter (Epi.ready env)).map (Epi.event env) ++ r) := by
  have hZkey : ∀ v ∈ r, v.key ∈ T.map Epi.key := fun v hv =>
    (hZ.map Epi.key).mem_iff.1 (h.registered v hv)
  have hsub : ((C.filter (Epi.ready env)).map Epi.key).Sublist (C.map Epi.key) :=
    filter_sublist.map Epi.key
  rw [map_append, nodup_append] at hn
  refine ⟨?_, ?_, ?_⟩
  · rintro ⟨e, he, hready⟩ hnil
    obtain ⟨hC, hr⟩ := append_eq_nil_iff.1 hnil
    rcases mem_append.1 he with heC | heT
    · have hmem : e ∈ C.filter (Epi.ready env) := mem_filter.2 ⟨heC, hready⟩
      rw [map_eq_nil_iff.1 hC] at hmem
      simp at hmem
    · exact h.some_event ⟨e, hZ.mem_iff.2 heT, hready⟩ hr
  · rw [map_append, event_keys, nodup_append]
    refine ⟨hn.1.sublist hsub, h.once, ?_⟩
    intro a ha b hb
    obtain ⟨v, hv, rfl⟩ := mem_map.1 hb
    exact hn.2.2 a (hsub.subset ha) v.key (hZkey v hv)
  intro v hv
  rw [map_append]
  rcases mem_append.1 hv with hvC | hvr
  · have hk := mem_map_of_mem (f := Event.key) hvC
    rw [event_keys] at hk
    exact mem_append_left _ (hsub.subset hk)
  · exact mem_append_right _ (hZkey v hvr)

theorem scan_covers {max : Nat} (fuel : Nat) {P W : List Epi} {got : Nat}
    (hn : ((P ++ W).map Epi.key).Nodup) (hgot : got < max) (hfuel : W.length < fuel)
    (ht : tidyFrom env.getf fuel ((P ++ W).map Epi.key) P.length) :
    Covers env W (scan env max fuel (P ++ W) P.length got).2 := by
  induction fuel generalizing P W got with
  | zero => omega
  | succ fuel ih =>
    rcases eq_or_ne W [] with rfl | hW
    · rw [scan_end (fuel + 1) (by simp)]
      exact Covers.nil env
    obtain ⟨C, T, rfl, hC, hne⟩ := exists_chunk hW
    have hnCT : ((C ++ T).map Epi.key).Nodup := by
      rw [map_append, nodup_append] at hn
      exact hn.2.1
    by_cases hr : max - got ≤ (C.filter (Epi.ready env)).length
    · rw [scan_full fuel hC hne hgot hr]
      rw [map_append, nodup_append] at hnCT
      exact Covers.take T hnCT.1 (by omega) hr
    have hr' : (C.filter (Epi.ready env)).length < max - got := by omega
    have hchunk : (((P ++ (C ++ T)).map Epi.key).drop P.length).take chunkSize = C.map Epi.key := by
      rw [← map_drop, ← map_take, chunk_eq hC]
    have hlast : T = [] ∨ GoneLast env.getf (C.map Epi.key) := by
      rcases ht with hshort | hl
      · left
        have hlenT := congrArg length hC
        simp only [length_map, length_append, length_take] at hshort hlenT
        exact length_eq_zero_iff.1 (by omega)
      rw [hchunk] at hl
      exact Or.inr hl.1
    obtain ⟨P', Z, hset, hlen, hperm⟩ := settled_shape hn hr' hlast
    have hkey := settled_key hr' (P ++ (C ++ T))
    rw [scan_next fuel hC hne hr', hset, ← hlen]
    have hCpos : 0 < C.length := length_pos_iff.2 hne
    refine Covers.append hnCT hperm (ih ?_ (by omega) ?_ ?_)
    · rw [← hset]
      exact Look.settle_nodup _ hn
    · rw [hperm.length_eq]
      rw [length_append] at hfuel
      omega
    rcases ht with hshort | hl
    · refine tidyFrom_of_short _ _ ?_
      have hT := hperm.length_eq
      simp only [length_map, length_append] at hshort ⊢
      omega
    rw [hchunk] at hl
    rw [← hset, hkey, hlen]
    exact hl.2

/-! ## A chunk out of order makes the walk see an entry twice -/

def hungUp (getf : Nat → Option Nat) : Env := ⟨getf, fun _ _ => 0x10#16⟩

theorem ready_hungUp (getf : Nat → Option Nat) (e : Epi) :
    e.ready (hungUp getf) = current getf e.key := by
  have hbits : e.bits (hungUp getf) ≠ 0#16 := by
    intro h
    have hbit := congrArg (fun b : BitVec 16 => b.getLsbD 4) h
    simp [Epi.bits, hungUp] at hbit
  rw [Epi.ready, bne_iff_ne.2 hbits, Bool.and_true]
  rfl

theorem filter_ready_hungUp (getf : Nat → Option Nat) (C : List Epi) :
    C.filter (Epi.ready (hungUp getf)) = C.filter fun e => current getf e.key :=
  filter_congr fun e _ => ready_hungUp getf e

theorem last_passed {P : List (Nat × Nat)} {t : Nat × Nat}
    (hn : (P ++ (C ++ (T ++ [t]))).Nodup) (h : ¬GoneLast getf C) :
    ∃ Y, dropAll id (C.filter (gone getf)) (P ++ (C ++ (T ++ [t]))) = P ++ Y ∧
      t ∈ Y.take (C.filter (current getf)).length := by
  obtain ⟨A, d, B, rfl, hA, hd, x, hxB, hx⟩ := exists_hole h
  have hdead : (A ++ d :: B).filter (gone getf) = d :: B.filter (gone getf) := by
    have hnil : A.filter (gone getf) = [] := by
      rw [filter_eq_nil_iff]
      intro k hk
      simp [gone, hA k hk]
    rw [filter_append, hnil, filter_cons_of_pos hd, nil_append]
  have hlive : A.length + 1 ≤ ((A ++ d :: B).filter (current getf)).length := by
    have hAll : A.filter (current getf) = A := filter_eq_self.2 hA
    have hxB' : x ∈ B.filter (current getf) := mem_filter.2 ⟨hxB, hx⟩
    have hpos := length_pos_of_mem hxB'
    have hd' : ¬current getf d = true := by simpa [gone] using hd
    rw [filter_append, hAll, filter_cons_of_neg hd', length_append]
    omega
  have hassoc : P ++ (A ++ d :: B ++ (T ++ [t])) = (P ++ A) ++ d :: ((B ++ T) ++ [t]) := by simp
  rw [hassoc] at hn ⊢
  have hdA : id d ∉ (P ++ A).map id := by
    intro hmem
    rw [map_id] at hmem
    exact (nodup_append.1 hn).2.2 d hmem d (by simp) rfl
  have hks : ∀ k ∈ B.filter (gone getf), k ∉ ((P ++ A) ++ [t]).map id := by
    intro k hk hmem
    have hkB : k ∈ B := (mem_filter.1 hk).1
    rw [map_id, mem_append] at hmem
    rcases hmem with hmem | hmem
    · exact (nodup_append.1 hn).2.2 k hmem k (by simp [hkB]) rfl
    have htail := (nodup_append.1 hn).2.1
    have hkt : k = t := by simpa using hmem
    rw [nodup_cons] at htail
    exact (nodup_append.1 htail.2).2.2 k (by simp [hkB]) t (by simp) hkt
  obtain ⟨Y, hY⟩ := dropAll_hole id (B := B ++ T) hdA hks
  refine ⟨A ++ t :: Y, ?_, ?_⟩
  · rw [hdead]
    exact hY.trans (by simp)
  rw [mem_take_iff_getElem]
  exact ⟨A.length, by rw [length_append, length_cons]; omega, by simp⟩

theorem perm_of_subset {l m : List (Nat × Nat)} (hn : l.Nodup) (hs : l ⊆ m)
    (hlen : m.length ≤ l.length) : List.Perm l m :=
  (subperm_of_subset hn hs).perm_of_length_le hlen

structure Finds (getf : Nat → Option Nat) (W : List (Nat × Nat)) (r : List (Nat × Nat)) : Prop where
  enough : (W.filter (current getf)).length ≤ r.length
  live : r ⊆ W.filter (current getf)

theorem Finds.append {X r : List (Nat × Nat)} (hX : List.Perm X (C.filter (current getf) ++ T))
    (h : Finds getf (X.drop (C.filter (current getf)).length) r) :
    Finds getf (C ++ T) (C.filter (current getf) ++ r) := by
  set L := C.filter (current getf) with hL
  have hLL : L.filter (current getf) = L := by rw [hL, filter_filter]; simp
  have hXlen : (X.filter (current getf)).length = L.length + (T.filter (current getf)).length := by
    rw [(hX.filter (current getf)).length_eq, filter_append, hLL, length_append]
  have hcut : (X.filter (current getf)).length = ((X.take L.length).filter (current getf)).length +
        ((X.drop L.length).filter (current getf)).length := by
    rw [← length_append, ← filter_append, take_append_drop]
  have htake := length_filter_le (current getf) (X.take L.length)
  have htake' := length_take_le L.length X
  have henough := h.enough
  refine ⟨?_, append_subset.2 ⟨?_, fun k hk => ?_⟩⟩
  · rw [filter_append, ← hL, length_append, length_append]
    omega
  · rw [filter_append]
    exact subset_append_left _ _
  obtain ⟨hmem, hcur⟩ := mem_filter.1 (h.live hk)
  have hLT := hX.mem_iff.1 (mem_of_mem_drop hmem)
  rw [filter_append]
  rcases mem_append.1 hLT with hkL | hkT
  · exact mem_append_left _ hkL
  · exact mem_append_right _ (mem_filter.2 ⟨hkT, hcur⟩)

theorem Finds.passed_perm {X r : List (Nat × Nat)} (hX : List.Perm X (C.filter (current getf) ++ T))
    (h : Finds getf (X.drop (C.filter (current getf)).length) r)
    (honce : (C.filter (current getf) ++ r).Nodup) :
    List.Perm (C.filter (current getf)) (X.take (C.filter (current getf)).length) := by
  obtain ⟨hLn, hrn, hdisj⟩ := nodup_append.1 honce
  refine perm_of_subset hLn (fun k hk => ?_) (length_take_le _ _)
  have hkX : k ∈ X := hX.mem_iff.2 (mem_append_left _ hk)
  rw [← take_append_drop (C.filter (current getf)).length X, mem_append] at hkX
  refine hkX.resolve_right fun hlate => ?_
  have hkr : k ∈ r := (perm_of_subset hrn h.live h.enough).mem_iff.2
    (mem_filter.2 ⟨hlate, (mem_filter.1 hk).2⟩)
  exact hdisj k hk k hkr rfl

theorem scan_finds {max : Nat} (fuel : Nat) {P W : List Epi} {got : Nat}
    (hn : ((P ++ W).map Epi.key).Nodup) (hmax : got + W.length < max) (hfuel : W.length < fuel) :
    Finds getf (W.map Epi.key)
        ((scan (hungUp getf) max fuel (P ++ W) P.length got).2.map Event.key) ∧
      (((scan (hungUp getf) max fuel (P ++ W) P.length got).2.map Event.key).Nodup →
        tidyFrom getf fuel ((P ++ W).map Epi.key) P.length) := by
  induction fuel generalizing P W got with
  | zero => omega
  | succ fuel ih =>
    rcases eq_or_ne W [] with rfl | hW
    · rw [scan_end (fuel + 1) (by simp)]
      exact ⟨⟨by simp, by simp⟩, fun _ => tidyFrom_of_short _ _ (by simp)⟩
    obtain ⟨C, T, rfl, hC, hne⟩ := exists_chunk hW
    have hready := filter_ready_hungUp getf C
    have hLlen : (C.filter (Epi.ready (hungUp getf))).length =
        ((C.map Epi.key).filter (current getf)).length := by
      rw [hready, filter_key, length_map]
    have hLle := length_filter_le (current getf) (C.map Epi.key)
    rw [length_map] at hLle
    rw [length_append] at hmax hfuel
    have hr : (C.filter (Epi.ready (hungUp getf))).length < max - got := by omega
    have hCpos : 0 < C.length := length_pos_iff.2 hne
    -- the keys of the array after the chunk
    have hnk : (P.map Epi.key ++ (C.map Epi.key ++ T.map Epi.key)).Nodup := by
      simpa using hn
    have hperm : List.Perm (C.map Epi.key ++ T.map Epi.key) ((C.map Epi.key).filter (gone getf) ++
          ((C.map Epi.key).filter (current getf) ++ T.map Epi.key)) := by
      rw [← append_assoc]
      exact (live_append_gone_perm getf (C.map Epi.key)).symm.append_right _
    obtain ⟨X, hX, hXperm⟩ := dropAll_append id (by simpa using hnk) hperm
    rw [map_id] at hX
    set it := settled (hungUp getf) (max - got) C (P ++ (C ++ T)) with hit
    have hkey : it.map Epi.key = P.map Epi.key ++ X := by
      rw [hit, settled_key hr, map_append, map_append]
      exact hX
    set n := ((C.map Epi.key).filter (current getf)).length with hn'
    have hXlen : X.length = n + T.length := by
      rw [hXperm.length_eq, length_append, length_map]
    have hitlen : it.length = P.length + (n + T.length) := by
      have := congrArg length hkey
      simpa [hXlen] using this
    obtain ⟨P', Z, hPZ, hP'⟩ : ∃ P' Z, it = P' ++ Z ∧ P'.length = P.length + n :=
      ⟨it.take (P.length + n), it.drop (P.length + n), (take_append_drop _ it).symm, by
        rw [length_take, hitlen]
        omega⟩
    have hZ : Z.map Epi.key = X.drop n := by
      have hdrop := congrArg (drop (P.length + n)) hkey
      rw [hPZ, map_append, drop_left' (by simpa using hP'), ← drop_drop,
        drop_left' (by simp)] at hdrop
      exact hdrop
    have hZlen : Z.length = T.length := by
      have := congrArg length hPZ
      rw [hitlen, length_append, hP'] at this
      omega
    obtain ⟨hfinds, htidy⟩ := @ih P' Z (got + (C.filter (Epi.ready (hungUp getf))).length) (by
        rw [← hPZ]
        exact Look.settle_nodup _ hn)
      (by omega) (by omega)
    have hscan : (scan (hungUp getf) max (fuel + 1) (P ++ (C ++ T)) P.length got).2.map Event.key =
        (C.map Epi.key).filter (current getf) ++ (scan (hungUp getf) max fuel (P' ++ Z) P'.length
            (got + (C.filter (Epi.ready (hungUp getf))).length)).2.map Event.key := by
      rw [scan_next fuel hC hne hr, map_append, event_keys, hready, ← filter_key, ← hit, hPZ, hP']
      rfl
    rw [hscan, map_append]
    rw [hZ] at hfinds
    refine ⟨Finds.append hXperm hfinds, fun honce => ?_⟩
    have hchunk : (((P ++ (C ++ T)).map Epi.key).drop P.length).take chunkSize = C.map Epi.key := by
      rw [← map_drop, ← map_take, chunk_eq hC]
    rcases eq_nil_or_concat T with rfl | ⟨T', t, rfl⟩
    · refine tidyFrom_of_short _ _ ?_
      have hCle := congrArg length hC
      simp only [append_nil, length_take, length_map, length_append] at hCle ⊢
      omega
    refine Or.inr ⟨?_, ?_⟩
    · rw [hchunk]
      by_contra hlast
      have hpassed := Finds.passed_perm hXperm hfinds honce
      obtain ⟨Y, hY, htY⟩ := last_passed (by simpa using hnk) hlast
      have hYX : Y = X := by
        have hsame := hY.symm.trans (by simpa using hX)
        exact append_cancel_left hsame
      have htC : t.key ∈ C.map Epi.key :=
        (mem_filter.1 (hpassed.mem_iff.2 (hYX ▸ htY))).1
      exact (nodup_append.1 (nodup_append.1 hnk).2.1).2.2 _ htC _ (by simp) rfl
    rw [hchunk, ← hn', ← hP', map_append, map_append, hX, ← hkey, hPZ]
    exact htidy (nodup_append.1 honce).2.1

/-- With timeout 0 and nothing changing, a ready entry yields an event and no entry yields two,
for all files and buffer sizes, exactly when the list is tidy.  A deleted entry is never
reported. -/
theorem wait_reports (s : Interest) (getf : Nat → Option Nat) : ((∀ revents max, 1 ≤ max →
        Covers ⟨getf, revents⟩ s.it (s.wait ⟨getf, revents⟩ max).2) ↔ s.Tidy getf) ∧
      ∀ (self x : Nat) (c : Ctl) (s' t : Interest), getf c.fd = some x → c.op = 2 →
        s.ctl getf self c = .ok s' → Later (c.fd, x) s' t →
          ∀ env max, ∀ v ∈ (t.wait env max).2, v.key ≠ (c.fd, x) := by
  refine ⟨⟨fun h => ?_, fun ht revents max hmax => ?_⟩, ?_⟩
  · have honce := (h (fun _ _ => 0x10#16) (s.it.length + 1) (by omega)).once
    exact (scan_finds (P := []) (W := s.it) (s.it.length + 1) s.nodup (by omega)
      (Nat.lt_succ_self _)).2 honce
  · exact scan_covers (P := []) (W := s.it) (s.it.length + 1) s.nodup hmax (by omega) ht
  intro self x c s' t hx hop hctl hlater env max
  exact not_reported_after_del hx hop hctl hlater env max

def inputs (n : Nat) : List Epi := (range n).map fun i => ⟨i, 100 + i, 1#32, 0#32, 0#32⟩

def inputs33 : Interest := ⟨inputs 33, 64, by decide +kernel⟩

def inputs2 : Interest := ⟨inputs 2, 32, by decide +kernel⟩

def zeroClosed (fd : Nat) : Option Nat := if fd = 0 then none else some (100 + fd)

theorem wait_reports_two : Covers ⟨zeroClosed, fun _ _ => 1#16⟩ inputs2.it
    (inputs2.wait ⟨zeroClosed, fun _ _ => 1#16⟩ 8).2 :=
  (wait_reports inputs2 zeroClosed).1.2 (.inl (by decide)) (fun _ _ => 1#16) 8 (by decide)

/-- 33 entries, the first closed.  Input on the last one is not reported; input on the 32nd is
reported twice. -/
theorem wait_misreports :
    (∃ e ∈ inputs33.it, e.ready ⟨zeroClosed, fun f _ => if f = 132 then 1#16 else 0#16⟩ = true) ∧
      (inputs33.wait ⟨zeroClosed, fun f _ => if f = 132 then 1#16 else 0#16⟩ 8).2 = [] ∧
      ((inputs33.wait ⟨zeroClosed, fun f _ => if f = 131 then 1#16 else 0#16⟩ 8).2.map
        Event.key) = [(31, 131), (31, 131)] := by
  decide +kernel

end SamaraOS.Epoll
