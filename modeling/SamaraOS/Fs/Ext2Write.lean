import SamaraOS.Fs.Ext2Sync

/-!
# What a block write that returns 0 says

`wblk` leaves a write out if the block has the hash of the buffer, and it notes the hash before
the write has succeeded.  So a call may be believed if the buffer last offered for the block was
written, or has another hash.
-/

namespace SamaraOS.Ext2

open Function

/-- Every call of the run that returns 0 leaves the block with its buffer. -/
def Truthful : Vol → List Write → Prop
  | _, [] => True
  | v, w :: ws =>
    ((wblk v w.1 w.2).2 = true → (wblk v w.1 w.2).1.disk w.1 = w.2) ∧
      Truthful (wblk v w.1 w.2).1 ws

/-- What was last offered for a block, and whether the call returned 0. -/
abbrev Offers := Nat → Option (List UInt8 × Bool)

/-- A buffer with the hash of the one offered last for its block is that buffer, and the call for
it returned 0. -/
def Careful : Vol → Offers → List Write → Prop
  | _, _, [] => True
  | v, last, w :: ws =>
    (∀ x ∈ last w.1, fnv x.1 = fnv w.2 → x = (w.2, true)) ∧
      Careful (wblk v w.1 w.2).1
        (update last w.1 (some (w.2, (wblk v w.1 w.2).2))) ws

structure Noted (v : Vol) (last : Offers) : Prop where
  hash : ∀ b, v.bhash b = ((last b).map fun x => fnv x.1).getD 0
  disk : ∀ b buf, last b = some (buf, true) → v.disk b = buf

variable {v : Vol} {last : Offers} {b : Nat} {buf : List UInt8}

theorem fnv_ne_zero (p : List UInt8) : fnv p ≠ 0 := by
  intro h
  have hbit := congrArg (fun x : UInt32 => x.toBitVec.getLsbD 0) h
  simp [fnv] at hbit

theorem wblk_cases (v : Vol) (b : Nat) (buf : List UInt8) :
    v.bhash b = fnv buf ∧ wblk v b buf = (v, true) ∨ v.bhash b ≠ fnv buf ∧
        (wblk v b buf).1.bhash = update v.bhash b (fnv buf) ∧ (wblk v b buf).1.disk =
          if (wblk v b buf).2 then update v.disk b buf else v.disk := by
  unfold wblk
  by_cases h : v.bhash b = fnv buf
  · simp [h]
  simp only [h, if_false, ataWrite]
  split <;> simp [h]

section

variable (h : Noted v last) (hc : ∀ x ∈ last b, fnv x.1 = fnv buf → x = (buf, true))

include h hc

theorem Noted.believed (hb : v.bhash b = fnv buf) : last b = some (buf, true) ∧ v.disk b = buf := by
  rw [h.hash] at hb
  cases hl : last b with
  | none =>
    rw [hl] at hb
    exact absurd hb.symm (fnv_ne_zero buf)
  | some x =>
    rw [hl] at hb
    obtain rfl := hc x hl hb
    exact ⟨rfl, h.disk b buf hl⟩

theorem Noted.step :
    ((wblk v b buf).2 = true → (wblk v b buf).1.disk b = buf) ∧
      Noted (wblk v b buf).1 (update last b (some (buf, (wblk v b buf).2))) := by
  rcases wblk_cases v b buf with ⟨hb, heq⟩ | ⟨-, hhash, hdisk⟩
  · obtain ⟨hl, hd⟩ := h.believed hc hb
    rw [heq, ← hl, update_eq_self]
    exact ⟨fun _ => hd, h⟩
  refine ⟨fun hok => by simp [hdisk, hok], fun c => ?_, fun c buf' hl => ?_⟩
  · rw [hhash]
    by_cases hcb : c = b
    · simp [hcb]
    · simp [hcb, h.hash]
  rw [hdisk]
  by_cases hcb : c = b
  · subst hcb
    rw [update_self, Option.some.injEq, Prod.mk.injEq] at hl
    rw [if_pos hl.2, update_self, hl.1]
  rw [update_of_ne hcb] at hl
  have hd := h.disk c buf' hl
  split <;> simp [hcb, hd]

end

theorem Noted.truthful {ws : List Write} (h : Noted v last) (hc : Careful v last ws) :
    Truthful v ws := by
  induction ws generalizing v last with
  | nil => trivial
  | cons w ws ih =>
    obtain ⟨htrue, hnext⟩ := h.step hc.1
    exact ⟨htrue, ih hnext hc.2⟩

/-- On a volume just mounted, whatever writes fail. -/
theorem wblk_truthful (v : Vol) (hv : ∀ b, v.bhash b = 0) (ws : List Write)
    (hc : Careful v (fun _ => none) ws) : Truthful v ws := by
  have hnoted : Noted v (fun _ => none) := ⟨hv, fun _ _ h => nomatch h⟩
  exact hnoted.truthful hc

/-- The second of three writes fails, and the block is then written with something else. -/
theorem wblk_truthful_failed :
    (wblk (wblk { bbm := fun _ => false, io := [false, true] } 5 [1]).1 5 [2]).2 = false ∧
      Truthful { bbm := fun _ => false, io := [false, true] } [(5, [1]), (5, [2]), (5, [3])] :=
  ⟨by decide, wblk_truthful _ (fun _ => rfl) _ (by
    refine ⟨nofun, ?_, ?_, trivial⟩
    · rintro x ⟨⟩ h
      exact absurd h (by decide)
    rintro x ⟨⟩ h
    exact absurd h (by decide))⟩

/-- The write fails, is tried again and then returns 0 without having been made. -/
theorem wblk_retried : ¬ Truthful { bbm := fun _ => false, io := [true] } [(5, [1]), (5, [1])] := by
  rintro ⟨-, h, -⟩
  exact absurd (h (by decide)) (by decide)

end SamaraOS.Ext2
