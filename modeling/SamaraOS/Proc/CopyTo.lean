import SamaraOS.Proc.Frames

/-!
# Writing into a space

`vmm_copy_to`, with which `ptrace` and the kernel write user memory: each page is brought in as
`bringIn` does, and the bytes go into its frame.  A read-only page is written in place even if
its frame belongs to others, too.
-/

namespace SamaraOS.Frames

open Function List

structure Image where
  /-- The entries of the space, by page number. -/
  pd : Nat → Option Pte
  m : Mem
  data : Nat → List UInt8
  swap : Nat → List UInt8

/-- What a frame that is taken for the page starts with. -/
def Image.fill (s : Image) : Pte → List UInt8
  | .lazy _ | .shl _ _ _ => replicate 4096 0
  | .swap slot _ => s.swap slot
  | .page f _ _ _ => s.data f

/-- One turn of the loop of `vmm_copy_to`, on page `v`; it goes on if the flag is set. -/
def copyPage (readOk : Bool) (s : Image) (v : Nat) (bytes : List UInt8) : Image × Bool :=
  match s.pd v with
  | none => (s, false)
  | some e =>
    let r := bringIn readOk s.m e
    let s' := { s with pd := update s.pd v (some r.1), m := r.2 }
    match r.1 with
    | .page f _ false _ =>
      let old := if s.m.refs f = 0 then s.fill e else s.data f
      ({ s' with data := update s.data f (bytes ++ old.drop bytes.length) }, true)
    | _ => (s', false)

/-- `vmm_copy_to` from the start of page `v`, with the bytes for each page. -/
def copyTo (readOk : Bool) (s : Image) (v : Nat) : List (List UInt8) → Image × Bool
  | [] => (s, true)
  | bytes :: rest =>
    let r := copyPage readOk s v bytes
    if r.2 then copyTo readOk r.1 (v + 1) rest else r

/-! ## Frames of others -/

def Pte.count (f : Nat) : Option Pte → Nat
  | some (.page g _ _ _) => one g f
  | _ => 0

/-- The entry shares `f` on purpose. -/
def Pte.shares (m : Mem) (f : Nat) : Pte → Prop
  | .page g _ _ shared => g = f ∧ shared = true
  | .shl seg k _ => m.shm seg k = f
  | _ => False

def Image.Shares (s : Image) (f : Nat) : Prop := ∃ v, ∃ e ∈ s.pd v, e.shares s.m f

/-- A frame that others have as well is counted for them and for each of the `n` pages from `v`
on that map it; from 254 on counts stay. -/
def Counted (foreign : Nat → Prop) (s : Image) (v n : Nat) : Prop :=
  ∀ f, foreign f →
    ((range' v n).map fun w => Pte.count f (s.pd w)).sum + 1 ≤ s.m.refs f ∨ 254 ≤ s.m.refs f

/-- No page of the `n` from `v` on has a frame of others without `PTE_COW` and `PTE_SHARED`. -/
def Own (foreign : Nat → Prop) (s : Image) (v n : Nat) : Prop :=
  ∀ w, v ≤ w → w < v + n → ∀ f rw, s.pd w = some (.page f rw false false) → ¬ foreign f

/-- What bringing a page in means for a frame `f` that others have. -/
structure Brought (m m' : Mem) (e e' : Pte) (f : Nat) : Prop where
  refs : m.refs f ≤ m'.refs f + Pte.count f e
  stuck : 254 ≤ m.refs f → 254 ≤ m'.refs f
  shm : ∀ seg k, m'.shm seg k = f → m.shm seg k = f
  shares : e'.shares m' f → e.shares m f
  writes : ∀ rw sh, e' = .page f rw false sh → e.shares m f ∨ e = .page f rw false false

variable {foreign : Nat → Prop} {s : Image} {readOk : Bool} {v n f g : Nat} {m m' : Mem} {e : Pte}

theorem pmmRef_spec (m : Mem) (g f : Nat) :
    (pmmRef m g).shm = m.shm ∧ m.refs f ≤ (pmmRef m g).refs f := by
  unfold pmmRef Mem.set
  by_cases hg : f = g <;> split <;> simp [hg]

theorem pmmUnref_spec (m : Mem) (g f : Nat) : (pmmUnref m g).shm = m.shm ∧
    m.refs f ≤ (pmmUnref m g).refs f + one g f ∧
    (254 ≤ m.refs f → 254 ≤ (pmmUnref m g).refs f) := by
  unfold pmmUnref Mem.set one ours
  by_cases hg : f = g
  all_goals
    split
    all_goals simp_all
    all_goals omega

theorem pmmUnref_other (h : f ≠ g) : (pmmUnref m g).refs f = m.refs f := by
  unfold pmmUnref Mem.set
  split <;> simp [h]

theorem pmmAlloc_other (h : pmmAlloc m = some (n, m')) (hf : 1 ≤ m.refs f) :
    n ≠ f ∧ m'.refs f = m.refs f ∧ m'.shm = m.shm := by
  obtain ⟨-, hzero, hrefs, -⟩ := pmmAlloc_some h
  have hne : n ≠ f := by
    rintro rfl
    omega
  obtain ⟨i, -, he⟩ := Option.map_eq_some_iff.1 h
  exact ⟨hne, by simp [hrefs, hne.symm], by rw [← (Prod.mk.inj he).2]; rfl⟩

/-- A page gets a frame that was free. -/
theorem Brought.fresh {rw sh : Bool} (hne : n ≠ f) (hrefs : m.refs f ≤ m'.refs f + Pte.count f e)
    (hstuck : 254 ≤ m.refs f → 254 ≤ m'.refs f) (hshm : ∀ seg k, m'.shm seg k = f → m.shm seg k = f)
    : Brought m m' e (.page n rw false sh) f := by
  refine ⟨hrefs, hstuck, hshm, fun h => absurd h.1 hne, fun rw sh h => ?_⟩
  cases h
  exact absurd rfl hne

theorem Brought.stays (hrefs : m'.refs f = m.refs f) (hshm : m'.shm = m.shm)
    (hw : ∀ rw sh, e = .page f rw false sh → e.shares m f ∨ e = .page f rw false false) :
    Brought m m' e e f := by
  refine ⟨by omega, by omega, by simp [hshm], fun h => ?_, hw⟩
  cases e with
  | page => exact h
  | shl => simpa [Pte.shares, hshm] using h
  | _ => exact h.elim

theorem bringIn_brought (e : Pte) (hf : 1 ≤ m.refs f) (hcow : Pte.count f e = 1 → m.refs f ≠ 1) :
    Brought m (bringIn readOk m e).2 e (bringIn readOk m e).1 f := by
  cases e with
  | lazy rw =>
    cases h : pmmAlloc m with
    | none =>
      simp only [bringIn, h]
      exact .stays rfl rfl (by simp)
    | some r =>
      obtain ⟨hne, hrefs, hshm⟩ := pmmAlloc_other h hf
      simp only [bringIn, h]
      exact .fresh hne (by omega) (by omega) (by simp [hshm])
  | shl seg k rw =>
    cases h : pmmAlloc m with
    | none =>
      simp only [bringIn, h]
      exact .stays rfl rfl (by simp)
    | some r =>
      obtain ⟨hne, hrefs, hshm⟩ := pmmAlloc_other h hf
      simp only [bringIn, h]
      split
      · obtain ⟨hshm', hle⟩ := pmmRef_spec
          { r.2 with shm := update r.2.shm seg (update (r.2.shm seg) k r.1) } r.1 f
        dsimp only at hle ⊢
        refine .fresh hne (by omega) (by omega) fun seg' k' hk => ?_
        rw [hshm'] at hk
        by_cases hs : seg' = seg
        · subst hs
          by_cases hkk : k' = k
          · subst hkk
            simp [hne] at hk
          · simpa [hkk, hshm] using hk
        · simpa [hs, hshm] using hk
      obtain ⟨hshm₁, hle⟩ := pmmRef_spec r.2 (r.2.shm seg k) f
      obtain ⟨hshm₂, hle', hstuck⟩ := pmmUnref_spec (pmmRef r.2 (r.2.shm seg k)) r.1 f
      rw [one_of_ne hne.symm] at hle'
      dsimp only
      refine ⟨by omega, by omega, by simp [hshm₂.trans (hshm₁.trans hshm)], fun hs => ?_,
        fun rw' sh he => ?_⟩
      · simpa [Pte.shares, hshm] using hs.1
      cases he
      exact .inl (by simp [Pte.shares, hshm])
  | swap slot rw =>
    cases h₀ : pmmAlloc m with
    | none =>
      simp only [bringIn, h₀]
      exact .stays rfl rfl (by simp)
    | some r₀ =>
      obtain ⟨hne₀, hrefs₀, hshm₀⟩ := pmmAlloc_other h₀ hf
      have hback : (pmmUnref r₀.2 r₀.1).refs f = m.refs f := by
        rw [pmmUnref_other hne₀.symm, hrefs₀]
      have hshm₁ := (pmmUnref_spec r₀.2 r₀.1 f).1.trans hshm₀
      simp only [bringIn, h₀]
      cases h : pmmAlloc (pmmUnref r₀.2 r₀.1) with
      | none => exact .stays hback hshm₁ (by simp)
      | some r =>
        obtain ⟨hne, hrefs, hshm⟩ := pmmAlloc_other h (hback ▸ hf)
        dsimp only
        split
        · exact .fresh hne (by dsimp only; omega) (by dsimp only; omega) (by simp [hshm, hshm₁])
        refine .stays (by rw [pmmUnref_other hne.symm, hrefs, hback]) ?_ (by simp)
        rw [(pmmUnref_spec _ _ f).1, hshm, hshm₁]
  | page g rw cow sh =>
    cases cow with
    | false =>
      refine .stays rfl rfl fun rw' sh' he => ?_
      cases he
      cases sh with
      | true => exact .inl ⟨rfl, rfl⟩
      | false => exact .inr rfl
    | true =>
      simp only [bringIn, if_true]
      split
      · cases h : pmmAlloc m with
        | none => exact .stays rfl rfl (by simp)
        | some r =>
          obtain ⟨hne, hrefs, hshm⟩ := pmmAlloc_other h hf
          dsimp only
          obtain ⟨hshm', hle, hstuck⟩ := pmmUnref_spec r.2 g f
          exact .fresh hne (by simp only [Pte.count]; omega) (by omega) (by simp [hshm', hshm])
      next hone =>
      have hne : g ≠ f := by
        rintro rfl
        exact hcow (by simp [Pte.count, one]) (not_not.1 hone)
      exact .fresh hne (Nat.le_add_right _ _) id fun _ _ h => h

/-! ## The loop -/

/-- What a turn on page `v` leaves for the `n` pages behind it. -/
structure Step (foreign : Nat → Prop) (s s' : Image) (v n : Nat) : Prop where
  counted : Counted foreign s' (v + 1) n
  own : Own foreign s' (v + 1) n
  shares : ∀ f, foreign f → s'.Shares f → s.Shares f
  data : ∀ f, foreign f → ¬ s.Shares f → s'.data f = s.data f

theorem Counted.first (hc : Counted foreign s v (n + 1)) (hf : foreign f) :
    Pte.count f (s.pd v) + ((range' (v + 1) n).map fun w => Pte.count f (s.pd w)).sum + 1 ≤
      s.m.refs f ∨ 254 ≤ s.m.refs f := by
  simpa [range'_succ] using hc f hf

theorem Step.of_brought {e' : Pte} {data : Nat → List UInt8} (hc : Counted foreign s v (n + 1))
    (hown : Own foreign s v (n + 1)) (hv : s.pd v = some e)
    (hb : ∀ f, foreign f → Brought s.m m' e e' f)
    (hdata : ∀ f, foreign f → ¬ s.Shares f → data f = s.data f) :
    Step foreign s ⟨update s.pd v (some e'), m', data, s.swap⟩ v n := by
  have hother : ∀ w, w ≠ v → update s.pd v (some e') w = s.pd w := fun w hw => update_of_ne hw _ _
  refine ⟨fun f hf => ?_, fun w hw hlt f rw hw' => ?_, ?_, hdata⟩
  · have hsum : ((range' (v + 1) n).map fun w => Pte.count f (update s.pd v (some e') w)) =
        (range' (v + 1) n).map fun w => Pte.count f (s.pd w) := by
      refine map_congr_left fun w hw => ?_
      rw [hother w (by have := mem_range'_1.1 hw; omega)]
    have hfirst := hc.first hf
    rw [hv] at hfirst
    have hrefs := (hb f hf).refs
    have hstuck := (hb f hf).stuck
    dsimp only
    rw [hsum]
    omega
  · dsimp only at hw'
    rw [hother w (by omega)] at hw'
    exact hown w (by omega) (by omega) f rw hw'
  rintro f hf ⟨w, x, hx, hs⟩
  dsimp only at hx hs
  by_cases hw : w = v
  · subst hw
    rw [update_self, Option.mem_some_iff] at hx
    subst hx
    exact ⟨w, e, hv, (hb f hf).shares hs⟩
  rw [hother w hw] at hx
  refine ⟨w, x, hx, ?_⟩
  cases x with
  | shl seg k rw => exact (hb f hf).shm seg k hs
  | page g rw cow sh => exact hs
  | lazy rw | swap slot rw => exact hs.elim

theorem copyPage_step (bytes : List UInt8) (hc : Counted foreign s v (n + 1))
    (hown : Own foreign s v (n + 1)) : Step foreign s (copyPage readOk s v bytes).1 v n := by
  cases hv : s.pd v with
  | none =>
    simp only [copyPage, hv]
    refine ⟨fun f hf => ?_, fun w hw hlt => hown w (by omega) (by omega), fun _ _ h => h,
      fun _ _ _ => rfl⟩
    have hfirst := hc.first hf
    omega
  | some e =>
    have hb : ∀ f, foreign f → Brought s.m (bringIn readOk s.m e).2 e (bringIn readOk s.m e).1 f := by
      intro f hf
      have hfirst := hc.first hf
      rw [hv] at hfirst
      exact bringIn_brought e (by omega) (by omega)
    simp only [copyPage, hv]
    split
    · next g rw sh he =>
      rw [he] at hb ⊢
      refine .of_brought hc hown hv hb fun f hf hno => update_of_ne ?_ _ _
      rintro rfl
      rcases (hb f hf).writes rw sh rfl with hs | rfl
      · exact hno ⟨v, e, hv, hs⟩
      · exact hown v (Nat.le_refl v) (by omega) f rw hv hf
    · exact .of_brought hc hown hv hb fun _ _ _ => rfl

theorem copyTo_keeps (s : Image) (v : Nat) (pages : List (List UInt8))
    (hc : Counted foreign s v pages.length) (hown : Own foreign s v pages.length)
    (hf : foreign f) (hno : ¬ s.Shares f) : (copyTo readOk s v pages).1.data f = s.data f := by
  induction pages generalizing s v with
  | nil => rfl
  | cons bytes rest ih =>
    have hstep : Step foreign s (copyPage readOk s v bytes).1 v rest.length :=
      copyPage_step bytes hc hown
    simp only [copyTo]
    split
    · rw [ih _ _ hstep.counted hstep.own fun h => hno (hstep.shares f hf h)]
      exact hstep.data f hf hno
    · exact hstep.data f hf hno

theorem Counted.sub (hc : Counted foreign s v n) {w k : Nat} (hw : v ≤ w) (hk : w + k ≤ v + n) :
    Counted foreign s w k := by
  obtain ⟨a, rfl⟩ := Nat.exists_eq_add_of_le hw
  obtain ⟨b, rfl⟩ := Nat.exists_eq_add_of_le (show a + k ≤ n by omega)
  intro f hf
  have hall := hc f hf
  rw [← range'_append_1, ← range'_append_1, map_append, map_append, sum_append, sum_append] at hall
  omega

/-- Writing into a stretch of pages leaves alone every frame that others have and that the space
does not share with them, exactly if no present page of the stretch without `PTE_COW` and
`PTE_SHARED` has such a frame. -/
theorem copyTo_keeps_iff (foreign : Nat → Prop) (s : Image) (v n : Nat)
    (hc : Counted foreign s v n) :
    (∀ readOk w pages f, v ≤ w → w + pages.length ≤ v + n → (∀ b ∈ pages, b.length ≤ 4096) →
        foreign f → ¬ s.Shares f → (copyTo readOk s w pages).1.data f = s.data f) ↔
      ∀ w f rw, v ≤ w → w < v + n → s.pd w = some (.page f rw false false) → foreign f →
        s.Shares f := by
  constructor
  · intro hkeeps w f rw hvw hwn hw hf
    by_contra hno
    have hwrite : ∀ b, (copyTo true s w [[b]]).1.data f = b :: (s.data f).drop 1 := by
      simp [copyTo, copyPage, hw, bringIn, Image.fill]
    have hsame : ∀ b, b :: (s.data f).drop 1 = s.data f := fun b =>
      hwrite b ▸ hkeeps true w [[b]] f hvw hwn (by simp) hf hno
    exact absurd ((hsame 0).trans (hsame 1).symm) (by simp)
  intro hown readOk w pages f hvw hwn _ hf hno
  have hc' : Counted (fun g => foreign g ∧ ¬ s.Shares g) s w pages.length :=
    fun g hg => hc.sub hvw hwn g hg.1
  refine copyTo_keeps s w pages hc' (fun x hx hxn g rw hg hno => ?_) ⟨hf, hno⟩ hno
  exact hno.2 (hown x g rw (hvw.trans hx) (hxn.trans_le hwn) hg hno.1)

/-- One page with frame 5, which so many have that its count stays. -/
def manyHolders (cow : Bool) : Image where
  pd := fun v => if v = 0 then some (.page 5 false cow false) else none
  m := ⟨fun f => if f = 5 then 255 else 0, 8, 0, fun _ _ => 0⟩
  data := fun _ => [7]
  swap := fun _ => []

theorem manyHolders_entry {cow : Bool} {w : Nat} (h : (manyHolders cow).pd w = some e) :
    e = .page 5 false cow false := by
  simp only [manyHolders, Option.ite_none_right_eq_some, Option.some.injEq] at h
  exact h.2.symm

theorem manyHolders_alone (cow : Bool) : ¬ (manyHolders cow).Shares 5 := by
  rintro ⟨w, e, he, hs⟩
  obtain rfl := manyHolders_entry he
  cases hs.2

theorem copyTo_keeps_iff_cow : (copyTo true (manyHolders true) 0 [[9]]).2 = true ∧
      (copyTo true (manyHolders true) 0 [[9]]).1.data 5 = [7] := by
  refine ⟨by decide +kernel, (copyTo_keeps_iff (· = 5) (manyHolders true) 0 1 ?_).2 ?_ true 0 [[9]] 5
    (by simp) (by simp) (by simp) rfl (manyHolders_alone true)⟩
  · rintro _ rfl
    exact .inr (by decide)
  intro w f rw _ _ hw
  cases manyHolders_entry hw

/-- A debugger writes into program text, which is a page of the page cache. -/
theorem copyTo_writes_text : ¬ (manyHolders false).Shares 5 ∧
    (manyHolders false).data 5 = [7] ∧ (copyTo true (manyHolders false) 0 [[9]]).1.data 5 = [9] :=
  ⟨manyHolders_alone false, rfl, by decide +kernel⟩

end SamaraOS.Frames
