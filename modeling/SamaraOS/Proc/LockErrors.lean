import SamaraOS.Proc.RecordLocks

/-!
# Lock requests that fail

A request first cuts the owner's old locks and then adds the new one.  If there is no memory for
the new one the old ones are gone.
-/

namespace SamaraOS.Flock

/-- The owner has a lock that sticks out on both sides of the range, and no memory to split it. -/
def Wedged (env : Env) (ls : List Lock) (r : Request) : Prop :=
  env.cutMem = false ∧ r.kind ≠ .flock ∧
    ∃ l ∈ ls, l.toKey = r.toKey ∧ l.span.s < r.span.s ∧ r.span.e < l.span.e

/-- What keeps a failing order from giving up locks. -/
def Spared (env : Env) (ls : List Lock) : Order → Prop
  | .lock r _ =>
    env.addMem = true ∨ findClash ls r ≠ none ∨ Wedged env ls r ∨
      ∀ b ∈ r.span, held ls r.toKey b = none
  | _ => True

variable {ls : List Lock} {l : Lock} {k : Key} {span : Span 64}
variable {env : Env} {st : State} {r : Request} {e : Errno}

theorem cut_wedged (hx : Exclusive ls) (hl : l ∈ ls) (hk : l.toKey = k)
    (hs : l.span.s < span.s) (he : span.e < l.span.e) : (cut false k span ls).2 = false := by
  have hle := span.le
  have hin : ∀ m : Lock, m.span.s ≤ span.e → span.s ≤ m.span.e → m.span.Meets l.span := by
    intro m h1 h2
    constructor <;> bv_omega
  induction ls with
  | nil => cases hl
  | cons m ls ih =>
    rw [cut]
    rcases List.mem_cons.1 hl with rfl | hl
    · rw [if_neg, dif_pos hs, dif_pos he]
      · rfl
      rintro (hne | hlt | hlt)
      · exact hne hk
      · bv_omega
      · bv_omega
    by_cases hm : m.toKey ≠ k ∨ span.e < m.span.s ∨ m.span.e < span.s
    · rw [if_pos hm]
      exact ih hx.of_cons hl
    simp only [not_or, ne_eq, not_not, BitVec.not_lt] at hm
    have hrival := rival_of_key (hm.1.trans hk.symm)
    exact absurd (hin m hm.2.1 hm.2.2) ((List.pairwise_cons.1 hx).1 l hl hrival)

theorem cut_fails_iff (hx : Exclusive ls) : (cut env.cutMem r.toKey r.span ls).2 = false ↔
    Wedged env ls r := by
  constructor
  · intro hf
    obtain ⟨l, hl, hk, -, hs, he, hmem⟩ := cut_fails hf
    have hkind : r.kind ≠ .flock := fun h => by simp [cut_request_ok h] at hf
    exact ⟨hmem, hkind, l, hl, hk, hs, he⟩
  rintro ⟨hmem, -, l, hl, hk, hs, he⟩
  rw [hmem]
  exact cut_wedged hx hl hk hs he

theorem Bytes.set_none_iff (h : Bytes) (k : Key) (span : Span 64) :
    h.set k span none = h ↔ ∀ b ∈ span, h k b = none := by
  constructor
  · intro heq b hb
    rw [← heq]
    simp [Bytes.set, hb]
  intro hnone
  funext k' b
  simp only [Bytes.set]
  split_ifs with hkb
  · rw [hkb.1, hnone b hkb.2]
  · rfl

theorem finish_error (hx : Exclusive st.locks) (hfree : findClash st.locks r = none)
    (herr : (finish env st r).2 = .error e) :
    held (finish env st r).1.locks = held st.locks ↔ Spared env st.locks (.lock r false) := by
  have hcut : (cut env.cutMem r.toKey r.span st.locks).2 = false ↔ Wedged env st.locks r :=
    cut_fails_iff hx
  unfold finish at herr ⊢
  cases hok : (cut env.cutMem r.toKey r.span st.locks).2 with
  | false =>
    have hwedged := hcut.1 hok
    simp [hok, hwedged.2.1, cut_of_fails hx hok, Spared, hwedged]
  | true =>
    have hwedged : ¬ Wedged env st.locks r := fun h => by simp [hcut.2 h] at hok
    cases hmem : env.addMem with
    | true => simp [hok, hmem] at herr
    | false => simp [hok, hmem, Spared, hfree, hwedged, held_cut hx hok, Bytes.set_none_iff]

theorem poll_error {t : Thread} {wait : Bool} (hx : Exclusive st.locks)
    (herr : (poll env st t r wait).2 = .error e) :
    held (poll env st t r wait).1.locks = held st.locks ↔ Spared env st.locks (.lock r wait) := by
  unfold poll at herr ⊢
  cases hc : findClash st.locks r with
  | none =>
    rw [hc] at herr
    have hx' : Exclusive (st.wake t (waitClr r.own st.wt)).locks := hx
    exact finish_error hx' hc herr
  | some c =>
    refine iff_of_true ?_ (.inr (.inl (by simp [hc])))
    dsimp only
    split_ifs <;> rfl

theorem perform_error {t : Thread} (o : Order) (hx : Exclusive st.locks)
    (herr : (perform env st t o).2 = .error e) :
    held (perform env st t o).1.locks = held st.locks ↔ Spared env st.locks o := by
  cases o with
  | nothing | query r u => cases herr
  | lock r wait => exact poll_error hx herr
  | unlock k span =>
    have hok : (cut env.cutMem k span st.locks).2 = false :=
      Bool.eq_false_iff.2 fun hok => by simp [perform, hok] at herr
    refine iff_of_true ?_ trivial
    simp [perform, cut_of_fails hx hok]

/-- A call that fails leaves every owner's locks alone exactly if it is spared. -/
theorem failed_locks_kept_iff (evs : List (Env × Event)) (env : Env) (ev : Event) (e : Errno)
    (herr : (step env (play boot evs) ev).2 = .error e) :
    held (step env (play boot evs) ev).1.locks = held (play boot evs).locks ↔
      Spared env (play boot evs).locks (order (play boot evs) ev) := by
  have hboot : Exclusive boot.locks := List.Pairwise.nil
  have hx := play_exclusive hboot evs
  generalize play boot evs = st at *
  cases ev with
  | flock t f op =>
    simp only [step, flkFlock, order] at herr ⊢
    cases hord : flockOrder f op with
    | error e => exact iff_of_true rfl trivial
    | ok o =>
      rw [hord] at herr
      exact perform_error o hx herr
  | fcntl t f cmd u =>
    simp only [step, flkFcntl, order] at herr ⊢
    cases hord : fcntlOrder t.sh f cmd u with
    | error e => exact iff_of_true rfl trivial
    | ok o =>
      rw [hord] at herr
      exact perform_error o hx herr
  | poll t =>
    simp only [step, order] at herr ⊢
    cases hr : st.asleep t with
    | none => simp [hr] at herr
    | some r =>
      simp only [hr] at herr
      exact poll_error hx herr
  | close sh f | release f | exit sh => cases herr

def locked (op : U32) : State :=
  play boot [(⟨true, true, false, 9⟩, .flock ⟨0, 0⟩ ⟨1, true, 7, 2, 0, 0⟩ op)]

/-- Another user, who is refused, leaves the lock alone. -/
theorem failed_locks_kept_iff_refused :
    held (step ⟨true, false, false, 9⟩ (locked 2) (.flock ⟨1, 0⟩ ⟨2, true, 7, 2, 0, 0⟩ 6)).1.locks =
      held (locked 2).locks :=
  (failed_locks_kept_iff _ _ _ .eagain (by decide +kernel)).2 (.inr (.inl (by decide +kernel)))

/-- The user makes the shared lock exclusive, there is no memory, and the shared lock is gone. -/
theorem failed_upgrade_loses :
    (step ⟨true, false, false, 9⟩ (locked 1) (.flock ⟨0, 0⟩ ⟨1, true, 7, 2, 0, 0⟩ 2)).2 =
      .error .enomem ∧
    held (step ⟨true, false, false, 9⟩ (locked 1) (.flock ⟨0, 0⟩ ⟨1, true, 7, 2, 0, 0⟩ 2)).1.locks ≠
      held (locked 1).locks := by
  refine ⟨by decide +kernel, fun h => ?_⟩
  have hbyte := congrFun (congrFun h ⟨7, .flock, .file 1⟩) 0
  exact absurd hbyte (by decide +kernel)

end SamaraOS.Flock
