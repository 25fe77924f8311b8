import Mathlib

/-!
# The completion queue (uring.c)

A completion goes into the ring, or behind the overflow list while there is one or the ring is
full.  Head and tail run on through all 32 bits, the user moves the head up to the tail.
-/

namespace SamaraOS.Completions

open Function List

structure Cqe where
  userData : BitVec 64
  res : BitVec 32
  flags : BitVec 32

structure Cq where
  k : Fin 17
  cqes : Nat → Cqe
  head : BitVec 32
  tail : BitVec 32
  ovf : List Cqe
  /-- `IORING_SQ_CQ_OVERFLOW`. -/
  flag : Bool
  cqOvf : BitVec 32

def setup (k : Fin 17) (cqes : Nat → Cqe) : Cq := ⟨k, cqes, 0, 0, [], false, 0⟩

variable (q : Cq)

def cqN : Nat := 2 ^ q.k.val

def slot (t : BitVec 32) : Nat := (t &&& .ofNat 32 (cqN q - 1)).toNat

def used : Nat := (q.tail - q.head).toNat

def put (c : Cqe) : Cq :=
  { q with cqes := update q.cqes (slot q q.tail) c, tail := q.tail + 1 }

/-- The loop of `cq_flush`, with what is left of the list. -/
def flushFrom : List Cqe → Cq → Cq
  | [], q => { q with ovf := [], flag := false }
  | c :: cs, q => if used q < cqN q then flushFrom cs (put q c) else { q with ovf := c :: cs }

def cqFlush : Cq := flushFrom q.ovf q

/-- `mem` says whether `ovf_new` finds a node. -/
def cqPost (mem : Bool) (c : Cqe) : Cq :=
  let q := cqFlush q
  if q.ovf = [] ∧ used q < cqN q then put q c
  else if mem then { q with ovf := q.ovf ++ [c], flag := true }
  else { q with cqOvf := q.cqOvf + 1 }

def unread : List Cqe := (List.range (used q)).map fun i => q.cqes (slot q (q.head + .ofNat 32 i))

inductive Op where
  | post (mem : Bool) (c : Cqe)
  | flush
  | read (n : Nat)

def read (n : Nat) : Cq := { q with head := q.head + .ofNat 32 n }

def next : Op → Cq
  | .post mem c => cqPost q mem c
  | .flush => cqFlush q
  | .read n => read q (min n (used q))

/-- What the user takes. -/
def got : Op → List Cqe
  | .read n => (unread q).take (min n (used q))
  | _ => []

/-- A completion has a place if `ovf_new` finds a node, or the ring has room for it behind all
that waits in the overflow list. -/
def placed (mem : Bool) : Bool := mem || used q + q.ovf.length < cqN q

def kept : Op → List Cqe
  | .post mem c => if placed q mem then [c] else []
  | _ => []

def lost : Op → List Cqe
  | .post mem c => if placed q mem then [] else [c]
  | _ => []

def along (f : Cq → Op → List Cqe) : Cq → List Op → List Cqe
  | _, [] => []
  | q, op :: ops => f q op ++ along f (next q op) ops

structure Inv : Prop where
  used_le : used q ≤ cqN q
  flag : q.flag = true ↔ q.ovf ≠ []

/-- From `q` to `q'` with `out` taken, `new` posted and `gone` lost: what is unread stays, and is
followed by what moves on from the overflow list. -/
structure Moves (q q' : Cq) (out new gone : List Cqe) : Prop where
  inv : Inv q'
  counted : q'.cqOvf = q.cqOvf + .ofNat 32 gone.length
  order : ∃ moved, out ++ unread q' = unread q ++ moved ∧ moved ++ q'.ovf = q.ovf ++ new

variable {q : Cq} {c : Cqe}

theorem Moves.trans {q' q'' : Cq} {out out' new new' gone gone' : List Cqe}
    (h : Moves q q' out new gone) (h' : Moves q' q'' out' new' gone') :
    Moves q q'' (out ++ out') (new ++ new') (gone ++ gone') := by
  obtain ⟨moved, hring, hovf⟩ := h.order
  obtain ⟨moved', hring', hovf'⟩ := h'.order
  refine ⟨h'.inv, ?_, moved ++ moved', ?_, ?_⟩
  · rw [h'.counted, h.counted, length_append, BitVec.ofNat_add, BitVec.add_assoc]
  · rw [append_assoc, hring', ← append_assoc, hring, append_assoc]
  · rw [append_assoc, hovf', ← append_assoc, hovf, append_assoc]

theorem cqN_le (q : Cq) : cqN q ≤ 65536 :=
  Nat.pow_le_pow_right (by decide) (Nat.le_of_lt_succ q.k.isLt)

theorem slot_add (i : Nat) : slot q (q.head + .ofNat 32 i) = (q.head.toNat + i) % cqN q := by
  have hdvd : 2 ^ q.k.val ∣ 2 ^ 32 := Nat.pow_dvd_pow 2 (by omega)
  have hlt : cqN q - 1 < 2 ^ 32 := by have := cqN_le q; omega
  rw [slot, BitVec.toNat_and, BitVec.toNat_ofNat, Nat.mod_eq_of_lt hlt, cqN,
    Nat.and_two_pow_sub_one_eq_mod, BitVec.toNat_add, BitVec.toNat_ofNat, Nat.add_mod_mod,
    Nat.mod_mod_of_dvd _ hdvd]

theorem tail_eq (q : Cq) : q.head + .ofNat 32 (used q) = q.tail := by
  rw [used, BitVec.ofNat_toNat, BitVec.setWidth_eq, BitVec.add_comm, BitVec.sub_add_cancel]

theorem used_put (h : used q < cqN q) : used (put q c) = used q + 1 := by
  have hle := cqN_le q
  unfold used at h ⊢
  simp only [put]
  bv_omega

/-- The slot behind the tail is none of the unread ones. -/
theorem unread_put (h : used q < cqN q) : unread (put q c) = unread q ++ [c] := by
  have hslot : ∀ i < used q, slot q (q.head + .ofNat 32 i) ≠ slot q q.tail := by
    intro i hi heq
    rw [← tail_eq q, slot_add, slot_add] at heq
    have hmod : i % cqN q = used q % cqN q := Nat.ModEq.add_left_cancel' q.head.toNat heq
    rw [Nat.mod_eq_of_lt (hi.trans h), Nat.mod_eq_of_lt h] at hmod
    omega
  rw [unread, used_put h, range_succ, map_append, map_singleton]
  congr 1
  · exact map_congr_left fun i hi => update_of_ne (hslot i (mem_range.1 hi)) _ _
  change [update q.cqes (slot q q.tail) c (slot q (q.head + .ofNat 32 (used q)))] = [c]
  rw [tail_eq, update_self]

/-- After a flush the ring takes another completion exactly if it had room for all of the list
and for one more. -/
theorem flushFrom_room (cs : List Cqe) (h : used q ≤ cqN q) :
    ((flushFrom cs q).ovf = [] ∧ used (flushFrom cs q) < cqN (flushFrom cs q)) ↔
      used q + cs.length < cqN q := by
  induction cs generalizing q with
  | nil => simp [flushFrom, used, cqN]
  | cons c cs ih =>
    rw [flushFrom]
    split
    next hroom =>
      rw [ih (by rw [used_put hroom]; exact hroom), used_put hroom, length_cons,
        Nat.add_right_comm]
      rfl
    · simp
      omega

theorem flushFrom_moves (cs : List Cqe) (h : Inv q) (ho : cs ≠ [] → q.ovf ≠ []) :
    Inv (flushFrom cs q) ∧ (flushFrom cs q).cqOvf = q.cqOvf ∧ ∃ moved,
      unread (flushFrom cs q) = unread q ++ moved ∧ moved ++ (flushFrom cs q).ovf = cs := by
  induction cs generalizing q with
  | nil => exact ⟨⟨h.used_le, by simp [flushFrom]⟩, rfl, [], (append_nil _).symm, rfl⟩
  | cons c cs ih =>
    have hne := ho (cons_ne_nil _ _)
    rw [flushFrom]
    split
    next hroom =>
      obtain ⟨hinv, hlost, moved, hring, hovf⟩ := ih (q := put q c)
        ⟨by rw [used_put hroom]; exact hroom, h.flag⟩ fun _ => hne
      rw [unread_put hroom, append_assoc] at hring
      exact ⟨hinv, hlost, c :: moved, hring, congrArg (c :: ·) hovf⟩
    · exact ⟨⟨h.used_le, by simp [h.flag.2 hne]⟩, rfl, [], (append_nil _).symm, rfl⟩

theorem unread_read {m : Nat} (h : m ≤ used q) :
    (unread q).take m ++ unread (read q m) = unread q ∧ used (read q m) ≤ used q := by
  obtain ⟨r, hr⟩ := Nat.exists_eq_add_of_le h
  have hused : used (read q m) = r := by
    unfold used at hr ⊢
    simp only [read]
    bv_omega
  refine ⟨?_, by omega⟩
  rw [unread, unread, hused, hr, range_add, map_append, take_left' (by simp), map_map]
  congr 1
  refine map_congr_left fun i _ => ?_
  simp only [comp_apply, BitVec.ofNat_add, ← BitVec.add_assoc]
  rfl

theorem next_moves (h : Inv q) (op : Op) :
    Moves q (next q op) (got q op) (kept q op) (lost q op) := by
  obtain ⟨hinv, hlost, moved, hring, hovf⟩ := flushFrom_moves q.ovf h id
  cases op with
  | flush => exact ⟨hinv, by simpa [lost, next, cqFlush] using hlost, moved, hring,
      hovf.trans (append_nil _).symm⟩
  | read n =>
    obtain ⟨hunread, hused⟩ := unread_read (Nat.min_le_right n (used q))
    exact ⟨⟨hused.trans h.used_le, h.flag⟩, by simp [lost, next, read], [],
      hunread.trans (append_nil _).symm, (append_nil _).symm⟩
  | post mem c =>
    have hroom := flushFrom_room q.ovf h.used_le
    rw [next, kept, lost, placed]
    unfold cqPost cqFlush
    simp only [← hroom]
    generalize flushFrom q.ovf q = q' at *
    split
    next hc =>
      rw [if_pos (by simp [hc])]
      refine ⟨⟨by rw [used_put hc.2]; exact hc.2, hinv.flag⟩, by simp [hc, put, hlost],
        moved ++ [c], ?_, ?_⟩
      · rw [unread_put hc.2, hring, append_assoc]
        rfl
      · rw [← hovf, show (put q' c).ovf = [] from hc.1, hc.1, append_nil, append_nil]
    next hc =>
    cases mem with
    | true => exact ⟨⟨hinv.used_le, by simp⟩, by simpa using hlost, moved, hring, by simp [← hovf]⟩
    | false =>
      simp only [hc, decide_false, Bool.or_false, Bool.false_eq_true, if_false]
      exact ⟨⟨hinv.used_le, hinv.flag⟩, congrArg (· + 1) hlost, moved, hring,
        hovf.trans (append_nil _).symm⟩

theorem run_moves (h : Inv q) (ops : List Op) :
    Moves q (ops.foldl next q) (along got q ops) (along kept q ops) (along lost q ops) := by
  induction ops generalizing q with
  | nil => exact ⟨h, by simp [along], [], (append_nil _).symm, (append_nil _).symm⟩
  | cons op ops ih =>
    have hstep := next_moves h op
    exact hstep.trans (ih hstep.inv)

/-- From any state on, the user reads what is posted and has a place, in this order; what is not
read yet is in the ring and the overflow list, and what has no place is counted. -/
theorem cq_order (k : Fin 17) (cqes : Nat → Cqe) (before ops : List Op) :
    let q := before.foldl next (setup k cqes)
    Moves q (ops.foldl next q) (along got q ops) (along kept q ops) (along lost q ops) :=
  run_moves (run_moves ⟨by simp [used, setup], by simp [setup]⟩ before).inv ops

end SamaraOS.Completions
