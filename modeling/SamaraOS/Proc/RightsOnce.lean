import SamaraOS.Lib.Weights
import SamaraOS.Proc.Rights

/-!
# Every reference in flight is released once

Every call is a sequence of steps of a ledger, so the law about references holds in a run
exactly if nothing slips.
-/

namespace SamaraOS.Rights

def Pipe.tokens (q : Pipe) : Multiset Nat := ↑(q.fds.map Ref.token)

def Sys.ledger (s : Sys) : Ledger :=
  { issued := s.issued
    waiting := (s.pipes.map Pipe.tokens).sum
    released := ↑s.fates
    slips := s.slips.length }

section

variable {s : Sys} {p : Nat} {q : Pipe}

theorem pipe_mem (h : (s.pipe p).gone = false ∨ (s.pipe p).fds ≠ []) :
    s.pipes[p]? = some (s.pipe p) := by
  unfold Sys.pipe at h ⊢
  rw [List.getD_eq_getElem?_getD] at h ⊢
  cases hp : s.pipes[p]? with
  | some q => rfl
  | none => simp [hp] at h

theorem waiting_set (hp : s.pipes[p]? = some (s.pipe p)) (q : Pipe) :
    (s.setPipe p q).ledger.waiting + (s.pipe p).tokens = s.ledger.waiting + q.tokens :=
  sum_map_set Pipe.tokens hp q

theorem ledger_setPipe (h : q.fds = (s.pipe p).fds) : (s.setPipe p q).ledger = s.ledger := by
  have hwait : (s.setPipe p q).ledger.waiting = s.ledger.waiting := by
    cases hp : s.pipes[p]? with
    | none =>
      have hlen := List.getElem?_eq_none_iff.1 hp
      simp only [Sys.ledger, Sys.setPipe, List.set_eq_of_length_le hlen]
    | some x =>
      have hx : s.pipe p = x := by simp [Sys.pipe, hp]
      have htok : q.tokens = (s.pipe p).tokens := by simp [Pipe.tokens, h]
      have := waiting_set (hx ▸ hp) q
      rw [htok] at this
      exact add_right_cancel this
  exact congrArg (fun w => { s.ledger with waiting := w }) hwait

end

open Ledger Multiset

section

variable (s : Sys)

section

variable (f p : Nat)

theorem ledger_shutRd : (shutRd s f p).ledger = s.ledger := by
  unfold shutRd
  simp only
  split
  · rfl
  · exact ledger_setPipe rfl

theorem ledger_shutWr : (shutWr s f p).ledger = s.ledger := by
  unfold shutWr
  simp only
  split
  · rfl
  · exact ledger_setPipe rfl

theorem ledger_spairShutdown (how : Nat) : (spairShutdown s f how).ledger = s.ledger := by
  unfold spairShutdown
  split
  · rfl
  next p p2 hkind =>
  simp only
  have hrd : (if how = 0 ∨ how = 2 then shutRd s f p else s).ledger = s.ledger := by
    split
    · exact ledger_shutRd s f p
    · rfl
  split
  · exact (ledger_shutWr _ f p2).trans hrd
  · exact hrd

theorem freePipe_steps : Steps s.ledger (freePipe s p).ledger := by
  unfold freePipe
  simp only
  split
  swap
  · exact .refl _
  next hdead =>
  have hp := pipe_mem (.inl hdead.2.2)
  split
  next hnil =>
    have : (s.setPipe p { s.pipe p with fds := [], gone := true }).ledger = s.ledger :=
      ledger_setPipe hnil.symm
    rw [this]
    exact .refl _
  next hne =>
  refine Step.steps (.drop (s.pipe p).tokens ?_ rfl ?_ rfl ?_)
  · simpa [Pipe.tokens] using hne
  · have := waiting_set hp { s.pipe p with fds := [], gone := true }
    exact (add_zero _).symm.trans this.symm
  · simp [Sys.ledger, Sys.setPipe]

theorem fileClose_steps : Steps s.ledger (fileClose s f).ledger := by
  unfold fileClose
  simp only
  split
  · exact .refl _
  split
  · exact .refl _
  next p p2 hkind =>
  generalize hs : s.setFile f { s.file f with refs := (s.file f).refs - 1 } = s'
  have hled : s'.ledger = s.ledger := by rw [← hs]; rfl
  have hshut := ledger_spairShutdown s' f 2
  have hfree := (freePipe_steps (spairShutdown s' f 2) p).trans (freePipe_steps _ p2)
  rwa [hshut, hled] at hfree

end

theorem installFd_steps (proc f : Nat) : Steps s.ledger (installFd s proc f).1.ledger := by
  unfold installFd
  split
  · exact .refl _
  · exact fileClose_steps s f

/-! ## Messages -/

section

variable (proc fd p : Nat)

theorem queueRef_steps (x : Nat) : Steps s.ledger (queueRef s p x).ledger := by
  unfold queueRef
  simp only
  generalize hs : fileRef { s with issued := s.issued + 1 } x = s'
  have hi : s'.ledger.issued = s.ledger.issued + 1 := by rw [← hs]; rfl
  have hw : s'.ledger.waiting = s.ledger.waiting := by rw [← hs]; rfl
  have hr : s'.ledger.released = s.ledger.released := by rw [← hs]; rfl
  have hl : s'.ledger.slips = s.ledger.slips := by rw [← hs]; rfl
  split
  · refine Step.steps (.lose hi hw hr ?_)
    simp only [Sys.ledger, List.length_append, List.length_singleton] at hl ⊢
    omega
  next hlive =>
  have hp := pipe_mem (.inl (by simpa using hlive))
  split
  · refine Step.steps (.queue hi ?_ hr hl)
    have := waiting_set hp { s'.pipe p with
      fds := (s'.pipe p).fds ++ [⟨s.issued, x, (s'.pipe p).wtot⟩] }
    have htok : Pipe.tokens { s'.pipe p with
        fds := (s'.pipe p).fds ++ [⟨s.issued, x, (s'.pipe p).wtot⟩] }
        = {s.issued} + (s'.pipe p).tokens := by
      simp only [Pipe.tokens, List.map_append, ← coe_add]
      rw [add_comm]
      rfl
    rw [htok, ← add_assoc] at this
    rw [← hw]
    exact add_right_cancel this
  have hreject : Step s.ledger (Sys.ledger { s' with fates := s'.fates ++ [s.issued] }) := by
    refine .reject hi hw ?_ hl
    simp only [Sys.ledger, ← coe_add] at hr ⊢
    rw [hr]
    rfl
  exact hreject.steps.trans (fileClose_steps _ x)

theorem queueAll_steps (fds : List Nat) : Steps s.ledger (queueAll s proc p fds).ledger := by
  induction fds generalizing s with
  | nil => exact .refl _
  | cons fd fds ih =>
    refine .trans ?_ (ih _)
    dsimp only
    split
    · exact .refl _
    next x hx => exact queueRef_steps s p x

theorem sendmsg_steps (fds : List Nat) (n : Nat) :
    Steps s.ledger (sendmsg s proc fd fds n).ledger := by
  unfold sendmsg
  split
  · exact .refl _
  next f hf =>
  split
  · exact .refl _
  next _ p hkind =>
  have hbytes : (sendBytes (queueAll s proc p fds) f p n).ledger
      = (queueAll s proc p fds).ledger := by
    unfold sendBytes
    simp only
    split
    · rfl
    · exact ledger_setPipe rfl
  rw [hbytes]
  exact queueAll_steps s proc p fds

theorem installRef_steps {p proc : Nat} {r : Ref} {rest : List Ref}
    (h : (s.pipe p).fds = r :: rest) :
    Steps s.ledger (installRef (s.setPipe p { s.pipe p with fds := rest }) proc r).1.ledger := by
  generalize hs : s.setPipe p { s.pipe p with fds := rest } = s'
  have hw : s.ledger.waiting = s'.ledger.waiting + {r.token} := by
    have hp : s.pipes[p]? = some (s.pipe p) := pipe_mem (.inr (by simp [h]))
    have := waiting_set hp { s.pipe p with fds := rest }
    have htok : (s.pipe p).tokens = {r.token} + Pipe.tokens { s.pipe p with fds := rest } := by
      rw [Pipe.tokens, h, singleton_add]
      rfl
    rw [htok, ← add_assoc, hs] at this
    exact (add_right_cancel this).symm
  have hother : s'.issued = s.issued ∧ s'.fates = s.fates ∧ s'.slips = s.slips := by
    rw [← hs]
    exact ⟨rfl, rfl, rfl⟩
  have hsettle : Steps s.ledger (Sys.ledger { s' with fates := s'.fates ++ [r.token] }) := by
    refine Step.steps (.settle r.token hother.1 hw ?_ ?_)
    · simp only [Sys.ledger, ← coe_add, hother.2.1]
      rfl
    · simp only [Sys.ledger, hother.2.2]
  have hinst := hsettle.trans
    (installFd_steps { s' with fates := s'.fates ++ [r.token] } proc r.file)
  have hmem : r.token ∈
      (installFd { s' with fates := s'.fates ++ [r.token] } proc r.file).1.ledger.released :=
    (installFd_steps _ proc r.file).mem_released (by simp [Sys.ledger])
  unfold installRef
  split
  next s'' fd heq =>
    rw [heq] at hinst
    exact hinst
  next s'' heq =>
  rw [heq] at hinst hmem
  have hagain : Step s''.ledger (Sys.ledger { s'' with
      fates := s''.fates ++ [r.token]
      slips := s''.slips ++ [.closedTwice r.token] }) := by
    refine .again r.token hmem rfl rfl ?_ ?_
    · simp only [Sys.ledger, ← coe_add]
      rfl
    · simp [Sys.ledger]
  exact (hinst.trans hagain.steps).trans (fileClose_steps _ r.file)

theorem takeRefs_steps (room fuel k : Nat) :
    Steps s.ledger (takeRefs proc p room fuel k s).ledger := by
  induction fuel generalizing s k with
  | zero => exact .refl _
  | succ fuel ih =>
    rw [takeRefs]
    split
    · exact .refl _
    next r rest hfds =>
    split
    · exact (installRef_steps s hfds).trans (ih _ _)
    · exact .refl _

theorem recvmsg_steps (n room : Nat) : Steps s.ledger (recvmsg s proc fd n room).ledger := by
  unfold recvmsg
  split
  · exact .refl _
  next f hf =>
  split
  · exact .refl _
  next p _ hkind =>
  simp only
  split
  · exact .refl _
  have hread : ∀ rtot, (s.setPipe p { s.pipe p with rtot := rtot }).ledger = s.ledger :=
    fun rtot => ledger_setPipe rfl
  split
  · rw [hread]
    exact .refl _
  have htake := takeRefs_steps
    (s.setPipe p { s.pipe p with
      rtot := (s.pipe p).rtot +
        if (s.file f).shutRd then 0 else min n ((s.pipe p).wtot - (s.pipe p).rtot) })
    proc p room 32 0
  rwa [hread] at htake

theorem ledger_spairCreate : (spairCreate s).ledger = s.ledger := by
  simp [spairCreate, Sys.ledger, Pipe.tokens]

theorem doSocketpair_steps : Steps s.ledger (doSocketpair s proc).ledger := by
  unfold doSocketpair
  simp only
  have hx := installFd_steps (spairCreate s) proc s.files.length
  rw [ledger_spairCreate] at hx
  split
  next s' heq =>
    rw [heq] at hx
    exact hx.trans (fileClose_steps s' _)
  next s' a heq =>
  rw [heq] at hx
  have hy := hx.trans (installFd_steps s' proc (s.files.length + 1))
  split
  next s'' heq' =>
    rw [heq'] at hy
    exact hy.trans (fileClose_steps (s''.setSlot proc a none) _)
  next s'' b heq' =>
  rw [heq'] at hy
  exact hy

end

theorem next_steps (e : Event) : Steps s.ledger (next s e).ledger := by
  cases e with
  | openFile proc =>
    exact installFd_steps { s with files := s.files ++ [{ refs := 1, kind := .plain }] } proc _
  | socketpair proc => exact doSocketpair_steps s proc
  | dup proc fd dst =>
    simp only [next, dup]
    split
    · exact .refl _
    next f hf => exact installFd_steps (fileRef s f) dst f
  | close proc fd =>
    simp only [next, close]
    split
    · exact .refl _
    next f hf => exact fileClose_steps (s.setSlot proc fd none) f
  | shutdown proc fd how =>
    simp only [next, shutdown]
    split
    · exact .refl _
    next f hf =>
    rw [ledger_spairShutdown]
    exact .refl _
  | setrlimit proc n => exact .refl _
  | sendmsg proc fd fds n => exact sendmsg_steps s proc fd fds n
  | recvmsg proc fd n room => exact recvmsg_steps s proc fd n room

theorem play_steps (events : List Event) : Steps s.ledger (play s events).ledger := by
  induction events generalizing s with
  | nil => exact .refl _
  | cons e events ih => exact (next_steps s e).trans (ih (next s e))

end

def Sys.inQueues (s : Sys) (t : Nat) : Nat :=
  (s.pipes.map fun q => (q.fds.map Ref.token).count t).sum

def ReleasedOnce (s : Sys) : Prop :=
  ∀ t < s.issued, s.inQueues t + s.fates.count t = 1

instance (s : Sys) : Decidable (ReleasedOnce s) :=
  inferInstanceAs (Decidable (∀ t < s.issued, s.inQueues t + s.fates.count t = 1))

theorem inQueues_eq (s : Sys) (t : Nat) : s.inQueues t = s.ledger.waiting.count t := by
  simp only [Sys.inQueues, Sys.ledger]
  induction s.pipes with
  | nil => rfl
  | cons q pipes ih =>
    rw [List.map_cons, List.sum_cons, ih, List.map_cons, List.sum_cons, count_add,
      Pipe.tokens, coe_count]

/-- After any calls every reference sent waits, or was installed or closed once, exactly if no
`recvmsg` found the table full, no pipe was freed with references in its queue, and none was put
into a freed pipe. -/
theorem releasedOnce_iff (events : List Event) :
    ReleasedOnce (play boot events) ↔ (play boot events).slips = [] := by
  have hboot : boot.ledger.Once := fun t => rfl
  rcases hboot.steps (play_steps boot events) with ⟨hslips, ho⟩ | ⟨hslips, t, ht, hw, hr⟩
  · refine iff_of_true (fun t ht => ?_) (List.eq_nil_of_length_eq_zero hslips)
    rw [inQueues_eq, ← coe_count]
    exact (ho t).trans (if_pos ht)
  refine iff_of_false (fun ho => hr ?_) (List.ne_nil_of_length_pos hslips)
  have := ho t ht
  rw [inQueues_eq, hw, Nat.zero_add] at this
  simpa [Sys.ledger] using this

end SamaraOS.Rights
