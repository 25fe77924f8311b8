import SamaraOS.Net.Ctl
import SamaraOS.Net.Table

/-!
# The accept queue

A listener holds pointers to connections that finished their handshake and wait
for `sock_accept`.  Nothing takes a pointer off the queue when the connection it
points to is reset or times out: `tcp_kill` frees the socket and leaves the
pointer.  As long as no step aborts a waiting connection, every pointer on a
queue is to a live socket that waits for that listener.
-/

namespace SamaraOS.Net

open Function List Table Phases

section

variable (t : Table) (i : Slot)

theorem Table.sock_eq : t.sock i = (t.conns i).s := rfl

theorem Table.sock_set (j : Slot) (c : Conn) :
    (t.set i c).sock j = if j = i then c.s else t.sock j := by
  unfold Table.set Table.sock
  by_cases h : j = i
  · subst h
    simp
  · simp [h]

@[simp] theorem Table.sock_set_self (c : Conn) : (t.set i c).sock i = c.s := by
  simp [sock_set]

end

variable {i : Slot} {e : Env} {t : Table} {ev : Event}
  {c : Conn} {seg : List U8} {port : U16} {ip : Addr}

theorem Table.sock_set_ne (t : Table) {j : Slot} (c : Conn) (h : j ≠ i) :
    (t.set i c).sock j = t.sock j := by
  simp [sock_set, h]

theorem Table.set_self (t : Table) (i : Slot) : t = t.set i (t.conns i) :=
  congrArg (fun f => ({ t with conns := f } : Table)) (update_eq_self i t.conns).symm

theorem mem_slots (i : Slot) : i ∈ slots := mem_finRange i

theorem nodup_slots : slots.Nodup := nodup_finRange maxSocks

theorem Table.event_eq_set
    (h : (stepConn e (t.conns i) ev).s.used = false → (stepConn e (t.conns i) ev).s.acceptq = []) :
    t.event e i ev = t.set i (stepConn e (t.conns i) ev) := by
  unfold Table.event
  dsimp only
  split
  · next hfree =>
      rw [h (by simp at hfree; exact hfree.2)]
      rfl
  · rfl

structure QueueOk (t : Table) : Prop where
  live : ∀ l k, (t.sock l).used = true → (t.sock l).state = .listen →
    k ∈ (t.sock l).acceptq → (t.sock k).used = true ∧ (t.sock k).parent = some l
  once : ∀ l, (t.sock l).acceptq.Nodup
  apart : ∀ l l' k, k ∈ (t.sock l).acceptq → k ∈ (t.sock l').acceptq → l = l'

structure QueueInv (t : Table) : Prop where
  listening : ∀ l, (t.sock l).acceptq ≠ [] →
    (t.sock l).used = true ∧ (t.sock l).state = .listen
  stream : ∀ l, (t.sock l).used = true → (t.sock l).state = .listen → (t.sock l).type = .stream
  child : ∀ k, (t.sock k).used = true → (t.sock k).parent ≠ none →
    (t.sock k).refs = 0 ∧ (t.sock k).state ≠ .listen
  waiting : ∀ l k, k ∈ (t.sock l).acceptq →
    (t.sock k).used = true ∧ (t.sock k).parent = some l ∧ (t.sock k).state ≠ .synRcvd
  nodup : ∀ l, (t.sock l).acceptq.Nodup

section

variable (h : QueueInv t)

include h

theorem QueueInv.queueOk : QueueOk t where
  live l k _ _ hk := ⟨(h.waiting l k hk).1, (h.waiting l k hk).2.1⟩
  once := h.nodup
  apart l l' k hk hk' := by
    have hl := (h.waiting l k hk).2.1
    rw [(h.waiting l' k hk').2.1] at hl
    exact (Option.some.inj hl).symm

def Waits (t : Table) (i : Slot) : Prop := ∃ l, i ∈ (t.sock l).acceptq

theorem QueueInv.waits_facts (hw : Waits t i) :
    (t.sock i).used = true ∧ (t.sock i).parent ≠ none ∧ (t.sock i).refs = 0 ∧
      (t.sock i).state ≠ .listen ∧ (t.sock i).state ≠ .synRcvd := by
  obtain ⟨l, hl⟩ := hw
  obtain ⟨hused, hpar, hsyn⟩ := h.waiting l i hl
  have hpar' : (t.sock i).parent ≠ none := by simp [hpar]
  obtain ⟨hrefs, hlisten⟩ := h.child i hused hpar'
  exact ⟨hused, hpar', hrefs, hlisten, hsyn⟩

theorem QueueInv.acceptq_nil (hi : (t.sock i).state ≠ .listen) : (t.sock i).acceptq = [] := by
  by_contra hne
  exact hi (h.listening i hne).2

structure Tame (t : Table) (i : Slot) (s' : Sock) : Prop where
  acceptq : s'.acceptq = (t.sock i).acceptq
  listening : (t.sock i).acceptq ≠ [] → s'.used = true ∧ s'.state = .listen
  stream : s'.used = true → s'.state = .listen → s'.type = .stream
  child : s'.used = true → s'.parent ≠ none → s'.refs = 0 ∧ s'.state ≠ .listen
  waits : Waits t i → s'.used = true ∧ s'.parent = (t.sock i).parent ∧ s'.state ≠ .synRcvd

theorem QueueInv.tame_self (i : Slot) : Tame t i (t.sock i) where
  acceptq := rfl
  listening := h.listening i
  stream := h.stream i
  child := h.child i
  waits hw := ⟨(h.waits_facts hw).1, rfl, (h.waits_facts hw).2.2.2.2⟩

theorem QueueInv.pointwise {t' : Table} (ht : ∀ i, Tame t i (t'.sock i)) : QueueInv t' where
  listening l hl := (ht l).listening (by rwa [(ht l).acceptq] at hl)
  stream l := (ht l).stream
  child k := (ht k).child
  waiting l k hk := by
    rw [(ht l).acceptq] at hk
    obtain ⟨hused, hpar, hsyn⟩ := (ht k).waits ⟨l, hk⟩
    exact ⟨hused, hpar.trans (h.waiting l k hk).2.1, hsyn⟩
  nodup l := by
    rw [(ht l).acceptq]
    exact h.nodup l

theorem QueueInv.set (hi : Tame t i c.s) : QueueInv (t.set i c) := by
  refine h.pointwise fun j => ?_
  rw [sock_set]
  split
  · next hj =>
      subst hj
      exact hi
  · exact h.tame_self j

omit h in
theorem Tame.event_eq (hi : Tame t i (stepConn e (t.conns i) ev).s) :
    t.event e i ev = t.set i (stepConn e (t.conns i) ev) := by
  refine event_eq_set fun hfree => ?_
  rw [hi.acceptq]
  by_contra hne
  exact absurd (hi.listening hne).1 (by simp [hfree])

theorem QueueInv.event (hi : Tame t i (stepConn e (t.conns i) ev).s) :
    QueueInv (t.event e i ev) := by
  rw [hi.event_eq]
  exact h.set hi

end

section Tame

variable {e : Env} {t : Table} {i : Slot}

theorem Tame.of_ctlStep {ev : Event} {s' : Sock} (h : QueueInv t)
    (hctl : CtlStep e ev (t.sock i) s') (hlisten : (t.sock i).state ≠ .listen)
    (hlisten' : s'.state ≠ .listen)
    (hsyn : (t.sock i).state ≠ .synRcvd → s'.state ≠ .synRcvd)
    (hspare : aborts e (t.sock i) ev = true → ¬ Waits t i) : Tame t i s' where
  acceptq := hctl.acceptq
  listening hne := absurd (h.acceptq_nil hlisten) hne
  stream _ hst := absurd hst hlisten'
  child hused hpar := by
    have hpar' : (t.sock i).parent ≠ none := by
      rcases hctl.parent with hp | hp
      · rwa [← hp]
      · exact absurd hp hpar
    rw [hctl.refs]
    exact ⟨(h.child i (hctl.used hused) hpar').1, hlisten'⟩
  waits hw := by
    obtain ⟨hused, hpar, -, -, hst⟩ := h.waits_facts hw
    have hno : aborts e (t.sock i) ev = false := by
      cases ha : aborts e (t.sock i) ev with
      | true => exact absurd hw (hspare ha)
      | false => rfl
    have hsame := hctl.kept hno hpar hst
    exact ⟨(congrArg Ctl.used hsame).trans hused, congrArg Ctl.parent hsame, hsyn hst⟩

theorem QueueInv.open_parent (h : QueueInv t) (hopen : t.open i = true) :
    (t.sock i).parent = none := by
  unfold Table.open at hopen
  simp only [Bool.and_eq_true, decide_eq_true_eq] at hopen
  by_contra hpar
  have := (h.child i hopen.1 hpar).1
  omega

theorem QueueInv.open_not_waits (h : QueueInv t) (hopen : t.open i = true) : ¬ Waits t i :=
  fun hw => (h.waits_facts hw).2.1 (h.open_parent hopen)

theorem Tame.of_open {s' : Sock} (h : QueueInv t) (hopen : t.open i = true)
    (hq : s'.acceptq = (t.sock i).acceptq) (hp : s'.parent = (t.sock i).parent)
    (hl : (t.sock i).acceptq ≠ [] → s'.used = true ∧ s'.state = .listen)
    (hs : s'.state = .listen → s'.type = .stream) : Tame t i s' where
  acceptq := hq
  listening := hl
  stream _ := hs
  child _ hpar := absurd (hp.trans (h.open_parent hopen)) hpar
  waits hw := absurd hw (h.open_not_waits hopen)

theorem Table.open_used (hopen : t.open i = true) : (t.sock i).used = true := by
  unfold Table.open at hopen
  simp only [Bool.and_eq_true] at hopen
  exact hopen.1

theorem Tame.call {ev : Event} (h : QueueInv t) (hopen : t.open i = true)
    (hev : ev.isCall = true) (hlis : ev.isListen = true → (t.sock i).type = .stream) :
    Tame t i (stepConn e (t.conns i) ev).s := by
  have hctl : SameCtl (t.sock i) _ := call_ctl (e := e) (t.conns i) hev
  refine .of_open h hopen (congrArg Ctl.acceptq hctl) (congrArg Ctl.parent hctl) (fun hne => ?_)
    fun hst => (congrArg Ctl.type hctl).trans ?_
  · obtain ⟨hused, hlisten⟩ := h.listening i hne
    exact ⟨(congrArg Ctl.used hctl).trans hused, call_listen (t.conns i) hev hlisten⟩
  cases hl : ev.isListen with
  | true => exact hlis hl
  | false =>
    refine h.stream i (open_used hopen) ?_
    by_contra hne
    exact ne_listen (stepConn_phases e (t.conns i) ev (enabled_of_call hev)) hl hne hst

theorem QueueInv.call {ev : Event} (h : QueueInv t) (hopen : t.open i = true)
    (hev : ev.isCall = true) (hlis : ev.isListen = true → (t.sock i).type = .stream) :
    QueueInv (t.event e i ev) ∧ (t.event e i ev).open i = true ∧
      ((t.event e i ev).sock i).type = (t.sock i).type := by
  have htame := Tame.call (e := e) h hopen hev hlis
  have hctl : SameCtl (t.sock i) _ := call_ctl (e := e) (t.conns i) hev
  refine ⟨h.event htame, ?_, ?_⟩
  swap
  · rw [htame.event_eq, sock_set_self]
    exact congrArg Ctl.type hctl
  rw [htame.event_eq]
  unfold Table.open at hopen ⊢
  rw [sock_set_self, show (stepConn e (t.conns i) ev).s.used = (t.sock i).used from
    congrArg Ctl.used hctl, show (stepConn e (t.conns i) ev).s.refs = (t.sock i).refs from
    congrArg Ctl.refs hctl]
  exact hopen

theorem QueueInv.fresh (h : QueueInv t) (hfree : (t.sock i).used = false)
    (hq : c.s.acceptq = []) (hst : c.s.state ≠ .listen)
    (hc : c.s.parent ≠ none → c.s.refs = 0) : QueueInv (t.set i c) := by
  have hnil : (t.sock i).acceptq = [] := by
    by_contra hne
    exact absurd (h.listening i hne).1 (by simp [hfree])
  exact h.set ⟨hq.trans hnil.symm, fun hne => absurd hnil hne, fun _ h => absurd h hst,
    fun _ hp => ⟨hc hp, hst⟩, fun hw => absurd (h.waits_facts hw).1 (by simp [hfree])⟩

end Tame

/-! ## Queues growing and shrinking -/

structure Stands (s s' : Sock) : Prop where
  used : s'.used = s.used
  state : s'.state = s.state
  parent : s'.parent = s.parent
  refs : s'.refs = s.refs
  type : s'.type = s.type

theorem Stands.refl (s : Sock) : Stands s s := ⟨rfl, rfl, rfl, rfl, rfl⟩

theorem QueueInv.push {t t' : Table} {p i : Slot} (h : QueueInv t)
    (hlisten : (t.sock p).used = true ∧ (t.sock p).state = .listen)
    (hi : (t.sock i).used = true ∧ (t.sock i).parent = some p ∧ (t.sock i).state ≠ .synRcvd)
    (hnew : ¬ Waits t i) (hstands : ∀ j, Stands (t.sock j) (t'.sock j)) (hqueue : ∀ j, (t'.sock
    j).acceptq = if j = p then (t.sock p).acceptq ++ [i] else (t.sock j).acceptq) : QueueInv t' :=
    by
  constructor
  · intro l hl
    rw [(hstands l).used, (hstands l).state]
    rw [hqueue] at hl
    split at hl
    · next hlp =>
        subst hlp
        exact hlisten
    · exact h.listening l hl
  · intro l
    rw [(hstands l).used, (hstands l).state, (hstands l).type]
    exact h.stream l
  · intro k
    rw [(hstands k).used, (hstands k).state, (hstands k).parent, (hstands k).refs]
    exact h.child k
  · intro l k hk
    rw [(hstands k).used, (hstands k).state, (hstands k).parent]
    rw [hqueue] at hk
    split at hk
    · next hlp =>
        subst hlp
        rcases mem_append.1 hk with hk | hk
        · exact h.waiting l k hk
        rw [mem_singleton.1 hk]
        exact hi
    · exact h.waiting l k hk
  intro l
  rw [hqueue]
  split
  · refine nodup_append.2 ⟨h.nodup p, by simp, ?_⟩
    rintro a ha b hb rfl
    rw [mem_singleton] at hb
    subst hb
    exact hnew ⟨p, ha⟩
  · exact h.nodup l

theorem QueueInv.shrink {t t' : Table} (h : QueueInv t)
    (hqueue : ∀ j, (t'.sock j).acceptq.Sublist (t.sock j).acceptq) (hsock : ∀ j, Stands (t.sock j)
    (t'.sock j) ∨ ¬ Waits t' j ∧ (t'.sock j).acceptq = [] ∧ ((t'.sock j).used = false ∨ (t'.sock
    j).parent = none ∧ (t'.sock j).state ≠ .listen)) : QueueInv t' := by
  constructor
  · intro l hl
    rcases hsock l with hstands | ⟨-, hnil, -⟩
    · rw [hstands.used, hstands.state]
      refine h.listening l fun hnil => hl ?_
      exact sublist_nil.1 (hnil ▸ hqueue l)
    · exact absurd hnil hl
  · intro l hused hst
    rcases hsock l with hstands | ⟨-, -, hfree | hnone⟩
    · rw [hstands.type]
      exact h.stream l (hstands.used ▸ hused) (hstands.state ▸ hst)
    · exact absurd hused (by simp [hfree])
    · exact absurd hst hnone.2
  · intro k hused hpar
    rcases hsock k with hstands | ⟨-, -, hfree | hnone⟩
    · rw [hstands.refs, hstands.state]
      exact h.child k (hstands.used ▸ hused) (hstands.parent ▸ hpar)
    · exact absurd hused (by simp [hfree])
    · exact absurd hnone.1 hpar
  · intro l k hk
    rcases hsock k with hstands | ⟨hgone, -⟩
    · rw [hstands.used, hstands.state, hstands.parent]
      exact h.waiting l k ((hqueue l).subset hk)
    · exact absurd ⟨l, hk⟩ hgone
  · exact fun l => (h.nodup l).sublist (hqueue l)

section Accept

variable {e : Env} {t : Table} {l k : Slot} {rest : List Slot}

section

variable (h : QueueInv t) (hq : (t.sock l).acceptq = k :: rest)

include h hq

theorem accept_sock (j : Slot) : ((t.event e l (.queue rest)).event e k .accepted).sock j =
      if j = k then ((t.sock k).setParent none).setRefs 1
      else if j = l then { t.sock l with acceptq := rest } else t.sock j := by
  obtain ⟨hlused, hllisten⟩ := h.listening l (by simp [hq])
  obtain ⟨hkused, -, -, hkst, -⟩ := h.waits_facts ⟨l, show k ∈ (t.sock l).acceptq by simp [hq]⟩
  have hkl : k ≠ l := by
    rintro rfl
    exact hkst hllisten
  rw [event_eq_set (i := l) fun hfree => absurd hfree (by
    rw [show (stepConn e (t.conns l) (.queue rest)).s.used = (t.sock l).used from rfl, hlused]
    decide)]
  have hconn : (t.set l (stepConn e (t.conns l) (.queue rest))).conns k = t.conns k :=
    update_of_ne hkl _ _
  rw [event_eq_set (i := k) fun hfree => absurd hfree (by
    rw [hconn, show (stepConn e (t.conns k) .accepted).s.used = (t.sock k).used from rfl, hkused]
    decide), hconn, sock_set, sock_set]
  rfl

theorem QueueInv.pop : QueueInv ((t.event e l (.queue rest)).event e k .accepted) := by
  have hkq : k ∈ (t.sock l).acceptq := by simp [hq]
  obtain ⟨-, -, -, hkst, -⟩ := h.waits_facts ⟨l, hkq⟩
  have hnd := h.nodup l
  rw [hq, nodup_cons] at hnd
  have hkl : k ≠ l := by
    rintro rfl
    exact hkst (h.listening k (by simp [hq])).2
  have hsock := accept_sock (e := e) h hq
  generalize Table.event e _ k .accepted = t' at hsock
  have hqueue : ∀ j, (t'.sock j).acceptq = if j = l then rest else (t.sock j).acceptq := by
    intro j
    rw [hsock]
    split
    · next hj =>
        rw [hj, if_neg hkl]
        rfl
    · split <;> rfl
  refine h.shrink (fun j => ?_) fun j => ?_
  · rw [hqueue]
    split
    · next hj =>
        rw [hj, hq]
        exact sublist_cons_self k rest
    · exact List.Sublist.refl _
  by_cases hj : j = k
  · -- the queue of `l` had `k` once, and no other queue has it
    subst hj
    refine .inr ⟨?_, ?_, .inr ?_⟩
    · rintro ⟨m, hm⟩
      rw [hqueue] at hm
      split at hm
      · exact hnd.1 hm
      · next hml => exact hml (h.queueOk.apart m l j hm hkq)
    · rw [hqueue, if_neg hkl]
      exact h.acceptq_nil hkst
    rw [hsock, if_pos rfl]
    exact ⟨rfl, hkst⟩
  left
  rw [hsock, if_neg hj]
  split
  · next hjl =>
      subst hjl
      exact ⟨rfl, rfl, rfl, rfl, rfl⟩
  · exact .refl _

end

end Accept

theorem foldl_conns {f : Table → Slot → Table} {P : Conn → Prop} {g : Conn → Conn}
    (hf : ∀ t i, P (t.conns i) → f t i = t.set i (g (t.conns i)))
    (l : List Slot) (t : Table) (hl : l.Nodup) (hP : ∀ i ∈ l, P (t.conns i)) (j : Slot) :
    (l.foldl f t).conns j = if j ∈ l then g (t.conns j) else t.conns j := by
  induction l generalizing t with
  | nil => simp
  | cons a rest ih =>
    obtain ⟨ha, hrest⟩ := nodup_cons.1 hl
    have hconn : ∀ i, i ≠ a → (t.set a (g (t.conns a))).conns i = t.conns i :=
      fun i hi => update_of_ne hi _ _
    rw [foldl_cons, hf t a (hP a (by simp))]
    rw [ih _ hrest fun i hi => by
      rw [hconn i (ne_of_mem_of_not_mem hi ha)]
      exact hP i (by simp [hi])]
    by_cases hj : j = a
    · subst hj
      simp [ha, Table.set]
    · simp [hj, hconn j hj]

/-- A loop over the table that gives an event to the sockets with `b`. -/
theorem foldl_event_conns {f : Table → Slot → Table} {b : Sock → Bool} {P : Conn → Prop}
    (hf : ∀ t i, f t i = if b (t.sock i) then t.event e i ev else t)
    (hP : ∀ c, P c → b c.s = true → (stepConn e c ev).s.used = false →
      (stepConn e c ev).s.acceptq = []) (ht : ∀ i, P (t.conns i)) (j : Slot) :
    (slots.foldl f t).conns j = if b (t.sock j) then stepConn e (t.conns j) ev else t.conns j := by
  have hstep : ∀ t i, P (Table.conns t i) →
      f t i = t.set i (if b (t.conns i).s then stepConn e (t.conns i) ev else t.conns i) := by
    intro t i hi
    rw [hf, sock_eq]
    split
    · next hb => exact event_eq_set (hP _ hi hb)
    · exact t.set_self i
  have hfold := foldl_conns (g := fun c => if b c.s then stepConn e c ev else c) hstep slots t
    nodup_slots (fun i _ => ht i) j
  rwa [if_pos (mem_slots j)] at hfold

/-! ## The end of a listener -/

section Close

variable {e : Env} {t : Table} {i : Slot}

theorem dropQueue_conns (q : List Slot) (hq : q.Nodup) (hnil : ∀ k ∈ q, (t.sock k).acceptq = [])
    (j : Slot) : (dropQueue e t q).conns j =
      if j ∈ q then stepConn e (t.conns j) .reset else t.conns j :=
  foldl_conns (P := fun c => c.s.acceptq = []) (g := fun c => stepConn e c .reset)
    (fun _ _ hP => event_eq_set fun _ => hP) q t hq hnil j

theorem dropChildren_conns (hnil : ∀ k, (t.sock k).parent = some i → (t.sock k).used = true →
      (t.sock k).acceptq = []) (j : Slot) : (dropChildren e t i).conns j =
      if (t.sock j).used && (t.sock j).parent == some i then stepConn e (t.conns j) .dropped
      else t.conns j := by
  rw [dropChildren]
  refine foldl_event_conns (b := fun s => s.used && s.parent == some i)
    (P := fun c => c.s.parent = some i → c.s.used = true → c.s.acceptq = [])
    (fun _ _ => rfl) ?_ hnil j
  intro c hnil hc _
  simp only [Bool.and_eq_true, beq_iff_eq] at hc
  exact hnil hc.2 hc.1

theorem emptyQueue_conns (h : QueueInv t) (hlisten : (t.sock i).state = .listen) (j : Slot) :
    ((dropQueue e t (t.sock i).acceptq).event e i (.queue [])).conns j =
      if j = i then stepConn e (t.conns i) (.queue [])
      else if j ∈ (t.sock i).acceptq then stepConn e (t.conns j) .reset else t.conns j := by
  have hi : i ∉ (t.sock i).acceptq := fun hmem => (h.waits_facts ⟨i, hmem⟩).2.2.2.1 hlisten
  have hdrop := dropQueue_conns (e := e) (t := t) (t.sock i).acceptq (h.nodup i)
    fun k hk => h.acceptq_nil (h.waits_facts ⟨i, hk⟩).2.2.2.1
  generalize dropQueue e t _ = t₁ at hdrop
  rw [event_eq_set fun _ => rfl]
  by_cases hj : j = i
  · subst hj
    rw [if_pos rfl, ← show t₁.conns j = t.conns j by rw [hdrop, if_neg hi]]
    exact update_self _ _ _
  rw [if_neg hj, ← hdrop]
  exact update_of_ne hj _ _

theorem dropAll_conns (h : QueueInv t) (hused : (t.sock i).used = true)
    (hlisten : (t.sock i).state = .listen) (j : Slot) :
    (dropChildren e ((dropQueue e t (t.sock i).acceptq).event e i (.queue [])) i).conns j =
      if j = i then stepConn e (t.conns i) (.queue [])
      else if j ∈ (t.sock i).acceptq then stepConn e (t.conns j) .reset
      else if (t.sock j).used && (t.sock j).parent == some i then stepConn e (t.conns j) .dropped
      else t.conns j := by
  have hpar : (t.sock i).parent = none := by
    by_contra hpar
    exact (h.child i hused hpar).2 hlisten
  have hempty := emptyQueue_conns (e := e) h hlisten
  generalize Table.event e _ i (.queue []) = t₂ at hempty
  rw [dropChildren_conns]
  · rw [sock_eq t₂, hempty]
    by_cases hj : j = i
    · rw [if_pos hj, if_pos hj, if_neg]
      simp [show (stepConn e (t.conns i) (.queue [])).s.parent = none from hpar]
    rw [if_neg hj, if_neg hj]
    by_cases hq : j ∈ (t.sock i).acceptq
    · rw [if_pos hq, if_pos hq, if_neg (by simp [(reset_ends (e := e) (t.conns j)).1])]
    rw [if_neg hq, if_neg hq]
    rfl
  intro k hp hk
  rw [sock_eq t₂, hempty] at hp hk ⊢
  by_cases hki : k = i
  · rw [if_pos hki] at hp
    exact absurd (hpar.symm.trans hp) (by simp)
  rw [if_neg hki] at hp hk ⊢
  by_cases hq : k ∈ (t.sock i).acceptq
  · rw [if_pos hq] at hk
    exact absurd hk (by simp [(reset_ends (e := e) (t.conns k)).1])
  rw [if_neg hq] at hp hk ⊢
  exact h.acceptq_nil (h.child k hk (by simp [show (t.sock k).parent = _ from hp])).2

theorem closeListener_eq : closeListener e t i =
    (dropChildren e ((dropQueue e t (t.sock i).acceptq).event e i (.queue [])) i).event e i .free :=
  rfl

section

variable (h : QueueInv t) (hused : (t.sock i).used = true) (hlisten : (t.sock i).state = .listen)

include h hused hlisten

theorem closeListener_sock (j : Slot) :
    (j = i ∨ (t.sock j).used = true ∧ (t.sock j).parent = some i) ∧
        ((closeListener e t i).sock j).used = false ∧ ((closeListener e t i).sock j).acceptq = [] ∨
      j ≠ i ∧ (closeListener e t i).sock j = t.sock j := by
  have hdrop := dropAll_conns (e := e) h hused hlisten
  rw [closeListener_eq]
  generalize dropChildren e _ i = t₃ at hdrop
  have hi : t₃.conns i = stepConn e (t.conns i) (.queue []) := by rw [hdrop, if_pos rfl]
  have hfree : t₃.event e i .free = t₃.set i (stepConn e (t₃.conns i) .free) := by
    refine event_eq_set fun _ => ?_
    rw [hi]
    rfl
  rw [hfree, sock_set, hi]
  by_cases hj : j = i
  · rw [if_pos hj]
    exact .inl ⟨.inl hj, rfl, rfl⟩
  rw [if_neg hj, sock_eq t₃, hdrop, if_neg hj]
  have hnil : (t.sock j).used = true → (t.sock j).parent = some i → (t.sock j).acceptq = [] :=
    fun hu hp => h.acceptq_nil (h.child j hu (by simp [hp])).2
  by_cases hq : j ∈ (t.sock i).acceptq
  · obtain ⟨hends, hreset⟩ := reset_ends (e := e) (t.conns j)
    obtain ⟨hu, hp, -⟩ := h.waiting i j hq
    rw [if_pos hq]
    exact .inl ⟨.inr ⟨hu, hp⟩, hends, hreset.trans (hnil hu hp)⟩
  rw [if_neg hq]
  split
  · next hp =>
      simp only [Bool.and_eq_true, beq_iff_eq] at hp
      exact .inl ⟨.inr hp, rfl, hnil hp.1 hp.2⟩
  · exact .inr ⟨hj, rfl⟩

theorem QueueInv.closeListener : QueueInv (closeListener e t i) := by
  have hsock := closeListener_sock (e := e) h hused hlisten
  refine h.shrink (fun j => ?_) fun j => ?_
  · rcases hsock j with ⟨-, -, hnil⟩ | ⟨-, hj⟩
    · rw [hnil]
      exact nil_sublist _
    · rw [hj]
  rcases hsock j with ⟨hends, hfree, hnil⟩ | ⟨-, hj⟩
  · refine .inr ⟨?_, hnil, .inl hfree⟩
    -- a queue that is left is of another listener, and has none of these
    rintro ⟨m, hm⟩
    rcases hsock m with ⟨-, -, hmnil⟩ | ⟨hmi, hmq⟩
    · rw [hmnil] at hm
      cases hm
    rw [hmq] at hm
    rcases hends with rfl | ⟨-, hpar⟩
    · exact (h.waits_facts ⟨m, hm⟩).2.2.2.1 hlisten
    rw [(h.waiting m j hm).2.1] at hpar
    exact hmi (Option.some.inj hpar)
  rw [hj]
  exact .inl (.refl _)

end

end Close

/-! ## Segments and ticks -/

def abortsSlot (e : Env) (t : Table) (a : Action) (i : Slot) : Bool :=
  match a with
  | .segment src dst seg =>
    match parseHdr seg with
    | none => false
    | some h =>
      findTcp t src h.sport dst h.dport == some i && (t.sock i).state != .listen &&
        aborts e (t.sock i) (.segment h (parentTakes t i))
  | .tick => (t.sock i).used && (t.sock i).type == .stream && aborts e (t.sock i) .tick
  | _ => false

def SparesWaiting (e : Env) (t : Table) (a : Action) : Prop :=
  ∀ i, abortsSlot e t a i = true → ¬ Waits t i

section Step

variable {e : Env} {t : Table} {i : Slot} {a : Action}

theorem tickSock_listen (h : c.s.state = .listen) : tickSock e c = c := by
  unfold tickSock
  rw [h]

section

variable (h : QueueInv t)

include h

theorem sockTick_conns (j : Slot) : (sockTick e t).conns j =
    if (t.sock j).used && (t.sock j).type == .stream then tickSock e (t.conns j)
    else t.conns j := by
  rw [sockTick]
  refine foldl_event_conns (b := fun s => s.used && s.type == .stream)
    (P := fun c => c.s.acceptq ≠ [] → c.s.used = true ∧ c.s.state = .listen)
    (fun _ _ => rfl) ?_ h.listening j
  intro c hq _ hfree
  change (tickSock e c).s.used = false at hfree
  change (tickSock e c).s.acceptq = []
  by_cases hlisten : c.s.state = .listen
  · rw [tickSock_listen hlisten] at hfree ⊢
    by_contra hne
    exact absurd (hq hne).1 (by simp [hfree])
  rw [(tickSock_ctl c hlisten).acceptq]
  by_contra hne
  exact hlisten (hq hne).2

theorem tickSock_tame (hspare : aborts e (t.sock i) .tick = true → ¬ Waits t i) :
    Tame t i (tickSock e (t.conns i)).s := by
  by_cases hlisten : (t.sock i).state = .listen
  · rw [tickSock_listen hlisten]
    exact h.tame_self i
  have hphases := tickSock_phases (e := e) (t.conns i)
  exact .of_ctlStep h (tickSock_ctl (t.conns i) hlisten) hlisten
    (ne_listen hphases rfl hlisten) (ne_synRcvd hphases) hspare

theorem QueueInv.sockTick (hspare : SparesWaiting e t .tick) : QueueInv (sockTick e t) := by
  refine h.pointwise fun j => ?_
  rw [sock_eq, sockTick_conns h]
  split
  · next hj =>
      refine tickSock_tame h fun habort => hspare j ?_
      rw [abortsSlot, hj, habort]
      rfl
  · exact h.tame_self j

variable {hdr : Hdr} {dst src : Addr}

theorem sockIn_tame {ok : Bool} (hclosed : (t.sock i).state ≠ .closed)
    (hlisten : (t.sock i).state ≠ .listen)
    (hspare : aborts e (t.sock i) (.segment hdr ok) = true → ¬ Waits t i) :
    Tame t i (stepConn e (t.conns i) (.segment hdr ok)).s := by
  have hphases := sockIn_phases (e := e) (t.conns i) hdr ok hclosed hlisten
  exact .of_ctlStep h (sockIn_ctl (t.conns i) hdr ok hclosed hlisten).1 hlisten
    (ne_listen hphases rfl hlisten) (ne_synRcvd hphases) hspare

theorem QueueInv.connIn (hused : (t.sock i).used = true)
    (hclosed : (t.sock i).state ≠ .closed) (hlisten : (t.sock i).state ≠ .listen)
    (hspare : aborts e (t.sock i) (.segment hdr (parentTakes t i)) = true → ¬ Waits t i) :
    QueueInv (connIn e t i hdr) := by
  have htame := sockIn_tame (e := e) h hclosed hlisten hspare
  have hctl := (sockIn_ctl (e := e) (t.conns i) hdr (parentTakes t i) hclosed hlisten).2
  have hinv := h.event htame
  unfold Net.connIn
  dsimp only
  split
  · next p hqueued hp =>
      obtain ⟨hsyn, hok, hsame, hst⟩ := hctl hqueued
      have hlis : (t.sock p).used = true ∧ (t.sock p).state = .listen := by
        unfold parentTakes at hok
        rw [hp] at hok
        simp only [Bool.and_eq_true, beq_iff_eq] at hok
        exact hok.1
      have hpi : p ≠ i := by
        rintro rfl
        exact hlisten hlis.2
      rw [htame.event_eq] at hinv ⊢
      generalize ht' : t.set i (stepConn e (t.conns i) (.segment hdr (parentTakes t i))) = t' at hinv
      have hi' : t'.sock i = (sockIn e (t.conns i) hdr (parentTakes t i)).1.s := by
        rw [← ht', sock_set_self]
        rfl
      have hp' : t'.sock p = t.sock p := by
        rw [← ht', sock_set_ne _ _ hpi]
      unfold pushQueue
      rw [event_eq_set fun hfree => absurd hfree (by
        rw [show (stepConn e (t'.conns p) _).s.used = (t'.sock p).used from rfl, hp', hlis.1]
        decide)]
      refine hinv.push (p := p) (i := i) (by rw [hp']; exact hlis) ?_ ?_ ?_ ?_
      · rw [hi']
        exact ⟨(congrArg Ctl.used hsame).trans hused, (congrArg Ctl.parent hsame).trans hp, hst⟩
      · rintro ⟨l, hl⟩
        refine (h.waits_facts ⟨l, ?_⟩).2.2.2.2 hsyn
        rw [← ht', sock_set] at hl
        split at hl
        · next hli =>
            subst hli
            rwa [htame.acceptq] at hl
        · exact hl
      · intro j
        rw [sock_set]
        split
        · next hj =>
            subst hj
            exact ⟨rfl, rfl, rfl, rfl, rfl⟩
        · exact .refl _
      intro j
      rw [sock_set]
      split <;> rfl
  · exact hinv

omit h in
theorem freeSlot_unused {k : Slot} (h : freeSlot t = some k) : (t.sock k).used = false := by
  simpa using find?_some h

omit h in
theorem findTcp_facts {sport dport : U16} (h : findTcp t src sport dst dport = some i) :
    (t.sock i).used = true ∧ (t.sock i).state ≠ .closed := by
  unfold findTcp at h
  split at h
  · next j hfind =>
      cases h
      have hmatch := find?_some hfind
      simp only [connMatch, Bool.and_eq_true, bne_iff_ne] at hmatch
      exact ⟨hmatch.1.1.1.1.1.1.1, hmatch.1.1.1.2⟩
  have hmem := mem_of_getLast? h
  simp only [mem_filter, listenMatch, Bool.and_eq_true, beq_iff_eq] at hmem
  refine ⟨hmem.2.1.1.1.1, ?_⟩
  rw [hmem.2.1.2]
  decide

theorem QueueInv.listenIn : QueueInv (listenIn e t i src dst hdr) := by
  unfold Net.listenIn
  split
  · exact h
  split
  · exact h.pointwise h.tame_self
  split
  · exact h
  split
  · exact h
  split
  · next k s hk hs =>
      obtain ⟨tcb, seq, hfresh, hres, hview⟩ := passiveOpen_view e (t.sock i) k i src dst hdr
        (allocSock_tcb hs).1
      have htcb : (passiveOpen e s (t.sock i) k i src dst hdr).s.tcb = tcb :=
        congrArg View.t hview
      refine h.fresh (freeSlot_unused hk) ?_ ?_ fun _ => ?_
      · change (passiveOpen e s (t.sock i) k i src dst hdr).s.tcb.acceptq = []
        rw [htcb, hfresh.acceptq]
      · change (passiveOpen e s (t.sock i) k i src dst hdr).s.tcb.state ≠ .listen
        exact fun hst => by cases hst
      change (passiveOpen e s (t.sock i) k i src dst hdr).s.tcb.refs = 0
      rw [htcb, hres]
      rfl
  · exact h

theorem QueueInv.tcpIn
    (hspare : SparesWaiting e t (.segment src dst seg)) : QueueInv (tcpIn e t src dst seg) := by
  unfold Net.tcpIn
  split
  · exact h
  next hdr hparse =>
  split
  · split
    · exact h
    · exact h.pointwise h.tame_self
  next i hfind =>
  obtain ⟨hused, hclosed⟩ := findTcp_facts hfind
  split
  · exact h.listenIn
  next hlisten =>
  refine h.connIn hused hclosed hlisten fun habort => hspare i ?_
  simp [abortsSlot, hparse, hfind, hlisten, habort]

theorem QueueInv.sockCreate {type : SockType} {af : Nat} : QueueInv (sockCreate e t type af) := by
  unfold Net.sockCreate
  split
  · next k s hk hs =>
      have hfields : s.acceptq = [] ∧ s.parent = none ∧ s.state = .closed := by
        unfold allocSock at hs
        split at hs
        · split at hs
          · cases hs
            exact ⟨rfl, rfl, rfl⟩
          · cases hs
        cases hs
        exact ⟨rfl, rfl, rfl⟩
      exact h.fresh (freeSlot_unused hk) hfields.1 (by simp [hfields.2.2])
        fun hpar => absurd hfields.2.1 hpar
  · exact h

/-! ## The calls -/

section

variable (hopen : t.open i = true)

include hopen

theorem QueueInv.sockBind :
    QueueInv ((sockBind e t i ip port).getD t) ∧ ((sockBind e t i ip port).getD t).open i = true ∧
      (((sockBind e t i ip port).getD t).sock i).type = (t.sock i).type := by
  have hno : ∀ port, (Event.bind ip port).isListen = true → (t.sock i).type = .stream :=
    fun _ h => absurd h Bool.false_ne_true
  unfold Net.sockBind
  dsimp only
  split
  · exact ⟨h, hopen, rfl⟩
  split
  · exact h.call hopen rfl (hno _)
  split
  · generalize ephemeral t (t.sock i).type = found
    exact QueueInv.call (t := { t with nextEph := found.2 }) (h.pointwise h.tame_self) hopen rfl
      (hno _)
  split
  · exact ⟨h, hopen, rfl⟩
  · exact h.call hopen rfl (hno _)

theorem QueueInv.autoBind : QueueInv (autoBind e t i) ∧ (autoBind e t i).open i = true ∧
      ((autoBind e t i).sock i).type = (t.sock i).type := by
  unfold Net.autoBind
  split
  · exact ⟨h, hopen, rfl⟩
  · exact h.sockBind hopen

theorem QueueInv.connectSlot : QueueInv (connectSlot e t i ip port) := by
  unfold Net.connectSlot
  dsimp only
  split
  · exact h
  split
  · exact h
  split
  · exact h
  obtain ⟨hinv, hopen', -⟩ := h.autoBind (e := e) hopen
  refine (hinv.call hopen' rfl ?_).1
  exact fun h => absurd h Bool.false_ne_true

theorem QueueInv.listenSlot {backlog : Int} : QueueInv (listenSlot e t i backlog) := by
  unfold Net.listenSlot
  dsimp only
  split
  · exact h
  next hstream =>
  obtain ⟨hinv, hopen', htype⟩ := h.autoBind (e := e) hopen
  refine (hinv.call hopen' rfl fun _ => htype.trans ?_).1
  rw [not_or, not_not] at hstream
  exact hstream.1

end

theorem QueueInv.sockAccept : QueueInv (sockAccept e t i).1 ∧ ∀ k, (sockAccept e t i).2 = some k →
      (t.sock k).used = true ∧ ((sockAccept e t i).1.sock k).used = true := by
  unfold Net.sockAccept
  split
  · exact ⟨h, by simp⟩
  split
  · exact ⟨h, by simp⟩
  next k rest hq =>
  refine ⟨h.pop hq, fun k' hk => ?_⟩
  cases hk
  have hused := (h.waiting i k (by simp [hq])).1
  refine ⟨hused, ?_⟩
  rw [accept_sock h hq, if_pos rfl]
  exact hused

omit h in
theorem close_ctl (c : Conn) : (sockClose e c).s.acceptq = c.s.acceptq ∧
    (sockClose e c).s.parent = c.s.parent := by
  unfold sockClose
  dsimp only
  split
  · exact ⟨rfl, rfl⟩
  split
  · exact ⟨rfl, rfl⟩
  have hout : SameCtl (c.s.setRefs (c.s.refs - 1)) _ := output_ctl (e := e)
    (c := ⟨c.s.setRefs (c.s.refs - 1), c.calls⟩)
    ⟨shutSock (c.s.setRefs (c.s.refs - 1)), c.calls⟩ rfl
  exact ⟨congrArg Ctl.acceptq hout, congrArg Ctl.parent hout⟩

theorem QueueInv.closeSlot (hopen : t.open i = true) : QueueInv (closeSlot e t i) := by
  unfold Net.closeSlot
  dsimp only
  split
  · next hlisten =>
      have hused := open_used hopen
      have htame : Tame t i (stepConn e (t.conns i) .unref).s :=
        .of_open h hopen rfl rfl (fun _ => ⟨hused, hlisten.2⟩) fun _ => hlisten.1
      have hinv := h.event htame
      have hsock : (t.event e i .unref).sock i = (t.sock i).setRefs ((t.sock i).refs - 1) := by
        rw [htame.event_eq, sock_set_self]
        rfl
      split
      · exact hinv
      refine hinv.closeListener ?_ ?_
      · rw [hsock]
        exact hused
      rw [hsock]
      exact hlisten.2
  next hlisten =>
  have hst : (t.sock i).state ≠ .listen := fun hst =>
    hlisten ⟨h.stream i (open_used hopen) hst, hst⟩
  obtain ⟨hq, hp⟩ := close_ctl (e := e) (t.conns i)
  refine h.event (.of_open h hopen hq hp (fun hne => absurd (h.acceptq_nil hst) hne) ?_)
  exact fun hst' =>
    absurd hst' (ne_listen (stepConn_phases e (t.conns i) .close hst) rfl hst)

/-! ## Runs -/

theorem QueueInv.ite {b : Bool} {t' : Table} (hb : b = true → QueueInv t') :
    QueueInv (if b then t' else t) := by
  split
  · next hopen => exact hb hopen
  · exact h

theorem QueueInv.call_if {ev : Event} (hev : ev.isCall = true)
    (hlis : ev.isListen = false) {b : Bool} (hb : b = true → t.open i = true) :
    QueueInv (if b then t.event e i ev else t) :=
  h.ite fun hopen => (h.call (hb hopen) hev fun h => absurd h (by simp [hlis])).1

omit h in
theorem Table.open_of_stream (h : t.openStream i = true) : t.open i = true := by
  unfold Table.openStream at h
  simp only [Bool.and_eq_true] at h
  exact h.1

theorem QueueInv.step (hspare : SparesWaiting e t a) : QueueInv (t.step e a) := by
  cases a with
  | segment src dst seg =>
    rw [Table.step]
    exact h.tcpIn hspare
  | tick =>
    exact h.sockTick hspare
  | create type af =>
    rw [Table.step]
    exact h.sockCreate
  | bind i ip port =>
    exact h.ite fun hopen => (h.sockBind hopen).1
  | connect i ip port =>
    exact h.ite fun hopen => h.connectSlot hopen
  | listen i backlog =>
    exact h.ite fun hopen => h.listenSlot hopen
  | accept i =>
    exact h.ite fun _ => h.sockAccept.1
  | send i buf | recv i len peek | shutdown i how | opt i o | setcc i cc =>
    exact h.call_if rfl rfl open_of_stream
  | takeError i =>
    exact h.call_if rfl rfl id
  | ref i =>
    refine h.ite fun hopen => h.event (.of_open h hopen rfl rfl (h.listening i) ?_)
    exact h.stream i (open_used hopen)
  | close i =>
    exact h.ite fun hopen => h.closeSlot hopen

theorem connIn_abort (hclosed : (t.sock i).state ≠ .closed)
    (hw : Waits t i) (habort : aborts e (t.sock i) (.segment hdr (parentTakes t i)) = true) :
    connIn e t i hdr = t.set i (stepConn e (t.conns i) (.segment hdr (parentTakes t i))) ∧
      (stepConn e (t.conns i) (.segment hdr (parentTakes t i))).s.used = false := by
  obtain ⟨-, hpar, -, hlisten, hsyn⟩ := h.waits_facts hw
  obtain ⟨hctl, hqueued⟩ := sockIn_ctl (e := e) (t.conns i) hdr (parentTakes t i) hclosed hlisten
  have hno : (sockIn e (t.conns i) hdr (parentTakes t i)).2 = false := by
    cases hq : (sockIn e (t.conns i) hdr (parentTakes t i)).2 with
    | true => exact absurd (hqueued hq).1 hsyn
    | false => rfl
  refine ⟨?_, hctl.killed habort hpar⟩
  unfold connIn
  dsimp only
  rw [hno]
  exact event_eq_set fun _ => hctl.acceptq.trans (h.acceptq_nil hlisten)

theorem QueueInv.abort_breaks (habort : abortsSlot e t a i = true)
    (hw : Waits t i) : ¬ QueueOk (t.step e a) := by
  intro hok
  obtain ⟨l, hl⟩ := id hw
  obtain ⟨-, hpar, -, hlisten, -⟩ := h.waits_facts hw
  obtain ⟨hlused, hllisten⟩ := h.listening l (ne_nil_of_mem hl)
  have hli : l ≠ i := by
    rintro rfl
    exact hlisten hllisten
  have hdead : ∀ t' : Table, t'.sock l = t.sock l → (t'.sock i).used = false → ¬ QueueOk t' := by
    intro t' hsame hfree hok'
    have hlive := (hok'.live l i (by rwa [hsame]) (by rwa [hsame]) (by rwa [hsame])).1
    exact absurd hlive (by simp [hfree])
  cases a with
  | segment src dst seg =>
    unfold abortsSlot at habort
    dsimp only at habort
    split at habort
    · cases habort
    next hdr hparse =>
    simp only [Bool.and_eq_true, beq_iff_eq] at habort
    obtain ⟨⟨hfind, -⟩, hkill⟩ := habort
    obtain ⟨hset, hfree⟩ := connIn_abort h (findTcp_facts hfind).2 hw hkill
    refine hdead _ ?_ ?_ hok
    · simp only [Table.step, Net.tcpIn, hparse, hfind, if_neg hlisten]
      rw [hset, sock_set_ne _ _ hli]
    simp only [Table.step, Net.tcpIn, hparse, hfind, if_neg hlisten]
    rw [hset, sock_set_self]
    exact hfree
  | tick =>
    unfold abortsSlot at habort
    simp only [Bool.and_eq_true] at habort
    refine hdead _ ?_ ?_ hok
    · rw [Table.step, sock_eq, sockTick_conns h, tickSock_listen hllisten, ite_self]
      rfl
    rw [Table.step, sock_eq, sockTick_conns h, if_pos (by simpa using habort.1)]
    exact (tickSock_ctl (t.conns i) hlisten).killed habort.2 hpar
  | _ => cases habort

end

end Step

inductive TableRun (ok : Env → Table → Action → Prop) : Table → Prop where
  | start : TableRun ok Table.init
  | step (t : Table) (e : Env) (a : Action) (hrun : TableRun ok t) (hok : ok e t a) :
      TableRun ok (t.step e a)

theorem QueueInv.init : QueueInv Table.init where
  listening _ h := absurd rfl h
  stream _ h := absurd h Bool.false_ne_true
  child _ h := absurd h Bool.false_ne_true
  waiting _ _ h := by cases h
  nodup _ := nodup_nil

theorem TableRun.queueInv {t : Table} (h : TableRun SparesWaiting t) : QueueInv t := by
  induction h with
  | start => exact .init
  | step t e a _ hok ih => exact ih.step hok

/--
The queues are sound as long as no step aborts a waiting connection, and the
first step that does breaks them.
-/
theorem accept_queue_sound_iff (t : Table) (hrun : TableRun SparesWaiting t) : QueueOk t ∧
    (∀ e l k, (sockAccept e t l).2 = some k →
      (t.sock k).used = true ∧ ((sockAccept e t l).1.sock k).used = true) ∧
    ∀ e a, QueueOk (t.step e a) ↔ SparesWaiting e t a := by
  have hinv := hrun.queueInv
  refine ⟨hinv.queueOk, fun e l => hinv.sockAccept.2, fun e a => ?_⟩
  constructor
  · intro hok i habort hw
    exact hinv.abort_breaks habort hw hok
  intro hspare
  exact (hinv.step hspare).queueOk

theorem TableRun.steps {ok : Env → Table → Action → Prop} (e : Env) (as : List Action)
    {t : Table} (h : TableRun ok t) (hok : ∀ t a, a ∈ as → ok e t a) :
    TableRun ok (as.foldl (Table.step e) t) := by
  induction as generalizing t with
  | nil => exact h
  | cons a rest ih =>
    exact ih (.step t e a h (hok t a (by simp))) fun t' a' ha => hok t' a' (by simp [ha])

def bareSeg (seq ack : List U8) (flags : U8) : Action :=
  .segment (map4 0x0A000202) (map4 0x0A00020F)
    ([15, 160, 0, 80] ++ seq ++ ack ++ [80, flags, 255, 255, 0, 0, 0, 0])

def handshake : List Action :=
  [.create .stream 2, .bind 0 0 80, .listen 0 4, bareSeg [0, 0, 0, 100] [0, 0, 0, 0] 2,
    bareSeg [0, 0, 0, 101] [32, 0, 16, 65] 16]

def resetWaiting : Table :=
  (handshake ++ [bareSeg [0, 0, 0, 101] [0, 0, 0, 0] 4]).foldl (Table.step (calmEnv 1)) Table.init

theorem reset_waiting_dangles :
    TableRun (fun _ _ _ => True) resetWaiting ∧ ¬ QueueOk resetWaiting ∧
      (sockAccept (calmEnv 1) resetWaiting 0).2 = some 1 ∧
      (resetWaiting.sock 1).used = false := by
  have hfacts : ((resetWaiting.sock 0).used = true ∧ (resetWaiting.sock 0).state = .listen ∧
      (resetWaiting.sock 0).acceptq = [1]) ∧
      (sockAccept (calmEnv 1) resetWaiting 0).2 = some 1 ∧
      (resetWaiting.sock 1).used = false := by
    decide +kernel
  obtain ⟨⟨hused, hlisten, hq⟩, haccept, hfree⟩ := hfacts
  refine ⟨.steps _ _ .start fun _ _ _ => trivial, fun hok => ?_, haccept, hfree⟩
  have hlive := (hok.live 0 1 hused hlisten (by simp [hq])).1
  exact absurd hlive (by simp [hfree])

theorem sparesWaiting_of_no_reset {e : Env} {t : Table} {src dst : Addr}
    (h : (parseHdr seg).all fun h => !h.fl.rst) : SparesWaiting e t (.segment src dst seg) := by
  intro i habort
  unfold abortsSlot at habort
  cases hparse : parseHdr seg with
  | none => simp [hparse] at habort
  | some hdr =>
    simp only [hparse, Option.all_some, Bool.not_eq_true'] at h
    simp [hparse, aborts, h] at habort

def handshakeDone : Table := handshake.foldl (Table.step (calmEnv 1)) Table.init

theorem handshake_accepted : (sockAccept (calmEnv 1) handshakeDone 0).2 = some 1 ∧
    QueueOk handshakeDone ∧ (handshakeDone.sock 1).used = true := by
  have hrun : TableRun SparesWaiting handshakeDone := by
    refine .steps _ _ .start fun t a ha => ?_
    simp only [handshake, mem_cons, not_mem_nil, or_false] at ha
    rcases ha with rfl | rfl | rfl | rfl | rfl
    · exact fun _ h => absurd h Bool.false_ne_true
    · exact fun _ h => absurd h Bool.false_ne_true
    · exact fun _ h => absurd h Bool.false_ne_true
    · exact sparesWaiting_of_no_reset (by decide)
    · exact sparesWaiting_of_no_reset (by decide)
  have haccept : (sockAccept (calmEnv 1) handshakeDone 0).2 = some 1 := by decide +kernel
  obtain ⟨hok, hlive, -⟩ := accept_queue_sound_iff handshakeDone hrun
  exact ⟨haccept, hok, (hlive (calmEnv 1) 0 1 haccept).1⟩

end SamaraOS.Net
