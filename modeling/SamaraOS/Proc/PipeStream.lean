import SamaraOS.Lib.Tagged
import SamaraOS.Proc.Pipe

/-!
# What goes through a pipe

Whatever order the sections of calls run in, a pipe is a queue: the bytes taken out and the
bytes still inside are the bytes put in.  The bytes of one write stay together exactly when
no other call puts bytes between two of its sections.
-/

namespace SamaraOS.Pipes

open Function List SamaraOS.Ring Prod

open File (Byte intOf)

/-! ## One section -/

structure Pipe.Ok (p : Pipe) : Prop where
  tail : p.tail < pipeSz
  count : p.count ≤ pipeSz
  head : p.head = (p.tail + p.count) % pipeSz

variable {p : Pipe} {k : Nat} {data : List Byte}

section

variable (h : p.Ok)

include h

theorem Pipe.Ok.head_lt : p.head < pipeSz :=
  h.head ▸ Nat.mod_lt _ (by decide)

theorem Pipe.Ok.take (hk : k ≤ p.count) : (p.take k).Ok := by
  refine ⟨Nat.mod_lt _ (by decide), (Nat.sub_le _ _).trans h.count, ?_⟩
  simp only [Pipe.take]
  rw [h.head, Nat.mod_add_mod]
  congr 1
  omega

theorem Pipe.Ok.put (hroom : p.count + data.length ≤ pipeSz) :
    (p.put data).Ok := by
  refine ⟨h.tail, hroom, ?_⟩
  simp only [Pipe.put]
  rw [h.head, Nat.mod_add_mod, Nat.add_assoc]

theorem Pipe.content_take (hk : k ≤ p.count) (hpiece : p.tail + k ≤ pipeSz) :
    p.content = p.front k ++ (p.take k).content := by
  have hcount := h.count
  have hadd := read_add p.buf h.tail (by omega : k + (p.count - k) ≤ pipeSz)
  rw [Nat.add_sub_cancel' hk, read_eq_slice p.buf hpiece] at hadd
  exact hadd

theorem Pipe.content_put (hroom : p.count + data.length ≤ pipeSz)
    (hpiece : p.head + data.length ≤ pipeSz) : (p.put data).content = p.content ++ data := by
  have hwrite := read_write p.buf h.tail hroom
  rw [← h.head, write_eq_blit p.buf hpiece] at hwrite
  exact hwrite

theorem Pipe.content_prefix (hk : k ≤ p.count) :
    Ring.read p.buf pipeSz p.tail k = p.content.take k := by
  have hcount := h.count
  have hadd := read_add p.buf h.tail (by omega : k + (p.count - k) ≤ pipeSz)
  rw [Nat.add_sub_cancel' hk] at hadd
  rw [Pipe.content, hadd, take_left' (length_read _ _ _ _)]

end

def Call.took (q : Nat) : Call → List Byte
  | .read p _ _ got _ => if q = p then got else []
  | _ => []

def Call.gave (q : Nat) : Call → List Byte
  | .write p buf _ put _ => if q = p then buf.take put else []
  | _ => []

def Call.Short : Call → Prop
  | .write _ buf _ _ _ => buf.length ≤ pipeBuf
  | _ => True

def Call.Live : Call → Prop
  | .write _ buf _ put none => put < buf.length
  | _ => True

inductive Turn (pipes : Nat → Pipe) (call : Call) : Call → Move → Prop
  | stay {call' : Call} (hlive : call'.Live) (htook : ∀ q, call'.took q = call.took q)
      (hgave : ∀ q, call'.gave q = call.gave q) (hshort : call'.Short → call.Short)
      (hlong : call.Short → call'.Short ∨ ∀ q, call.gave q = [])
      (hblocked : ∀ p buf nb put, call = .write p buf nb put none →
        (pipes p).readers = 0 ∨ (pipes p).count = pipeSz) : Turn pipes call call' .stay
  | took {p n k : Nat} {nb : Bool} {got : List Byte} (ret : Option Int)
      (hcall : call = .read p n nb got none) (hk : k ≤ (pipes p).count)
      (hpiece : (pipes p).tail + k ≤ pipeSz) :
      Turn pipes call (.read p n nb (got ++ (pipes p).front k) ret) (.took p k)
  | put {p put c : Nat} {buf : List Byte} {nb : Bool} {ret : Option Int}
      (hcall : call = .write p buf nb put none)
      (hlive : (Call.write p buf nb (put + c) ret).Live) (hpos : 0 < c)
      (hlen : put + c ≤ buf.length) (hroom : (pipes p).count + c ≤ pipeSz)
      (hpiece : (pipes p).head + c ≤ pipeSz)
      (hready : (pipes p).readers ≠ 0 ∧ (pipes p).count ≠ pipeSz) :
      Turn pipes call (.write p buf nb (put + c) ret) (.put p ((buf.drop put).take c))

section

variable {pipes : Nat → Pipe} (intr : Bool)

section

variable (i : Nat) (buf : List Byte) (nb : Bool)

theorem readTurn_turn {i n : Nat} {nb : Bool} {got : List Byte} (h : (pipes i).Ok) :
    Turn pipes (.read i n nb got none) (readTurn intr (pipes i) i n nb got).1
      (readTurn intr (pipes i) i n nb got).2 := by
  have hstay : ∀ ret, Turn pipes (.read i n nb got none) (.read i n nb got ret) .stay := by
    intro ret
    exact .stay trivial (fun _ => rfl) (fun _ => rfl) id .inl (by simp)
  have htail := h.tail
  unfold readTurn
  split
  · split
    · exact hstay _
    split
    · exact hstay _
    · split <;> exact hstay _
  · exact .took _ rfl (by omega) (by omega)

theorem writeTurn_turn {i put : Nat} {buf : List Byte} {nb : Bool} (h : (pipes i).Ok)
    (hlt : put < buf.length) :
    Turn pipes (.write i buf nb put none) (writeTurn intr (pipes i) i buf nb put).1
      (writeTurn intr (pipes i) i buf nb put).2 := by
  have hstay : ∀ ret, (Call.write i buf nb put ret).Live →
      (pipes i).readers = 0 ∨ (pipes i).count = pipeSz →
      Turn pipes (.write i buf nb put none) (.write i buf nb put ret) .stay := by
    intro ret hlive hb
    refine .stay hlive (fun _ => rfl) (fun _ => rfl) id .inl ?_
    rintro p buf' nb' put' heq
    cases heq
    exact hb
  have hhead := h.head_lt
  have hcount := h.count
  unfold writeTurn
  simp only
  split
  next hr => exact hstay _ trivial (.inl hr)
  next hr =>
  split
  next hc =>
    split
    · exact hstay _ trivial (.inr hc)
    split
    · exact hstay _ trivial (.inr hc)
    · exact hstay _ hlt (.inr hc)
  next hc =>
  refine .put rfl ?_ (by omega) (by omega) (by omega) (by omega) ⟨hr, hc⟩
  split
  next hmore => exact hmore
  · trivial

theorem writeCall_live : (writeCall i buf nb).Live := by
  unfold writeCall
  split
  · trivial
  next hne => exact length_pos_of_ne_nil hne

theorem writeCall_gave (q : Nat) : (writeCall i buf nb).gave q = [] := by
  simp [writeCall, Call.gave]

end

theorem teeTurn_turn (src dst len : Nat) (nb dnb : Bool) :
    Turn pipes (.tee src dst len nb dnb) (teeTurn intr (pipes src) src dst len nb dnb).1
      (teeTurn intr (pipes src) src dst len nb dnb).2 := by
  have hdone : ∀ r, Turn pipes (.tee src dst len nb dnb) (.teed r) .stay :=
    fun r => .stay trivial (fun _ => rfl) (fun _ => rfl) id .inl (by simp)
  unfold teeTurn
  split
  · split
    · exact hdone _
    split
    · exact hdone _
    split
    · exact hdone _
    · exact .stay trivial (fun _ => rfl) (fun _ => rfl) id .inl (by simp)
  exact .stay (writeCall_live _ _ _) (fun _ => rfl) (writeCall_gave _ _ _) (fun _ => trivial)
    (fun _ => .inr fun _ => rfl) (by simp)

theorem turn_turn {call : Call} (h : ∀ i, (pipes i).Ok) (hlive : call.Live) :
    Turn pipes call (turn intr pipes call).1 (turn intr pipes call).2 := by
  have hdone : call.Live → (∀ p buf nb put, call ≠ .write p buf nb put none) →
      Turn pipes call call .stay := fun hl hne =>
    .stay hl (fun _ => rfl) (fun _ => rfl) id .inl fun _ _ _ _ heq => absurd heq (hne _ _ _ _)
  cases call with
  | read i n nb got ret =>
    cases ret with
    | none => exact readTurn_turn intr (h i)
    | some r => exact hdone hlive (by simp)
  | write i buf nb put ret =>
    cases ret with
    | none => exact writeTurn_turn intr (h i) hlive
    | some r => exact hdone hlive (by simp)
  | tee src dst len nb dnb => exact teeTurn_turn intr src dst len nb dnb
  | teed r => exact hdone hlive (by simp)

end

/-! ## Runs -/

open Tagged

def Sys.tookBy (s : Sys) (id q : Nat) : List Byte := (s.calls id).elim [] (Call.took q)

def Sys.gaveBy (s : Sys) (id q : Nat) : List Byte := (s.calls id).elim [] (Call.gave q)

structure Sys.Inv (s : Sys) : Prop where
  ok : ∀ q, (s.pipes q).Ok
  stream : ∀ q, (s.puts q).map snd = (s.takes q).map snd ++ (s.pipes q).content
  live : ∀ id call, s.calls id = some call → call.Live
  took : ∀ id q, part id (s.takes q) = s.tookBy id q
  gave : ∀ id q, part id (s.puts q) = s.gaveBy id q

theorem map_tag (id : Nat) (data : List Byte) : (data.map (id, ·)).map snd = data := by
  simp

theorem part_update (logs : Nat → Log) (id p : Nat) (data : List Byte) (j q : Nat) :
    part j (update logs p (logs p ++ data.map (id, ·)) q)
      = part j (logs q) ++ if j = id ∧ q = p then data else [] := by
  by_cases hq : q = p
  · subst hq
    by_cases hj : j = id
    · simp [hj, part_own]
    · simp [hj, part_other hj]
  · simp [hq]

section

variable {s : Sys} {id : Nat} {call call' : Call} {mv : Move}

theorem Sys.Inv.start (h : s.Inv) (hlive : call.Live) (htook : ∀ q, call.took q = [])
    (hgave : ∀ q, call.gave q = []) : (s.start id call).Inv := by
  unfold Sys.start
  split
  swap
  · exact h
  next hfree =>
  refine ⟨h.ok, h.stream, fun j c hj => ?_, fun j q => ?_, fun j q => ?_⟩
  · simp only [update_apply] at hj
    split at hj
    · cases hj
      exact hlive
    · exact h.live j c hj
  · rw [h.took, Sys.tookBy, Sys.tookBy]
    simp only [update_apply]
    split
    next heq => simp [heq, hfree, htook]
    · rfl
  rw [h.gave, Sys.gaveBy, Sys.gaveBy]
  simp only [update_apply]
  split
  next heq => simp [heq, hfree, hgave]
  · rfl

def Sys.after (s : Sys) (id : Nat) (call : Call) (mv : Move) : Sys :=
  { s.move id mv with calls := update s.calls id (some call) }

theorem tookBy_after (call : Call) (mv : Move) (j q : Nat) :
    (s.after id call mv).tookBy j q = if j = id then call.took q else s.tookBy j q := by
  simp only [Sys.after, Sys.tookBy, update_apply]
  split <;> rfl

theorem gaveBy_after (call : Call) (mv : Move) (j q : Nat) :
    (s.after id call mv).gaveBy j q = if j = id then call.gave q else s.gaveBy j q := by
  simp only [Sys.after, Sys.gaveBy, update_apply]
  split <;> rfl

theorem tookBy_eq (hcall : s.calls id = some call) (q : Nat) : s.tookBy id q = call.took q := by
  simp [Sys.tookBy, hcall]

theorem gaveBy_eq (hcall : s.calls id = some call) (q : Nat) : s.gaveBy id q = call.gave q := by
  simp [Sys.gaveBy, hcall]

section

variable (h : s.Inv)

include h

theorem Sys.Inv.after_live (hlive : call'.Live) :
    ∀ j c, (s.after id call' mv).calls j = some c → c.Live := by
  intro j c hj
  simp only [Sys.after, update_apply] at hj
  split at hj
  · cases hj
    exact hlive
  · exact h.live j c hj

section

variable (hcall : s.calls id = some call)

include hcall

theorem Sys.Inv.after_took (htook : ∀ q, call'.took q = call.took q)
    (htakes : (s.after id call' mv).takes = s.takes) (j q : Nat) :
    part j ((s.after id call' mv).takes q) = (s.after id call' mv).tookBy j q := by
  rw [htakes, h.took, tookBy_after]
  split
  next heq => rw [heq, tookBy_eq hcall, htook]
  · rfl

theorem Sys.Inv.after_gave (hgave : ∀ q, call'.gave q = call.gave q)
    (hputs : (s.after id call' mv).puts = s.puts) (j q : Nat) :
    part j ((s.after id call' mv).puts q) = (s.after id call' mv).gaveBy j q := by
  rw [hputs, h.gave, gaveBy_after]
  split
  next heq => rw [heq, gaveBy_eq hcall, hgave]
  · rfl

theorem Sys.Inv.turn (ht : Turn s.pipes call call' mv) : (s.after id call' mv).Inv := by
  cases ht with
  | stay hlive htook hgave =>
    exact ⟨h.ok, h.stream, h.after_live hlive, h.after_took hcall htook rfl,
      h.after_gave hcall hgave rfl⟩
  | @took p n k nb got ret hread hk hpiece =>
    subst hread
    refine ⟨fun q => ?_, fun q => ?_, h.after_live trivial, fun j q => ?_,
      h.after_gave hcall (fun _ => rfl) rfl⟩
    · simp only [Sys.after, Sys.move, update_apply]
      split
      · exact (h.ok p).take hk
      · exact h.ok q
    · simp only [Sys.after, Sys.move, update_apply]
      split
      next heq =>
        subst heq
        rw [h.stream, Pipe.content_take (h.ok q) hk hpiece, map_append, map_tag, append_assoc]
      · exact h.stream q
    rw [tookBy_after]
    refine (part_update s.takes id p _ j q).trans ?_
    rw [h.took]
    by_cases hj : j = id
    · subst hj
      by_cases hq : q = p <;> simp [tookBy_eq hcall, Call.took, hq]
    · simp [hj]
  | @put p put c buf nb ret hwrite hlive hpos hlen hroom hpiece =>
    subst hwrite
    have hdata : ((buf.drop put).take c).length = c := by
      rw [length_take, length_drop]
      omega
    refine ⟨fun q => ?_, fun q => ?_, h.after_live hlive, h.after_took hcall (fun _ => rfl) rfl,
      fun j q => ?_⟩
    · simp only [Sys.after, Sys.move, update_apply]
      split
      · exact (h.ok p).put (by omega)
      · exact h.ok q
    · simp only [Sys.after, Sys.move, update_apply]
      split
      next heq =>
        subst heq
        rw [Pipe.content_put (h.ok q) (by omega) (by omega), map_append, h.stream, map_tag,
          append_assoc]
      · exact h.stream q
    rw [gaveBy_after]
    refine (part_update s.puts id p _ j q).trans ?_
    rw [h.gave]
    by_cases hj : j = id
    · subst hj
      by_cases hq : q = p <;> simp [gaveBy_eq hcall, Call.gave, hq, take_add]
    · simp [hj]

end

theorem Sys.Inv.ends (p readers writers : Nat) : (next s (.ends p readers writers)).Inv := by
  refine ⟨fun q => ?_, fun q => ?_, h.live, h.took, h.gave⟩
  · simp only [next, update_apply]
    split
    · exact ⟨(h.ok p).tail, (h.ok p).count, (h.ok p).head⟩
    · exact h.ok q
  refine (h.stream q).trans ?_
  simp only [next, update_apply]
  split
  next heq => rw [heq]; rfl
  · rfl

omit h in
theorem next_run (intr : Bool) (hcall : s.calls id = some call) :
    next s (.run id intr) = s.after id (turn intr s.pipes call).1 (turn intr s.pipes call).2 := by
  simp only [next, hcall]
  generalize turn intr s.pipes call = t
  obtain ⟨call', mv⟩ := t
  cases mv <;> rfl

theorem Sys.Inv.next (e : Event) : (next s e).Inv := by
  cases e with
  | read id p n nb =>
    exact h.start trivial (fun q => by simp [Call.took]) fun _ => rfl
  | write id p buf nb =>
    exact h.start (writeCall_live p buf nb) (fun _ => rfl) (writeCall_gave p buf nb)
  | tee id src dst len nb dnb =>
    simp only [Pipes.next]
    split
    · exact h
    · exact h.start trivial (fun _ => rfl) fun _ => rfl
  | run id intr =>
    cases hcall : s.calls id with
    | none => simpa [Pipes.next, hcall] using h
    | some call =>
      rw [next_run intr hcall]
      exact h.turn hcall (turn_turn intr h.ok (h.live id call hcall))
  | ends p readers writers => exact h.ends p readers writers

omit h in
theorem inv_boot : boot.Inv :=
  ⟨fun _ => ⟨Nat.zero_lt_succ _, Nat.zero_le _, rfl⟩, fun _ => rfl, by simp [boot],
    fun _ _ => rfl, fun _ _ => rfl⟩

theorem Sys.Inv.play (events : List Event) : (play s events).Inv := by
  induction events generalizing s with
  | nil => exact h
  | cons e events ih => exact ih (h.next e)

/-! ## Writes in one piece -/

def Sys.Together (s : Sys) : Prop :=
  ∀ id, (∀ call, s.calls id = some call → call.Short) → ∀ q, Tagged.Together id (s.puts q)

def Undisturbed (s : Sys) : Event → Prop
  | .run id _ =>
    match s.calls id with
    | some (.write p buf _ put none) =>
      buf.length ≤ pipeBuf → 0 < put → (s.pipes p).readers ≠ 0 → (s.pipes p).count ≠ pipeSz →
        (s.puts p).getLast?.map fst = some id
    | _ => True
  | _ => True

def UndisturbedRun (s : Sys) : List Event → Prop
  | [] => True
  | e :: events => Undisturbed s e ∧ UndisturbedRun (next s e) events

theorem Sys.Inv.absent {q : Nat} (hgave : s.gaveBy id q = []) : ∀ x ∈ s.puts q, x.1 ≠ id :=
  part_eq_nil.1 ((h.gave id q).trans hgave)

theorem together_congr {s' : Sys} (hputs : s'.puts = s.puts) (hshort : ∀ j, (∀ c,
    s'.calls j = some c → c.Short) → (∀ c, s.calls j = some c → c.Short) ∨ ∀ q, s.gaveBy j q = [])
    (hlong : ∀ j, (∀ c, s.calls j = some c → c.Short) → (∀ c, s'.calls j = some c → c.Short) ∨ ∀ q,
    s.gaveBy j q = []) : s'.Together ↔ s.Together := by
  constructor
  · intro ht j hj q
    rcases hlong j hj with hj' | hnil
    · exact hputs ▸ ht j hj' q
    · exact together_of_absent (h.absent (hnil q))
  intro ht j hj q
  rw [hputs]
  rcases hshort j hj with hj' | hnil
  · exact ht j hj' q
  · exact together_of_absent (h.absent (hnil q))

theorem together_start (call : Call) : (s.start id call).Together ↔ s.Together := by
  unfold Sys.start
  split
  swap
  · rfl
  next hfree =>
  have hnil : ∀ q, s.gaveBy id q = [] := fun q => by simp [Sys.gaveBy, hfree]
  refine together_congr h rfl (fun j hj => ?_) fun j hj => ?_
  all_goals
    by_cases heq : j = id
    · exact .inr (heq ▸ hnil)
    simp only [update_of_ne heq] at hj ⊢
    exact .inl hj

theorem together_still (hcall : s.calls id = some call)
    (hputs : (s.after id call' mv).puts = s.puts)
    (hshort : call'.Short → call.Short) (hlong : call.Short → call'.Short ∨ ∀ q, call.gave q = []) :
    (s.after id call' mv).Together ↔ s.Together := by
  refine together_congr h hputs (fun j hj => ?_) fun j hj => ?_
  all_goals
    simp only [Sys.after, update_apply] at hj ⊢
    by_cases heq : j = id
    · subst heq
      simp only [hcall, if_true, Option.some.injEq, forall_eq'] at hj ⊢
      first
        | exact .inl (hshort hj)
        | exact (hlong hj).imp_right fun hnil q => (gaveBy_eq hcall q).trans (hnil q)
    simp only [if_neg heq] at hj ⊢
    exact .inl hj

theorem together_put {p put c : Nat} {buf : List Byte} {nb : Bool} {ret : Option Int}
    (hcall : s.calls id = some (.write p buf nb put none)) (hpos : 0 < c)
    (hlen : put + c ≤ buf.length) :
    (s.after id (.write p buf nb (put + c) ret) (.put p ((buf.drop put).take c))).Together ↔
      s.Together ∧ (buf.length ≤ pipeBuf → 0 < put →
        (s.puts p).getLast?.map fst = some id) := by
  generalize hdata : (buf.drop put).take c = data
  have hne : data.map (id, ·) ≠ [] := by
    intro hnil
    have := congrArg length hnil
    rw [length_map, ← hdata, length_take, length_drop] at this
    simp only [length_nil] at this
    omega
  have hown : ∀ y ∈ data.map (id, ·), y.1 = id := by simp
  have hpresent : 0 < put → ∃ x ∈ s.puts p, x.1 = id := by
    intro hput
    by_contra hnone
    have hnil : part id (s.puts p) = [] := part_eq_nil.2 fun x hx hid => hnone ⟨x, hx, hid⟩
    rw [h.gave, gaveBy_eq hcall, Call.gave, if_pos rfl, take_eq_nil_iff] at hnil
    rcases hnil with hz | hz
    · omega
    simp only [hz, length_nil] at hlen
    omega
  have hputs : ∀ q, (s.after id (.write p buf nb (put + c) ret) (.put p data)).puts q
      = if q = p then s.puts p ++ data.map (id, ·) else s.puts q := fun q =>
    update_apply _ _ _ _
  have hshort : ∀ j, (∀ call, (s.after id (.write p buf nb (put + c) ret) (.put p data)).calls j
      = some call → call.Short) ↔ ∀ call, s.calls j = some call → call.Short := by
    intro j
    simp only [Sys.after, update_apply]
    by_cases hj : j = id
    · subst hj
      simp [hcall, Call.Short]
    · simp [hj]
  have hmine : buf.length ≤ pipeBuf → ∀ call, s.calls id = some call → call.Short := by
    intro hb call heq
    rw [hcall] at heq
    cases heq
    exact hb
  constructor
  · intro ht
    refine ⟨fun j hj q => ?_, fun hb hput => ?_⟩
    · have := ht j ((hshort j).2 hj) q
      rw [hputs] at this
      split at this
      next heq => exact heq ▸ this.left
      · exact this
    have := ht id ((hshort id).2 (hmine hb)) p
    rw [hputs, if_pos rfl] at this
    exact ((together_append_own (hpresent hput) hown hne).1 this).2
  rintro ⟨ht, hlast⟩ j hj q
  have hold := ht j ((hshort j).1 hj) q
  rw [hputs]
  split
  swap
  · exact hold
  next heq =>
  subst heq
  by_cases hj' : j = id
  · subst hj'
    have hb : buf.length ≤ pipeBuf := (hshort j).1 hj _ hcall
    rcases Nat.eq_zero_or_pos put with hz | hput
    · subst hz
      refine together_append_new (h.absent ?_) hown
      rw [gaveBy_eq hcall, Call.gave, if_pos rfl, take_zero]
    · exact (together_append_own (hpresent hput) hown hne).2 ⟨hold, hlast hb hput⟩
  · exact hold.append_other (by simpa using fun _ _ => Ne.symm hj')

theorem together_turn (hcall : s.calls id = some call) (ht : Turn s.pipes call call' mv)
    (intr : Bool) : (s.after id call' mv).Together ↔ s.Together ∧ Undisturbed s (.run id intr) := by
  cases ht with
  | stay hlive htook hgave hs hl hblocked =>
    have hquiet : Undisturbed s (.run id intr) := by
      simp only [Undisturbed, hcall]
      split
      next p buf nb put heq =>
        intro _ _ hr hc
        rcases hblocked p buf nb put (by simpa using heq) with hr' | hc'
        · exact absurd hr' hr
        · exact absurd hc' hc
      · trivial
    rw [and_iff_left hquiet]
    exact together_still h hcall rfl hs hl
  | took ret hread hk hpiece =>
    subst hread
    have hquiet : Undisturbed s (.run id intr) := by simp [Undisturbed, hcall]
    rw [and_iff_left hquiet]
    exact together_still h hcall rfl (fun _ => trivial) .inl
  | put hwrite hlive hpos hlen hroom hpiece hready =>
    subst hwrite
    rw [together_put h hcall hpos hlen]
    simp only [Undisturbed, hcall]
    tauto

theorem together_next (e : Event) : (next s e).Together ↔ s.Together ∧ Undisturbed s e := by
  cases e with
  | read id p n nb | write id p buf nb =>
    exact (together_start h _).trans (and_iff_left trivial).symm
  | tee id src dst len nb dnb =>
    refine Iff.trans ?_ (and_iff_left trivial).symm
    simp only [next]
    split
    · rfl
    · exact together_start h _
  | run id intr =>
    cases hcall : s.calls id with
    | none => simp [next, Undisturbed, hcall]
    | some call =>
      rw [next_run intr hcall]
      exact together_turn h hcall (turn_turn intr h.ok (h.live id call hcall)) intr
  | ends p readers writers => exact (and_iff_left trivial).symm

theorem together_play (events : List Event) :
    (play s events).Together ↔ s.Together ∧ UndisturbedRun s events := by
  induction events generalizing s with
  | nil => exact (and_iff_left trivial).symm
  | cons e events ih =>
    refine (ih (h.next e)).trans ?_
    rw [together_next h e, and_assoc]
    rfl

end

end

/-- A `tee` leaves the pipes and turns into a write of a copy to the other pipe. -/
def TeeCopies (s : Sys) : Prop :=
  ∀ id src dst len nb dnb intr, s.calls id = some (.tee src dst len nb dnb) →
    (next s (.run id intr)).pipes = s.pipes ∧
      ∀ p buf nb' put ret, (next s (.run id intr)).calls id = some (.write p buf nb' put ret) →
        p = dst ∧ put = 0 ∧ buf = (s.pipes src).content.take (min len pipeSz)

theorem teeTurn_cases (intr : Bool) (p : Pipe) (src dst len : Nat) (nb dnb : Bool) :
    (teeTurn intr p src dst len nb dnb).2 = .stay ∧
      ((∃ r, (teeTurn intr p src dst len nb dnb).1 = .teed r) ∨
        (teeTurn intr p src dst len nb dnb).1 = .tee src dst len nb dnb ∨
        (teeTurn intr p src dst len nb dnb).1 =
          writeCall dst (Ring.read p.buf pipeSz p.tail (min p.count (min len pipeSz))) dnb) := by
  unfold teeTurn
  split_ifs <;> simp

theorem Pipe.length_content (p : Pipe) : p.content.length = p.count :=
  length_read _ _ _ _

theorem Sys.Inv.teeCopies {s : Sys} (h : s.Inv) : TeeCopies s := by
  intro id src dst len nb dnb intr hcall
  rw [next_run intr hcall]
  obtain ⟨hstay, hcases⟩ := teeTurn_cases intr (s.pipes src) src dst len nb dnb
  have hturn : Pipes.turn intr s.pipes (.tee src dst len nb dnb)
      = teeTurn intr (s.pipes src) src dst len nb dnb := rfl
  rw [hturn, hstay]
  refine ⟨rfl, fun p buf nb' put ret hwrite => ?_⟩
  have hwrite : (teeTurn intr (s.pipes src) src dst len nb dnb).1 = .write p buf nb' put ret := by
    simpa [Sys.after] using hwrite
  rw [hwrite] at hcases
  rcases hcases with ⟨r, hr⟩ | hr | hr
  · cases hr
  · cases hr
  obtain ⟨rfl, rfl, -, rfl, -⟩ := hr
  refine ⟨rfl, rfl, ?_⟩
  rw [Pipe.content_prefix (h.ok src) (Nat.min_le_left _ _), take_eq_take_iff, Pipe.length_content]
  omega

/-- For every order of sections: the bytes taken out and those still inside are the bytes put in,
every call has taken or put what it says, a `tee` only copies; and short writes stay in one piece
exactly when they are not disturbed. -/
theorem pipe_integrity (events : List Event) : (∀ q, ((play boot events).pipes q).Ok ∧
      ((play boot events).puts q).map snd =
        ((play boot events).takes q).map snd ++ ((play boot events).pipes q).content) ∧
    (∀ id q, part id ((play boot events).takes q) = (play boot events).tookBy id q ∧
      part id ((play boot events).puts q) = (play boot events).gaveBy id q) ∧
    TeeCopies (play boot events) ∧ ((play boot events).Together ↔ UndisturbedRun boot events) := by
  have h : (play boot events).Inv := inv_boot.play events
  have hboot : boot.Together := fun id _ q => together_of_absent (by simp [boot])
  refine ⟨fun q => ⟨h.ok q, h.stream q⟩, fun id q => ⟨h.took id q, h.gave id q⟩, h.teeCopies, ?_⟩
  rw [together_play inv_boot events, and_iff_right hboot]

def twoWriters : List Event :=
  [.write 1 0 (replicate 1025 1) false, .write 2 0 (replicate 1025 2) false,
    .run 1 false, .run 2 false, .run 1 false]

theorem writes_mixed : ¬(play boot twoWriters).Together := by
  intro h
  have hcall : (play boot twoWriters).calls 1
      = some (.write 0 (replicate 1025 1) false 1025 (some 1025)) := by decide +kernel
  have hshort : ∀ call, (play boot twoWriters).calls 1 = some call → call.Short := by
    rintro call hc
    rw [hcall] at hc
    cases hc
    rw [Call.Short, length_replicate]
    decide
  have hmid := h 1 hshort 0 0 1024 2048 (by decide) (by decide) (by decide +kernel)
    (by decide +kernel)
  have hother : ((play boot twoWriters).puts 0)[1024]?.map fst = some 2 := by decide +kernel
  rw [hother] at hmid
  exact absurd hmid (by decide)

end SamaraOS.Pipes
