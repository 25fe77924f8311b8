import SamaraOS.Proc.Pty

/-!
# What a pseudo-terminal loses

The slave's output is never dropped: three free cells hold whatever one byte becomes.  The
master's input is kept as long as every edit line fits into the ring when it is handed over.
-/

namespace SamaraOS.Terminal

open List RingBuf

theorem ofSlave_append (a b : List (Origin × Byte)) :
    ofSlave (a ++ b) = ofSlave a ++ ofSlave b := by
  simp [ofSlave]

structure Quiet (p q : Pty) : Prop where
  input : q.input = p.input
  line : q.line = p.line
  out : ofSlave q.out.contents = ofSlave p.out.contents

theorem Quiet.refl (p : Pty) : Quiet p p := ⟨rfl, rfl, rfl⟩

variable {p : Pty} {k m : Nat} {tio : Termios} {kept : List Byte × List Byte} {received : List Byte}
  {w : Session} {α : Type}

theorem Quiet.trans {q r : Pty} (h : Quiet p q) (h' : Quiet q r) : Quiet p r :=
  ⟨h'.input.trans h.input, h'.line.trans h.line, h'.out.trans h.out⟩

section

variable (tio : Termios) (p : Pty) (c : Byte)

theorem ofSlave_putAll_echo (r : RingBuf (Origin × Byte)) (cs : List Byte) :
    ofSlave (r.putAll (cs.map fun x => (.echo, x))).contents = ofSlave r.contents := by
  induction cs generalizing r with
  | nil => rfl
  | cons c cs ih =>
    refine (ih (r.put (.echo, c))).trans ?_
    rcases r.contents_put_eq (.echo, c) with h | h
    · rw [h, ofSlave_append]
      simp [ofSlave]
    · rw [h]

theorem outChar_quiet : Quiet p (outChar tio .echo p c) :=
  ⟨rfl, rfl, ofSlave_putAll_echo p.out (post tio c)⟩

theorem echoChar_quiet : Quiet p (echoChar tio p c) := by
  unfold echoChar
  split_ifs
  · exact (outChar_quiet tio p 94).trans (outChar_quiet tio _ (c + 64))
  · exact outChar_quiet tio p c

theorem rubOut_quiet : Quiet p (rubOut tio p) :=
  ((outChar_quiet tio p 8).trans (outChar_quiet tio _ 32)).trans (outChar_quiet tio _ 8)

theorem echoIf_quiet {f : Pty → Pty} (hf : ∀ p, Quiet p (f p)) (p : Pty) :
    Quiet p (echoIf tio f p) := by
  unfold echoIf
  split_ifs
  · exact hf p
  · exact .refl p

end

structure Takes (p q : Pty) (cs line : List Byte) : Prop where
  input : q.input = p.input.putAll cs
  line : q.line = line
  out : ofSlave q.out.contents = ofSlave p.out.contents

section

variable (tio : Termios) (c : Byte) {line : List Byte}

theorem Takes.quiet {q r : Pty} {cs : List Byte} (h : Takes p q cs line) (hq : Quiet q r) :
    Takes p r cs line :=
  ⟨hq.input.trans h.input, hq.line.trans h.line, hq.out.trans h.out⟩

theorem eraseOne_takes (p : Pty) : Takes p (eraseOne tio p) [] p.line.dropLast :=
  Takes.quiet (q := { p with line := p.line.dropLast }) ⟨rfl, rfl, rfl⟩
    (echoIf_quiet tio (rubOut_quiet tio) _)

theorem eraseAll_takes (hk : k = p.line.length) : Takes p (eraseAll tio k p) [] [] := by
  induction k generalizing p with
  | zero => exact ⟨rfl, length_eq_zero_iff.1 hk.symm, rfl⟩
  | succ k ih =>
    have hone := eraseOne_takes tio p
    have hrest := ih (p := eraseOne tio p) (by
      rw [hone.line, length_dropLast]
      omega)
    exact ⟨hrest.input.trans hone.input, hrest.line, hrest.out.trans hone.out⟩

theorem flushLine_takes (p : Pty) : Takes p (flushLine p) p.line [] := ⟨rfl, rfl, rfl⟩

theorem inputChar_takes (hline : p.line.length ≤ 255) :
    Takes p (inputChar tio p c) (cook tio p.line c).1 (cook tio p.line c).2 := by
  unfold inputChar cook
  cases mapInput tio c with
  | none => exact ⟨rfl, rfl, rfl⟩
  | some c =>
    dsimp only
    split_ifs with hsig hraw herase hlen hkill heof hlen' hnl hroom hroom'
    · have hecho := echoIf_quiet tio (f := fun p => outChar tio .echo (echoChar tio p c) nl)
        (fun p => (echoChar_quiet tio p c).trans (outChar_quiet tio _ nl)) p
      exact ⟨hecho.input, rfl, hecho.out⟩
    · exact .quiet (q := { p with input := p.input.put c }) ⟨rfl, rfl, rfl⟩
        (echoIf_quiet tio (fun p => echoChar_quiet tio p c) _)
    · exact eraseOne_takes tio p
    · have hnil : p.line = [] := length_eq_zero_iff.1 (by omega)
      exact ⟨rfl, by rw [hnil]; rfl, rfl⟩
    · exact eraseAll_takes tio rfl
    · exact flushLine_takes p
    · have hnil : p.line = [] := length_eq_zero_iff.1 (by omega)
      exact ⟨by rw [hnil]; rfl, hnil, rfl⟩
    · -- the newline always finds room in the edit line
      subst hnl
      have hecho := echoIf_quiet tio (f := fun p => outChar tio .echo p nl)
        (fun p => outChar_quiet tio p nl) { p with line := p.line ++ [nl] }
      exact ⟨by rw [flushLine, hecho.input, hecho.line], rfl, hecho.out⟩
    · simp only [lineSize] at hroom
      omega
    · exact .quiet (q := { p with line := p.line ++ [c] }) ⟨rfl, rfl, rfl⟩
        (echoIf_quiet tio (fun p => echoChar_quiet tio p c) _)
    · exact ⟨rfl, rfl, rfl⟩

theorem cook_line_le (h : line.length ≤ 255) :
    (cook tio line c).2.length ≤ 255 := by
  unfold cook
  cases mapInput tio c with
  | none => exact h
  | some c =>
    dsimp only
    split_ifs with h1 h2 h3 h4 h5 h6 h7 <;> simp [lineSize] at * <;> omega

end

/-! ## The invariant -/

section

variable (tio : Termios) (s : List Byte × List Byte)

@[simp] theorem cookAll_cons (c : Byte) (cs : List Byte) : cookAll tio s (c :: cs) =
      cookAll tio (s.1 ++ (cook tio s.2 c).1, (cook tio s.2 c).2) cs := rfl

theorem cookAll_append (cs ds : List Byte) :
    cookAll tio s (cs ++ ds) = cookAll tio (cookAll tio s cs) ds :=
  foldl_append

end

structure Kept (tio : Termios) (kept : List Byte × List Byte) (received : List Byte) (p : Pty) :
    Prop where
  line_le : p.line.length ≤ 255
  handed : kept.1 = received ++ p.input.contents
  line : kept.2 = p.line

theorem Kept.inputChar (h : Kept tio kept received p) {c : Byte} (hfit : Fits tio p c) :
    Kept tio (kept.1 ++ (cook tio kept.2 c).1, (cook tio kept.2 c).2) received
      (inputChar tio p c) := by
  have htake := inputChar_takes tio c h.line_le
  rw [h.line]
  refine ⟨?_, ?_, htake.line.symm⟩
  · rw [htake.line]
    exact cook_line_le tio c h.line_le
  · rw [htake.input, contents_putAll hfit, h.handed, append_assoc]

theorem Kept.ptyWriteIn (buf : List Byte) (h : Kept tio kept received p)
    (hfit : FeedFits tio buf p) :
    Kept tio (cookAll tio kept (ptyWriteIn tio buf p).2) received (ptyWriteIn tio buf p).1 := by
  induction buf generalizing kept p with
  | nil => exact h
  | cons c cs ih =>
    rw [Terminal.ptyWriteIn]
    split_ifs with hspace
    · obtain ⟨hc, hcs⟩ := hfit hspace
      exact ih (h.inputChar hc) hcs
    · exact h

theorem takeOut_append (last : α → Bool) (n : Nat) (r : RingBuf α) :
    (takeOut last n r).1 ++ (takeOut last n r).2.contents = r.contents := by
  induction n generalizing r with
  | zero => rfl
  | succ n ih =>
    rw [takeOut]
    split_ifs with hn
    · dsimp only
      split_ifs
      · exact (r.contents_get hn).symm
      · rw [cons_append, ih, ← r.contents_get hn]
    · rfl

theorem takeOut_n (last : α → Bool) {n : Nat} (hpos : 0 < n) (r : RingBuf α) :
    (takeOut last n r).2.n ≤ r.n - 1 := by
  have hlen := congrArg length (takeOut_append last n r)
  simp only [length_append, length_contents] at hlen
  rcases Nat.eq_zero_or_pos r.n with h0 | hn
  · omega
  have hone : 0 < (takeOut last n r).1.length := by
    obtain ⟨m, rfl⟩ : ∃ m, n = m + 1 := ⟨n - 1, by omega⟩
    rw [takeOut, dif_pos hn]
    dsimp only
    split_ifs <;> simp
  omega

theorem Kept.slaveRead (h : Kept tio kept received p) (n : Nat) :
    Kept tio kept (received ++ (slaveRead tio n p).2) (slaveRead tio n p).1 := by
  unfold Terminal.slaveRead
  split_ifs
  · exact ⟨h.line_le, by simpa using h.handed, h.line⟩
  refine ⟨h.line_le, ?_, h.line⟩
  rw [append_assoc, takeOut_append]
  exact h.handed

section

variable (tio : Termios) (buf : List Byte)

theorem ptyWriteOut_keeps (p : Pty) :
    (ptyWriteOut tio buf p).1.input = p.input ∧ (ptyWriteOut tio buf p).1.line = p.line := by
  induction buf generalizing p with
  | nil => exact ⟨rfl, rfl⟩
  | cons c cs ih =>
    rw [ptyWriteOut]
    split_ifs
    · exact ih (outChar tio .slave p c)
    · exact ⟨rfl, rfl⟩

theorem ofSlave_slave (cs : List Byte) : ofSlave (cs.map fun x => (.slave, x)) = cs := by
  induction cs with
  | nil => rfl
  | cons c cs ih => simpa [ofSlave] using ih

theorem post_length (c : Byte) : (post tio c).length ≤ 2 := by
  unfold post
  split_ifs <;> simp

theorem ptyWriteOut_out (p : Pty) : ofSlave (ptyWriteOut tio buf p).1.out.contents =
      ofSlave p.out.contents ++ (ptyWriteOut tio buf p).2.flatMap (post tio) := by
  induction buf generalizing p with
  | nil => simp [ptyWriteOut]
  | cons c cs ih =>
    rw [ptyWriteOut]
    split_ifs with hspace
    swap
    · simp
    have hroom : p.out.n + ((post tio c).map fun x => (Origin.slave, x)).length ≤ ptyBuf := by
      have hpost := post_length tio c
      rw [RingBuf.space] at hspace
      rw [length_map]
      omega
    rw [ih, outChar]
    rw [contents_putAll hroom, ofSlave_append, ofSlave_slave, flatMap_cons, append_assoc]

theorem ptyWriteIn_out (hline : p.line.length ≤ 255) :
    ofSlave (ptyWriteIn tio buf p).1.out.contents = ofSlave p.out.contents ∧
      (ptyWriteIn tio buf p).1.line.length ≤ 255 := by
  induction buf generalizing p with
  | nil => exact ⟨rfl, hline⟩
  | cons c cs ih =>
    rw [ptyWriteIn]
    split_ifs
    · have htake := inputChar_takes tio c hline
      have hline' : (inputChar tio p c).line.length ≤ 255 := by
        rw [htake.line]
        exact cook_line_le tio c hline
      exact ⟨(ih hline').1.trans htake.out, (ih hline').2⟩
    · exact ⟨rfl, hline⟩

end

structure Shown (tio : Termios) (w : Session) : Prop where
  line_le : w.pty.line.length ≤ 255
  out : ofSlave (w.shown ++ w.pty.out.contents) = w.written.flatMap (post tio)

theorem slaveRead_out (tio : Termios) (n : Nat) (p : Pty) :
    (slaveRead tio n p).1.out = p.out ∧ (slaveRead tio n p).1.line = p.line := by
  unfold slaveRead
  split_ifs <;> exact ⟨rfl, rfl⟩

theorem Shown.step (h : Shown tio w) (op : Op) : Shown tio (step tio w op) := by
  obtain ⟨hline, hout⟩ := h
  rw [ofSlave_append] at hout
  cases op with
  | masterWrite buf =>
    obtain ⟨ho, hl⟩ := ptyWriteIn_out tio buf hline
    refine ⟨hl, ?_⟩
    rw [ofSlave_append]
    exact (congrArg (ofSlave w.shown ++ ·) ho).trans hout
  | slaveWrite buf =>
    constructor
    · rw [Terminal.step]
      rw [(ptyWriteOut_keeps tio buf w.pty).2]
      exact hline
    rw [Terminal.step, ofSlave_append]
    rw [ptyWriteOut_out, ← append_assoc, hout, flatMap_append]
  | slaveRead n =>
    obtain ⟨ho, hl⟩ := slaveRead_out tio n w.pty
    constructor
    · rw [Terminal.step]
      rw [hl]
      exact hline
    rw [Terminal.step, ofSlave_append]
    rw [ho]
    exact hout
  | masterRead n =>
    refine ⟨hline, ?_⟩
    rw [Terminal.step]
    rw [append_assoc, takeOut_append, ofSlave_append]
    exact hout

theorem Shown.run (h : Shown tio w) (ops : List Op) : Shown tio (run tio w ops) := by
  induction ops generalizing w with
  | nil => exact h
  | cons op ops ih => exact ih (h.step op)

def SessionKept (tio : Termios) (w : Session) : Prop :=
  Kept tio (cookAll tio ([], []) w.accepted) w.received w.pty

theorem SessionKept.step (h : SessionKept tio w) {op : Op}
    (hfit : OpFits tio w op) : SessionKept tio (step tio w op) := by
  unfold SessionKept at h ⊢
  cases op with
  | masterWrite buf =>
    rw [Terminal.step]
    rw [cookAll_append]
    exact h.ptyWriteIn buf hfit
  | slaveWrite buf =>
    obtain ⟨hi, hl⟩ := ptyWriteOut_keeps tio buf w.pty
    exact ⟨hl ▸ h.line_le, hi ▸ h.handed, hl ▸ h.line⟩
  | slaveRead n => exact h.slaveRead n
  | masterRead n => exact ⟨h.line_le, h.handed, h.line⟩

theorem SessionKept.run (h : SessionKept tio w) {ops : List Op}
    (hfit : RunFits tio w ops) : SessionKept tio (run tio w ops) := by
  induction ops generalizing w with
  | nil => exact h
  | cons op ops ih => exact ih (h.step hfit.1) hfit.2

section

variable (tio : Termios)

theorem slaveRead_n (hm : 0 < m) (p : Pty) : (slaveRead tio m p).1.input.n ≤ p.input.n - 1 := by
  unfold slaveRead
  split_ifs with heof
  · dsimp only
    omega
  · exact takeOut_n _ hm p.input

theorem drain_input (hm : 0 < m) (hk : w.pty.input.n ≤ k) :
    (run tio w (replicate k (.slaveRead m))).pty.input.n = 0 ∧
      (run tio w (replicate k (.slaveRead m))).accepted = w.accepted := by
  induction k generalizing w with
  | zero => exact ⟨Nat.le_zero.1 hk, rfl⟩
  | succ k ih =>
    have hread := slaveRead_n tio hm w.pty
    have hk' : (step tio w (.slaveRead m)).pty.input.n ≤ k := by
      rw [step]
      dsimp only
      omega
    exact ih hk'

theorem drain_output (hm : 0 < m) (hk : w.pty.out.n ≤ k) :
    (run tio w (replicate k (.masterRead m))).pty.out.n = 0 ∧
      (run tio w (replicate k (.masterRead m))).written = w.written := by
  induction k generalizing w with
  | zero => exact ⟨Nat.le_zero.1 hk, rfl⟩
  | succ k ih =>
    have hread := takeOut_n (fun _ => false) hm w.pty.out
    have hk' : (step tio w (.masterRead m)).pty.out.n ≤ k := by
      rw [step]
      dsimp only
      omega
    exact ih hk'

theorem contents_eq_nil {r : RingBuf α} (h : r.n = 0) : r.contents = [] :=
  length_eq_zero_iff.1 (r.length_contents.trans h)

theorem runFits_reads (m k : Nat) (w : Session) :
    RunFits tio w (replicate k (.slaveRead m)) := by
  induction k generalizing w with
  | zero => trivial
  | succ k ih => exact ⟨trivial, ih _⟩

theorem start_kept : SessionKept tio Session.start := ⟨by decide, rfl, rfl⟩

theorem start_shown : Shown tio Session.start := ⟨by decide, rfl⟩

end

/-! ## The result -/

/-- If every byte accepted from the master fits, what the discipline kept has been received, in
order, or is in the ring and the edit line, and reading on delivers what was handed over.  The
slave's output needs no condition. -/
theorem pty_lossless (tio : Termios) (ops : List Op) : (RunFits tio Session.start ops →
      cookAll tio ([], []) (run tio Session.start ops).accepted =
          ((run tio Session.start ops).received ++ (run tio Session.start ops).pty.input.contents,
            (run tio Session.start ops).pty.line) ∧
        ∀ m, 0 < m → ∀ k, (run tio Session.start ops).pty.input.n ≤ k →
          (run tio (run tio Session.start ops) (replicate k (.slaveRead m))).received =
            (cookAll tio ([], []) (run tio Session.start ops).accepted).1) ∧
      ofSlave ((run tio Session.start ops).shown ++ (run tio Session.start ops).pty.out.contents) =
        (run tio Session.start ops).written.flatMap (post tio) ∧
      ∀ m, 0 < m → ∀ k, (run tio Session.start ops).pty.out.n ≤ k →
        ofSlave (run tio (run tio Session.start ops) (replicate k (.masterRead m))).shown =
          (run tio Session.start ops).written.flatMap (post tio) := by
  have hshown := (start_shown tio).run ops
  refine ⟨fun hfit => ?_, hshown.out, fun m hm k hk => ?_⟩
  · have hkept := (start_kept tio).run hfit
    refine ⟨Prod.ext hkept.handed hkept.line, fun m hm k hk => ?_⟩
    obtain ⟨hempty, hacc⟩ := drain_input tio hm hk
    have hdrained := (SessionKept.run hkept (runFits_reads tio m k _)).handed
    rw [hacc, contents_eq_nil hempty, append_nil] at hdrained
    exact hdrained.symm
  obtain ⟨hempty, hwritten⟩ := drain_output tio hm hk
  have hdrained := (hshown.run (replicate k (.masterRead m))).out
  rw [hwritten, contents_eq_nil hempty, append_nil] at hdrained
  exact hdrained

def canonical : Termios :=
  ⟨false, false, false, false, true, false, false, false, false, 3, 0x1C, 0x7F, 0x15, 4⟩

theorem pty_lossless_line :
    (run canonical (run canonical Session.start [.masterWrite [104, 105, 10]])
      (replicate 3 (.slaveRead 8))).received = [104, 105, 10] := by
  have hfit : RunFits canonical Session.start [.masterWrite [104, 105, 10]] := by
    simp only [RunFits, OpFits, FeedFits, Fits]
    decide
  exact ((pty_lossless canonical [.masterWrite [104, 105, 10]]).1 hfit).2 8 (by decide) 3
    (by decide)

def letters (k : Nat) : List Byte := replicate k 97 ++ [nl]

theorem length_letters (k : Nat) : (letters k).length = k + 1 := by
  rw [letters, length_append, length_replicate, length_singleton]

theorem inputChar_letter (h : p.line.length < 255) :
    inputChar canonical p 97 = { p with line := p.line ++ [97] } := by
  simp [inputChar, mapInput, signals, canonical, echoIf, lineSize, nl, cr, h]

theorem inputChar_nl (h : p.line.length < 256) :
    inputChar canonical p nl = { p with input := p.input.putAll (p.line ++ [nl]), line := [] } := by
  simp [inputChar, mapInput, signals, canonical, echoIf, lineSize, flushLine, nl, cr, h]

theorem ptyWriteIn_letters (cs : List Byte) (hk : p.line.length + k ≤ 255)
    (hspace : 2 < p.input.space) :
    ptyWriteIn canonical (letters k ++ cs) p = ((ptyWriteIn canonical cs
          { p with input := p.input.putAll (p.line ++ letters k), line := [] }).1,
        letters k ++ (ptyWriteIn canonical cs
          { p with input := p.input.putAll (p.line ++ letters k), line := [] }).2) := by
  induction k generalizing p with
  | zero =>
    change ptyWriteIn canonical (nl :: cs) p = _
    rw [ptyWriteIn, if_pos hspace, inputChar_nl (by omega)]
    rfl
  | succ k ih =>
    have hcons : letters (k + 1) = 97 :: letters k := rfl
    have hnext : p.line ++ [97] ++ letters k = p.line ++ letters (k + 1) := by
      rw [hcons, append_assoc, singleton_append]
    have hrest := @ih { p with line := p.line ++ [97] } (by
      rw [length_append, length_singleton]
      omega) hspace
    rw [hnext] at hrest
    change ptyWriteIn canonical (97 :: (letters k ++ cs)) p = _
    rw [ptyWriteIn, if_pos hspace, inputChar_letter (by omega)]
    rw [hrest]
    rfl

theorem cookAll_letters (s : List Byte × List Byte) (hk : s.2.length + k ≤ 255) :
    cookAll canonical s (letters k) = (s.1 ++ s.2 ++ letters k, []) := by
  induction k generalizing s with
  | zero => simp [letters, cookAll, cook, mapInput, signals, canonical, nl, cr]
  | succ k ih =>
    have hcook : cook canonical s.2 97 = ([], s.2 ++ [97]) := by
      have hlen : s.2.length < 255 := by omega
      simp [cook, mapInput, signals, canonical, lineSize, nl, cr, hlen]
    change cookAll canonical s (97 :: letters k) = _
    rw [cookAll_cons, hcook, ih _ (by simp; omega)]
    simp [letters, replicate_succ]

theorem n_putAll (r : RingBuf α) (cs : List α) :
    (r.putAll cs).n = min (r.n + cs.length) ptyBuf := by
  induction cs generalizing r with
  | nil =>
    have := r.n_le
    simp [RingBuf.putAll, this]
  | cons c cs ih =>
    have hle := r.n_le
    change ((r.put c).putAll cs).n = _
    rw [ih, length_cons]
    rcases Nat.lt_or_ge r.n ptyBuf with hn | hn
    · rw [n_put hn]
      omega
    rw [put_full (by omega)]
    omega

theorem ptyWriteIn_lines (j : Nat) (cs : List Byte) (hline : p.line = [])
    (hn : p.input.n + 256 * j ≤ ptyBuf - 3) :
    ∃ q : Pty, q.line = [] ∧ q.input.n = p.input.n + 256 * j ∧
      ptyWriteIn canonical ((replicate j (letters 255)).flatten ++ cs) p =
        ((ptyWriteIn canonical cs q).1,
          (replicate j (letters 255)).flatten ++ (ptyWriteIn canonical cs q).2) := by
  induction j generalizing p with
  | zero => exact ⟨p, hline, rfl, rfl⟩
  | succ j ih =>
    have hlen : (p.line ++ letters 255).length = 256 := by
      rw [hline, nil_append, length_letters]
    have hput := n_putAll p.input (p.line ++ letters 255)
    obtain ⟨q, hq, hqn, hfeed⟩ :=
      @ih { p with input := p.input.putAll (p.line ++ letters 255), line := [] } rfl (by
        dsimp only
        omega)
    refine ⟨q, hq, ?_, ?_⟩
    · rw [hqn]
      dsimp only
      omega
    rw [replicate_succ, flatten_cons, append_assoc,
      ptyWriteIn_letters _ (by rw [hline]; decide) (by rw [RingBuf.space]; omega), hfeed,
      append_assoc]

theorem cookAll_lines (j : Nat) (s : List Byte) :
    cookAll canonical (s, []) (replicate j (letters 255)).flatten =
      (s ++ (replicate j (letters 255)).flatten, []) := by
  induction j generalizing s with
  | zero => simp [cookAll]
  | succ j ih =>
    rw [replicate_succ, flatten_cons, cookAll_append,
      cookAll_letters _ (by decide : ([] : List Byte).length + 255 ≤ 255), ih]
    simp

theorem run_masterWrite (tio : Termios) (buf : List Byte) :
    run tio Session.start [.masterWrite buf] =
      { Session.start with
        pty := (ptyWriteIn tio buf ptyAlloc).1, accepted := (ptyWriteIn tio buf ptyAlloc).2 } :=
  rfl

def overfull : List Byte := letters 0 ++ ((replicate 15 (letters 255)).flatten ++ letters 255)

/-- All 4097 bytes are accepted and the discipline keeps them all, but the ring holds 4096 and the
edit line is empty: the last newline is gone. -/
theorem pty_loses : (run canonical Session.start [.masterWrite overfull]).accepted = overfull ∧
      cookAll canonical ([], []) overfull = (overfull, []) ∧ overfull.length = 4097 ∧
      (run canonical Session.start [.masterWrite overfull]).received = [] ∧
      (run canonical Session.start [.masterWrite overfull]).pty.input.n = 4096 ∧
      (run canonical Session.start [.masterWrite overfull]).pty.line = [] := by
  obtain ⟨q, hq, hqn, hlines⟩ := ptyWriteIn_lines 15
    (p := { ptyAlloc with input := ptyAlloc.input.putAll (letters 0), line := [] })
    (letters 255) rfl (by decide)
  have hqn' : q.input.n = 3841 := hqn
  have hfeed : ptyWriteIn canonical overfull ptyAlloc =
      ({ q with input := q.input.putAll (letters 255), line := [] }, overfull) := by
    have hlast := ptyWriteIn_letters (k := 255) (p := q) [] (by rw [hq]; decide) (by
      rw [RingBuf.space, hqn']
      decide)
    rw [append_nil, hq, nil_append] at hlast
    rw [overfull, ptyWriteIn_letters _ (by decide) (by decide)]
    have hstart : ptyAlloc.line = [] := rfl
    rw [hstart, nil_append, hlines, hlast]
    simp [ptyWriteIn]
  have hlen : overfull.length = 4097 := by
    simp only [overfull, length_append, length_letters, length_flatten,
      map_replicate]
    rfl
  rw [run_masterWrite, hfeed]
  refine ⟨rfl, ?_, hlen, rfl, ?_, rfl⟩
  · rw [overfull, cookAll_append, cookAll_letters _ (by decide), cookAll_append, cookAll_lines,
      cookAll_letters _ (by decide)]
    rw [nil_append, nil_append, append_nil, append_assoc]
  rw [n_putAll, hqn', length_letters]
  decide

end SamaraOS.Terminal
