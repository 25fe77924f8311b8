import SamaraOS.Proc.FileData

/-!
# Files and 64-bit ranges

A write or a truncation acts on the range it is given as long as that range ends below
0xCCCCCCCD, the first capacity whose growth by a quarter leaves 32 bits.
-/

namespace SamaraOS.File

open List Option

structure Node.Fits (nd : Node) : Prop where
  size : nd.size + 1 < 2 ^ 32
  cap : nd.cap < 2 ^ 32
  room : nd.cap = 0 ∨ nd.size < nd.cap
  here : nd.here = false → nd.bytes = [] ∧ nd.cap = 0

theorem wrap32_of_lt {n : Nat} (h : n < 2 ^ 32) : wrap32 n = n :=
  Nat.mod_eq_of_lt h

theorem wrap32_lt (n : Nat) : wrap32 n < 2 ^ 32 :=
  Nat.mod_lt _ (by decide)

theorem intOf_of_lt {n : Nat} (h : n < 2 ^ 31) : intOf n = n := by
  have hm : n % 2 ^ 32 = n := Nat.mod_eq_of_lt (by omega)
  rw [intOf, BitVec.toInt_eq_toNat_cond, BitVec.toNat_ofNat, hm, if_pos (by omega)]

theorem intOf_lt (n : Nat) : intOf n < 2 ^ 31 := by
  have := BitVec.toInt_lt (x := BitVec.ofNat 32 n)
  simpa [intOf] using this

/-! ## Growth of the buffer -/

theorem growStep_lt {c : Nat} : growStep c < 2 ^ 32 := by
  unfold growStep
  split
  · omega
  · exact wrap32_lt _

theorem lt_growStep {c : Nat} (h0 : 0 < c) (h : c ≤ 0xCCCCCCCC) : c < growStep c := by
  unfold growStep
  split
  · omega
  rw [wrap32_of_lt (by omega)]
  omega

theorem growCap_spec {k c m c' : Nat} (hc : c < 2 ^ 32) (h : growCap k c m = some c') :
    m ≤ c' ∧ c' < 2 ^ 32 := by
  induction k generalizing c with
  | zero => cases h
  | succ k ih =>
    rw [growCap] at h
    split at h
    · exact ih growStep_lt h
    cases h
    exact ⟨by omega, hc⟩

theorem growCap_ends {k c m : Nat} (h0 : 0 < c) (hm : m ≤ 0xCCCCCCCD) (hk : m ≤ c + k) :
    growCap (k + 1) c m ≠ none := by
  induction k generalizing c with
  | zero =>
    rw [growCap, if_neg (by omega)]
    simp
  | succ k ih =>
    rw [growCap]
    split
    next hlt =>
      have hgrow := lt_growStep h0 (by omega)
      exact ih (by omega) (by omega)
    · simp

theorem growCap_hangs {m : Nat} (hm : 0xCCCCCCCD < m) (k : Nat) :
    growCap k 0xCCCCCCCD m = none := by
  have hzero : ∀ k, growCap k 0 m = none := by
    intro k
    induction k with
    | zero => rfl
    | succ k ih =>
      rw [growCap, if_pos (by omega), show growStep 0 = 0 from rfl]
      exact ih
  cases k with
  | zero => rfl
  | succ k =>
    rw [growCap, if_pos hm, show growStep 0xCCCCCCCD = 0 from rfl]
    exact hzero k

section

variable (env : Env) {nd : Node}

def Refuses (nd : Node) : Prop :=
  nd.isFile = false ∨ env.ro = true ∨ (∃ n, env.full n = true) ∨ ∃ c, env.room c = false

theorem nodeReserve_cases (h : nd.Fits) (need : Nat) : nodeReserve env nd need = .hang ∨
      (nodeReserve env nd need = .ret (-12) nd ∧ Refuses env nd) ∨
      ∃ c b, (need + 1 < 2 ^ 32 → need < c) ∧ c < 2 ^ 32 ∧ (b = false → nd.bytes = [] ∧ c = 0) ∧
        nodeReserve env nd need = .ret 0 { nd with cap := c, here := b } := by
  have hc : max (if nd.cap = 0 then 64 else nd.cap) (wrap32 (nd.size + 1)) < 2 ^ 32 := by
    have := h.cap
    have := wrap32_lt (nd.size + 1)
    split <;> omega
  have hneed : ∀ {c}, wrap32 (need + 1) ≤ c → need + 1 < 2 ^ 32 → need < c := by
    intro c hle hlt
    rw [wrap32_of_lt hlt] at hle
    omega
  unfold nodeReserve
  simp only
  split
  next hle => exact .inr (.inr ⟨nd.cap, nd.here, hneed hle, h.cap, h.here, rfl⟩)
  split
  · exact .inl rfl
  next c hgrow =>
  obtain ⟨h1, h2⟩ := growCap_spec hc hgrow
  split
  · exact .inr (.inr ⟨c, true, hneed h1, h2, by simp, rfl⟩)
  next hroom => exact .inr (.inl ⟨rfl, .inr (.inr (.inr ⟨c, by simpa using hroom⟩))⟩)

theorem nodeReserve_ends (h : nd.Fits) {need : Nat} (hneed : need ≤ 0xCCCCCCCC ∨ need = nd.size) :
    nodeReserve env nd need ≠ .hang := by
  have hsize := h.size
  have hlt : need + 1 < 2 ^ 32 := by omega
  unfold nodeReserve
  simp only
  rw [wrap32_of_lt hlt, wrap32_of_lt hsize]
  split
  · simp
  next hcap =>
  have hgrow : growCap (2 ^ 32) (max (if nd.cap = 0 then 64 else nd.cap) (nd.size + 1))
      (need + 1) ≠ none := by
    rw [show 2 ^ 32 = 4294967295 + 1 from rfl]
    rcases hneed with hsmall | rfl
    · exact growCap_ends (by omega) (by omega) (by omega)
    rw [growCap, if_neg (by omega)]
    simp
  split
  next hnone => exact absurd hnone hgrow
  · split <;> simp

theorem nodeReserve_hangs {need : Nat} (hcap : nd.cap = 0xCCCCCCCD) (hsize : nd.bytes = [])
    (h1 : 0xCCCCCCCC < need) (h2 : need + 1 < 2 ^ 32) : nodeReserve env nd need = .hang := by
  unfold nodeReserve
  simp only
  rw [wrap32_of_lt h2, if_neg (by omega), hcap, if_neg (by decide), Node.size, hsize,
    show max 0xCCCCCCCD (wrap32 (length ([] : List Byte) + 1)) = 0xCCCCCCCD from rfl,
    growCap_hangs (by omega)]

theorem mntGrow_some {n : Nat} {e : Int} (h : mntGrow env nd n = some e) :
    e < 0 ∧ Refuses env nd := by
  unfold mntGrow at h
  split at h
  next hro =>
    cases h
    exact ⟨by decide, .inr (.inl hro)⟩
  split at h
  next hover =>
    cases h
    exact ⟨by decide, .inr (.inr (.inl ⟨n, hover.2⟩))⟩
  · cases h

def Wrote (old : List Byte) (off : Nat) (buf new : List Byte) : Prop :=
  new.length = max old.length (off + buf.length) ∧
    ∀ i, new[i]? = if off ≤ i ∧ i < off + buf.length then buf[i - off]?
      else if i < old.length then old[i]? else if i < off then some 0 else none

theorem wrote_splice (old : List Byte) (off : Nat) (buf : List Byte) :
    Wrote old off buf (splice 0 old off buf) :=
  ⟨length_splice 0 old off buf, getElem?_splice 0 old off buf⟩

variable {off : Nat} {buf : List Byte}

theorem putBytes_cases (nd : Node) (buf : List Byte) (hoff : off < 2 ^ 32)
    (hcap : nd.cap < 2 ^ 32) : putBytes nd off buf = .fault ∨
      (splice 0 nd.bytes off buf).length < nd.cap ∧ putBytes nd off buf
        = .ret (intOf buf.length) { nd with bytes := splice 0 nd.bytes off buf } := by
  unfold putBytes
  simp only
  split
  · exact .inl rfl
  next hok =>
  simp only [not_or, not_and] at hok
  have hfin : wrap32 (off + buf.length) = off + buf.length := by
    apply wrap32_of_lt
    by_cases hne : buf = []
    · simpa [hne] using hoff
    have := hok.2.1 hne
    omega
  have hlen : (splice 0 nd.bytes off buf).length = max nd.size (off + buf.length) :=
    length_splice 0 nd.bytes off buf
  refine .inr ⟨by omega, ?_⟩
  rw [hfin, ← hlen, take_length]

theorem putBytes_eq (hfin : off + buf.length < nd.cap)
    (hsize : nd.size < nd.cap) (hcap : nd.cap < 2 ^ 32) : putBytes nd off buf
      = .ret (intOf buf.length) { nd with bytes := splice 0 nd.bytes off buf } := by
  rcases putBytes_cases nd buf (by omega : off < 2 ^ 32) hcap with hf | hr
  · unfold putBytes at hf
    rw [wrap32_of_lt (by omega), if_neg (by omega)] at hf
    cases hf
  · exact hr.2

theorem nodeWriteAt_cases (h : nd.Fits) (buf : List Byte) (hoff : off < 2 ^ 32) :
    nodeWriteAt env nd off buf = .hang ∨ nodeWriteAt env nd off buf = .fault ∨
      ∃ r nd', nodeWriteAt env nd off buf = .ret r nd' ∧
        ((r < 0 ∧ nd'.bytes = nd.bytes ∧ Refuses env nd) ∨
          (r = intOf buf.length ∧ nd'.bytes = splice 0 nd.bytes off buf ∧
            nd'.bytes.length + 1 < 2 ^ 32)) := by
  unfold nodeWriteAt
  simp only
  split
  next hfile => exact .inr (.inr ⟨_, _, rfl, .inl ⟨by decide, rfl, .inl (by simpa using hfile)⟩⟩)
  split
  next e he =>
    obtain ⟨hneg, href⟩ := mntGrow_some env he
    exact .inr (.inr ⟨_, _, rfl, .inl ⟨hneg, rfl, href⟩⟩)
  rcases nodeReserve_cases env h (wrap32 (max (wrap32 (off + buf.length)) nd.size))
    with hr | ⟨hr, hroom⟩ | ⟨c, b, -, h2, -, hr⟩
  · rw [hr]
    exact .inl rfl
  · rw [hr]
    exact .inr (.inr ⟨_, _, rfl, .inl ⟨by decide, rfl, hroom⟩⟩)
  rw [hr]
  rcases putBytes_cases { nd with cap := c, here := b } buf hoff h2 with hp | ⟨hle, hp⟩
  · exact .inr (.inl hp)
  refine .inr (.inr ⟨_, _, hp, .inr ⟨rfl, rfl, ?_⟩⟩)
  simp only at hle ⊢
  omega

theorem nodeWriteAt_ret (h : nd.Fits) (hfin : off + buf.length ≤ 0xCCCCCCCC) :
    ∃ r nd', nodeWriteAt env nd off buf = .ret r nd' ∧ ((r < 0 ∧ nd'.bytes = nd.bytes) ∨
        (r = intOf buf.length ∧ nd'.bytes = splice 0 nd.bytes off buf)) := by
  have hsize := h.size
  have hret : nodeWriteAt env nd off buf ≠ .hang ∧ nodeWriteAt env nd off buf ≠ .fault := by
    unfold nodeWriteAt
    simp only
    rw [wrap32_of_lt (by omega), wrap32_of_lt (by omega)]
    split
    · simp
    split
    · simp
    have hends := nodeReserve_ends env h (by omega :
      max (off + buf.length) nd.size ≤ 0xCCCCCCCC ∨ max (off + buf.length) nd.size = nd.size)
    rcases nodeReserve_cases env h (max (off + buf.length) nd.size)
      with hr | ⟨hr, -⟩ | ⟨c, b, h1, h2, -, hr⟩
    · exact absurd hr hends
    · simp [hr]
    have h1 := h1 (by omega)
    rw [hr]
    simp only [Int.lt_irrefl, if_false]
    rw [putBytes_eq (by simp only; omega) (by simp only [Node.size] at h1 ⊢; omega) h2]
    simp
  rcases nodeWriteAt_cases env h buf (by omega : off < 2 ^ 32)
    with hr | hr | ⟨r, nd', hr, hrefused | hwrote⟩
  · exact absurd hr hret.1
  · exact absurd hr hret.2
  · exact ⟨r, nd', hr, .inl ⟨hrefused.1, hrefused.2.1⟩⟩
  · exact ⟨r, nd', hr, .inr ⟨hwrote.1, hwrote.2.1⟩⟩

theorem nodeWriteAt_hangs (hfile : nd.isFile = true) (hgrow : ∀ n, mntGrow env nd n = none)
    (hcap : nd.cap = 0xCCCCCCCD) (hsize : nd.bytes = []) (h1 : 0xCCCCCCCC < off + buf.length)
    (h2 : off + buf.length + 1 < 2 ^ 32) : nodeWriteAt env nd off buf = .hang := by
  have hmax : max (off + buf.length) nd.size = off + buf.length := by
    simp [Node.size, hsize]
  have hfin : wrap32 (off + buf.length) = off + buf.length := wrap32_of_lt (by omega)
  unfold nodeWriteAt
  simp only [hfile, hgrow]
  rw [hfin, hmax, hfin, nodeReserve_hangs env hcap hsize h1 h2]
  rfl

/-! ## Truncation -/

def Node.cut (nd : Node) (len : Nat) : List Byte :=
  nd.bytes.take len ++ replicate (len - nd.size) 0

theorem setSize_cases (nd : Node) (len : Nat) : setSize nd len = .fault ∨
      (nd.size < len → len ≤ nd.cap) ∧ (nd.here = true → len < nd.cap) ∧
        setSize nd len = .ret 0 { nd with bytes := nd.cut len } := by
  unfold setSize
  split
  · exact .inl rfl
  next hok =>
  simp only [not_or, not_and] at hok
  exact .inr ⟨fun h => Nat.le_of_not_lt (hok.1 h), fun h => Nat.lt_of_not_le (hok.2 h), rfl⟩

def Cut (nd : Node) (len : Nat) (r : Int) (nd' : Node) : Prop :=
  (r < 0 ∧ nd'.bytes = nd.bytes ∧ Refuses env nd) ∨
    (r = 0 ∧ nd'.bytes = nd.cut len ∧ len + 1 < 2 ^ 32)

section

variable (h : nd.Fits) (len : Nat)

include h

theorem resize_cases : resize env nd len = .hang ∨ resize env nd len = .fault ∨
      ∃ r nd', resize env nd len = .ret r nd' ∧ Cut env nd len r nd' := by
  have hsize := h.size
  have hput : ∀ c b, c < 2 ^ 32 → (b = false → nd.bytes = [] ∧ c = 0) →
      setSize { nd with cap := c, here := b } len = .fault ∨ ∃ r nd',
        setSize { nd with cap := c, here := b } len = .ret r nd' ∧ Cut env nd len r nd' := by
    intro c b hc hb
    rcases setSize_cases { nd with cap := c, here := b } len with hf | ⟨h1, h2, hr⟩
    · exact .inl hf
    refine .inr ⟨_, _, hr, .inr ⟨rfl, rfl, ?_⟩⟩
    simp only [Node.size] at h1 h2 hsize
    cases b with
    | true =>
      have := h2 rfl
      omega
    | false =>
      obtain ⟨hnil, rfl⟩ := hb rfl
      omega
  unfold resize
  split
  · rcases nodeReserve_cases env h len with hr | ⟨hr, hroom⟩ | ⟨c, b, -, h2, hb, hr⟩
    · rw [hr]
      exact .inl rfl
    · rw [hr]
      exact .inr (.inr ⟨_, _, rfl, .inl ⟨by decide, rfl, hroom⟩⟩)
    rw [hr]
    exact .inr (hput c b h2 hb)
  · exact .inr (hput nd.cap nd.here h.cap h.here)

theorem resize_ret (hown : nd.here = true → nd.cap ≠ 0) {len : Nat} (hlen : len ≤ 0xCCCCCCCC) :
    resize env nd len ≠ .hang ∧ resize env nd len ≠ .fault := by
  unfold resize
  split
  next hlt =>
    have hends := nodeReserve_ends env h (Or.inl hlen)
    rcases nodeReserve_cases env h len with hr | ⟨hr, -⟩ | ⟨c, b, h1, -, -, hr⟩
    · exact absurd hr hends
    · simp [hr]
    rw [hr]
    simp only [Int.lt_irrefl, if_false, setSize]
    rw [if_neg (by omega)]
    simp
  next hle =>
  have hroom := h.room
  have hcap : ¬(nd.here = true ∧ nd.cap ≤ len) := by
    rintro ⟨hhere, hc⟩
    have := hown hhere
    omega
  unfold setSize
  rw [if_neg (not_or.2 ⟨by omega, hcap⟩)]
  simp

theorem Node.Fits.reserved {c : Nat} {b : Bool} (hc : nd.size < c) (hlt : c < 2 ^ 32)
    (hb : b = false → nd.bytes = [] ∧ c = 0) : Node.Fits { nd with cap := c, here := b } :=
  ⟨h.size, hlt, .inr hc, hb⟩

theorem nodeTruncate_cases : nodeTruncate env nd len = .hang ∨ nodeTruncate env nd len = .fault ∨
      ∃ r nd', nodeTruncate env nd len = .ret r nd' ∧ Cut env nd len r nd' := by
  have hsize := h.size
  unfold nodeTruncate
  split
  next hfile => exact .inr (.inr ⟨_, _, rfl, .inl ⟨by decide, rfl, .inl (by simpa using hfile)⟩⟩)
  split
  next e he =>
    obtain ⟨hneg, href⟩ := mntGrow_some env he
    exact .inr (.inr ⟨_, _, rfl, .inl ⟨hneg, rfl, href⟩⟩)
  split
  swap
  · exact resize_cases env h len
  rw [wrap32_of_lt (by omega)]
  rcases nodeReserve_cases env h nd.size with hr | ⟨hr, hroom⟩ | ⟨c, b, h1, h2, hb, hr⟩
  · rw [hr]
    exact .inl rfl
  · rw [hr]
    exact .inr (.inr ⟨_, _, rfl, .inl ⟨by decide, rfl, hroom⟩⟩)
  rw [hr]
  exact resize_cases env (h.reserved (h1 hsize) h2 hb) len

theorem nodeTruncate_ret {len : Nat} (hlen : len ≤ 0xCCCCCCCC) :
    nodeTruncate env nd len ≠ .hang ∧ nodeTruncate env nd len ≠ .fault := by
  have hsize := h.size
  unfold nodeTruncate
  split
  · simp
  split
  · simp
  split
  swap
  next hown => exact resize_ret env h (fun hhere hc => hown ⟨hhere, hc⟩) hlen
  rw [wrap32_of_lt (by omega)]
  have hends := nodeReserve_ends env h (Or.inr rfl : nd.size ≤ 0xCCCCCCCC ∨ _)
  rcases nodeReserve_cases env h nd.size with hr | ⟨hr, -⟩ | ⟨c, b, h1, h2, hb, hr⟩
  · exact absurd hr hends
  · simp [hr]
  have hc := h1 hsize
  rw [hr]
  exact resize_ret env (h.reserved hc h2 hb) (fun _ => Nat.ne_of_gt (Nat.zero_lt_of_lt hc)) hlen

end

end

/-! ### Without the big lock -/

def Node.copyIn (nd : Node) (off : Nat) (buf : List Byte) : Node :=
  if buf = [] then nd else { nd with bytes := splice 0 nd.bytes off buf }

theorem writeLoop_eq {fuel off done : Nat} (nd : Node) {rest : List Byte} (hhere : nd.here = true)
    (hpc : nd.pc = false) (hlazy : nd.lazy = false) (hcap : off + done + rest.length < nd.cap)
    (hfuel : rest.length ≤ fuel) :
    writeLoop off fuel nd rest done = (nd.copyIn (off + done) rest, done + rest.length, false) := by
  induction fuel generalizing nd rest done with
  | zero =>
    obtain rfl : rest = [] := eq_nil_of_length_eq_zero (Nat.le_zero.1 hfuel)
    rfl
  | succ fuel ih =>
    rw [writeLoop]
    by_cases hne : rest = []
    · subst hne
      rfl
    have hlen : (rest.take 2048).length + (rest.drop 2048).length = rest.length := by
      rw [← length_append, take_append_drop]
    have hpos : 0 < (rest.take 2048).length := by
      have := length_pos_of_ne_nil hne
      rw [length_take]
      omega
    rw [if_neg hne, if_neg (by simp [hhere, hpc, hlazy])]
    rw [if_neg (by omega)]
    rw [ih { nd with bytes := splice 0 nd.bytes (off + done) (rest.take 2048) } hhere hpc hlazy
      (by simp only; omega) (by omega)]
    refine Prod.ext ?_ (Prod.ext ?_ rfl)
    · -- the pieces join
      unfold Node.copyIn
      split
      next hrest =>
        have htake : rest.take 2048 = rest := by
          have := take_append_drop 2048 rest
          rwa [hrest, append_nil] at this
        rw [htake]
      · simp only [← Nat.add_assoc, splice_splice, take_append_drop]
    simp only
    omega

section

variable (env : Env) {f : OpenFile} {buf : List Byte} {pos : Option Nat}

def OpenFile.writeOff (f : OpenFile) (pos : Option Nat) : Nat :=
  pos.getD (if f.append then f.node.size else f.off)

structure WritesFast (env : Env) (f : OpenFile) (n : Nat) (pos : Option Nat) : Prop where
  alone : leavesAlone env f true = false
  rootAppend : pos = none → f.append = true → env.mounted = false
  rootGrow : ¬(f.node.size < f.writeOff pos + n ∧ env.mounted = true)
  cap : f.writeOff pos + n < f.node.cap
  bound : f.writeOff pos + n ≤ 0xFFFFF000

theorem WritesFast.span {n : Nat} (h : WritesFast env f n pos) :
    span env f true n (f.writeOff pos) = some n := by
  have h1 := h.cap
  have h2 := h.bound
  unfold File.span
  rw [if_pos rfl, if_neg]
  rintro (hm | hc | hb)
  · exact h.rootGrow hm
  · omega
  · omega

theorem nbRw_write_slow (h : ¬WritesFast env f buf.length pos) (fuel : Nat) :
    nbRw env (fuel + 1) f (.write buf pos) = .slow f := by
  unfold nbRw
  simp only [Req.pos]
  split
  · rfl
  next halone =>
  have halone : leavesAlone env f true = false := by simpa using halone
  have hspan : (pos = none → f.append = true → env.mounted = false) →
      span env f true buf.length (f.writeOff pos) = none := by
    intro hroot
    unfold span
    rw [if_pos rfl, if_pos]
    by_contra hnone
    simp only [not_or] at hnone
    exact h ⟨halone, hroot, hnone.1, by omega, by omega⟩
  cases pos with
  | some off =>
    have := hspan (by simp)
    simp only [OpenFile.writeOff, getD_some] at this
    simp [this]
  | none =>
    simp only [claim, Bool.true_and]
    by_cases hmount : (f.append && env.mounted) = true
    · simp [hmount]
    have := hspan (by simpa using hmount)
    simp only [OpenFile.writeOff, getD_none] at this
    simp [hmount, this]

theorem leavesAlone_write (h : leavesAlone env f true = false) :
    f.node.isFile = true ∧ f.node.pc = false ∧ f.node.lazy = false ∧ f.node.cap ≠ 0 := by
  simp only [leavesAlone, Bool.true_and, Bool.or_eq_false_iff, Bool.not_eq_false'] at h
  simp only [beq_eq_false_iff_ne] at h
  tauto

theorem nbRw_write_fast (h : WritesFast env f buf.length pos) (hfit : f.node.Fits)
    (happend : pos = none → f.append = true → f.off = f.node.size) (fuel : Nat) :
    nbRw env (fuel + 1) f (.write buf pos) = .ret buf.length ⟨{ f with
          node := f.node.copyIn (f.writeOff pos) buf
          off := if pos.isSome then f.off else f.writeOff pos + buf.length }, []⟩ := by
  obtain ⟨-, hpc, hlazy, hcap⟩ := leavesAlone_write env h.alone
  have hhere : f.node.here = true := by
    by_contra hnot
    exact hcap (hfit.here (by simpa using hnot)).2
  have hspan := h.span
  have hlt := h.cap
  have hbound := h.bound
  have hcopy : nbCopy f (.write buf pos) (f.writeOff pos) buf.length = .ret buf.length ⟨{ f with
          node := f.node.copyIn (f.writeOff pos) buf
          off := if pos.isSome then f.off else f.writeOff pos + buf.length }, []⟩ := by
    unfold nbCopy
    simp only [take_length, Req.pos]
    rw [writeLoop_eq f.node hhere hpc hlazy (by omega) (by omega)]
    simp
  unfold nbRw
  simp only [h.alone, Req.pos]
  cases pos with
  | some off =>
    simp only [OpenFile.writeOff, getD_some] at hspan hcopy ⊢
    simp only [hspan]
    simpa using hcopy
  | none =>
    have hoff : f.off = f.writeOff none := by
      simp only [OpenFile.writeOff, getD_none]
      split
      next ha => exact happend rfl ha
      · rfl
    have hclaim : claim env f true buf.length (fuel + 1)
        = some (some (f.writeOff none, buf.length)) := by
      have hroot : ¬(f.append = true ∧ env.mounted = true) := by
        rintro ⟨ha, hm⟩
        simp [h.rootAppend rfl ha] at hm
      simp only [OpenFile.writeOff, getD_none] at hspan hoff hbound ⊢
      rw [← hoff] at hspan hbound ⊢
      simp only [claim, Bool.true_and, ← hoff, hspan]
      simp only [Bool.and_eq_true, hroot, if_false, if_true]
      rw [if_neg (by omega)]
    simp only [hclaim]
    simpa using hcopy

def WriteLaw (f : OpenFile) (off : Nat) (buf : List Byte) : Outcome Done → Prop
  | .ret r d =>
    (r = buf.length ∧ Wrote f.node.bytes off buf d.file.node.bytes) ∨
      (r < 0 ∧ d.file.node.bytes = f.node.bytes)
  | .fault => False
  | .hang => False

def TruncLaw (nd : Node) (len : Nat) : Outcome Node → Prop
  | .ret r nd' =>
    (r = 0 ∧ nd'.size = len ∧
      nd'.bytes.take (min nd.size len) = nd.bytes.take (min nd.size len)) ∨
      (r < 0 ∧ nd'.bytes = nd.bytes)
  | .fault => False
  | .hang => False

def OpenFile.slowOff (f : OpenFile) (pos : Option Nat) : Nat :=
  if f.append then f.node.size else pos.getD f.off

theorem slowRw_write_eq (buf : List Byte) (pos : Option Nat) : slowRw env f (.write buf pos) =
      match nodeWriteAt env f.node (wrap32 (f.slowOff pos)) (buf.take (wrap32 buf.length)) with
      | .ret r nd => .ret r ⟨{ f with
            node := nd
            off := if pos.isSome then f.off
              else if 0 < r then f.slowOff pos + r.toNat else f.slowOff pos }, []⟩
      | .fault => .fault
      | .hang => .hang := by
  unfold slowRw fileWrite OpenFile.slowOff
  simp only [Req.pos]
  cases nodeWriteAt env f.node (wrap32 (if f.append = true then f.node.size else pos.getD f.off))
      (buf.take (wrap32 buf.length)) with
  | ret r nd => cases pos <;> simp
  | fault | hang => cases pos <;> rfl

theorem slowRw_write (env : Env) (f : OpenFile) (buf : List Byte) {pos : Option Nat}
    (happend : f.append = true → pos = none ∧ f.off = f.node.size) :
    slowRw env f (.write buf pos) =
      match nodeWriteAt env f.node (wrap32 (pos.getD f.off)) (buf.take (wrap32 buf.length)) with
      | .ret r nd => .ret r ⟨{ f with
            node := nd
            off := if pos.isSome then f.off
              else if 0 < r then f.off + r.toNat else f.off }, []⟩
      | .fault => .fault
      | .hang => .hang := by
  have hoff : f.slowOff pos = pos.getD f.off := by
    unfold OpenFile.slowOff
    split
    next ha =>
      obtain ⟨rfl, hsize⟩ := happend ha
      exact hsize.symm
    · rfl
  rw [slowRw_write_eq, hoff]
  cases pos <;> rfl

end

def calm : Env :=
  { ro := false, full := fun _ => false, mounted := false, room := fun _ => true
    syncing := false, watched := false }

theorem not_refuses_calm {nd : Node} (h : nd.isFile = true) : ¬Refuses calm nd := by
  simp [Refuses, calm, h]

theorem mntGrow_calm (nd : Node) (n : Nat) : mntGrow calm nd n = none := by
  simp [mntGrow, calm]

variable {buf : List Byte} {off : Nat}

theorem sysRw_write_law (env : Env) {f : OpenFile} {pos : Option Nat} (fuel : Nat)
    (hfit : f.node.Fits)
    (happend : f.append = true → pos = none ∧ f.off = f.node.size) (hn : buf.length < 2 ^ 31)
    (hend : pos.getD f.off + buf.length ≤ 0xCCCCCCCC)
    (hzero : buf.length = 0 → pos.getD f.off = 0) :
    WriteLaw f (pos.getD f.off) buf (sysRw env (fuel + 1) f (.write buf pos)) := by
  have hoff : f.writeOff pos = pos.getD f.off := by
    cases pos with
    | some off => rfl
    | none =>
      simp only [OpenFile.writeOff, getD_none]
      split
      next ha => exact (happend ha).2.symm
      · rfl
  have hslow : WriteLaw f (pos.getD f.off) buf (slowRw env f (.write buf pos)) := by
    rw [slowRw_write env f buf happend, wrap32_of_lt (by omega : buf.length < 2 ^ 32),
      take_length, wrap32_of_lt (by omega)]
    obtain ⟨r, nd', hr, ⟨hneg, hsame⟩ | ⟨hret, hsplice⟩⟩ := nodeWriteAt_ret env hfit hend
    · rw [hr]
      exact .inr ⟨hneg, hsame⟩
    rw [hr]
    refine .inl ⟨hret.trans (intOf_of_lt hn), ?_⟩
    simp only [hsplice]
    exact wrote_splice _ _ _
  unfold sysRw
  split
  · exact hslow
  by_cases hfast : WritesFast env f buf.length pos
  · rw [nbRw_write_fast env hfast hfit (fun _ ha => (happend ha).2), hoff]
    refine .inl ⟨rfl, ?_⟩
    simp only [Node.copyIn]
    split
    next hnil =>
      subst hnil
      rw [hzero rfl]
      have := wrote_splice f.node.bytes 0 []
      rwa [splice_nil 0 (Nat.zero_le _)] at this
    · exact wrote_splice _ _ _
  rw [nbRw_write_slow env hfast]
  exact hslow

theorem cut_keeps (nd : Node) (len : Nat) : (nd.cut len).length = len ∧
      (nd.cut len).take (min nd.size len) = nd.bytes.take (min nd.size len) := by
  have hlen : (nd.bytes.take len).length = min nd.size len := by
    rw [length_take, Node.size, Nat.min_comm]
  constructor
  · simp only [Node.cut, length_append, length_replicate, hlen]
    omega
  rw [Node.cut, take_append_of_le_length (Nat.le_of_eq hlen.symm), take_take]
  congr 1
  omega

theorem sysTruncate_law (env : Env) {nd : Node} (hfit : nd.Fits) {len : Nat}
    (hlen : len ≤ 0xCCCCCCCC) : TruncLaw nd len (sysTruncate env nd len) := by
  obtain ⟨hhang, hfault⟩ := nodeTruncate_ret env hfit hlen
  unfold sysTruncate
  rw [wrap32_of_lt (by omega)]
  rcases nodeTruncate_cases env hfit len with hr | hr | ⟨r, nd', hr, hrefused | ⟨h0, hcut, -⟩⟩
  · exact absurd hr hhang
  · exact absurd hr hfault
  · rw [hr]
    exact .inr ⟨hrefused.1, hrefused.2.1⟩
  rw [hr]
  refine .inl ⟨h0, ?_⟩
  rw [Node.size, hcut]
  exact cut_keeps nd len

/-! ### Ranges that do not -/

def fresh : OpenFile := { node := { bytes := [], cap := 0, here := false }, off := 0 }

def emptied (cap : Nat) : OpenFile := { node := { bytes := [], cap := cap }, off := 0 }

theorem fits_fresh : fresh.node.Fits :=
  ⟨by decide, by decide, .inl rfl, fun _ => ⟨rfl, rfl⟩⟩

theorem fits_emptied {cap : Nat} (h : cap < 2 ^ 32) : (emptied cap).node.Fits :=
  ⟨by simp [emptied, Node.size], h, Nat.eq_zero_or_pos cap, by simp [emptied]⟩

theorem sysRw_slow {f : OpenFile} (h : f.node.cap ≤ off + buf.length) :
    sysRw calm 1 f (.write buf (some off)) = slowRw calm f (.write buf (some off)) := by
  unfold sysRw
  split
  · rfl
  rw [nbRw_write_slow calm]
  intro hfast
  have := hfast.cap
  simp only [OpenFile.writeOff, getD_some] at this
  omega

theorem not_law_fresh (h : 2 ^ 31 ≤ buf.length ∨ 2 ^ 32 ≤ off + buf.length + 1) :
    ¬WriteLaw fresh off buf (sysRw calm 1 fresh (.write buf (some off))) := by
  rw [sysRw_slow (Nat.zero_le _), slowRw_write calm fresh buf (by simp [fresh])]
  rcases nodeWriteAt_cases calm fits_fresh (buf.take (wrap32 buf.length)) (wrap32_lt off)
    with hr | hr | ⟨r, nd', hr, hrefused | ⟨hret, hsplice, hlt⟩⟩
  · rw [getD_some, hr]
    exact id
  · rw [getD_some, hr]
    exact id
  · exact absurd hrefused.2.2 (not_refuses_calm rfl)
  rw [getD_some, hr]
  rintro (⟨hall, hlen, -⟩ | ⟨hneg, hsame⟩)
  · -- all of it was written
    have hint := intOf_lt (buf.take (wrap32 buf.length)).length
    have hlen : nd'.bytes.length = max 0 (off + buf.length) := hlen
    omega
  -- a count that looks negative
  have hnil : splice 0 [] (wrap32 off) (buf.take (wrap32 buf.length)) = [] :=
    hsplice.symm.trans hsame
  have hzero : (buf.take (wrap32 buf.length)).length = 0 := by
    have := congrArg length hnil
    rw [length_splice] at this
    simp only [length_nil] at this
    omega
  rw [hret, hzero] at hneg
  exact absurd hneg (by decide)

theorem not_law_full (hn : buf.length < 2 ^ 31)
    (h1 : 0xCCCCCCCC < off + buf.length) (h2 : off + buf.length + 1 < 2 ^ 32) :
    ¬WriteLaw (emptied 0xCCCCCCCD) off buf
      (sysRw calm 1 (emptied 0xCCCCCCCD) (.write buf (some off))) := by
  rw [sysRw_slow (by simp only [emptied]; omega),
    slowRw_write calm _ buf (by simp [emptied]), wrap32_of_lt (by omega : buf.length < 2 ^ 32),
    take_length, getD_some, wrap32_of_lt (by omega),
    nodeWriteAt_hangs calm rfl (mntGrow_calm _) rfl rfl h1 h2]
  exact id

theorem not_law_nothing (h0 : 0 < off) (h : off ≤ 0xCCCCCCCC) : ¬WriteLaw (emptied (off + 1)) off []
      (sysRw calm 1 (emptied (off + 1)) (.write [] (some off))) := by
  have hfast : WritesFast calm (emptied (off + 1)) ([] : List Byte).length (some off) := by
    refine ⟨rfl, by simp, by simp [calm], ?_, ?_⟩
    · exact Nat.lt_succ_self off
    simp only [OpenFile.writeOff, getD_some, length_nil]
    omega
  unfold sysRw
  rw [if_neg (by simp only [Req.pos, any_some, decide_eq_true_eq]; omega),
    nbRw_write_fast calm hfast (fits_emptied (by omega)) (by simp)]
  rintro (⟨-, hlen, -⟩ | ⟨hneg, -⟩)
  · have hlen : 0 = max 0 (off + 0) := hlen
    omega
  · exact absurd hneg (by decide)

theorem not_truncLaw {len : Nat} (h : 0xCCCCCCCC < len) :
    ∃ nd : Node, nd.Fits ∧ ¬TruncLaw nd len (sysTruncate calm nd len) := by
  by_cases hlt : len + 1 < 2 ^ 32
  · refine ⟨(emptied 0xCCCCCCCD).node, fits_emptied (by decide), ?_⟩
    have hreserve : nodeReserve calm (emptied 0xCCCCCCCD).node len = .hang :=
      nodeReserve_hangs calm rfl rfl h hlt
    unfold sysTruncate nodeTruncate
    rw [wrap32_of_lt (by omega), mntGrow_calm, if_neg (by decide)]
    have hgrow : (emptied 0xCCCCCCCD).node.size < len := Nat.zero_lt_of_lt h
    rw [if_neg (by decide), resize, if_pos hgrow, hreserve]
    exact id
  refine ⟨fresh.node, fits_fresh, ?_⟩
  unfold sysTruncate
  rcases nodeTruncate_cases calm fits_fresh (wrap32 len)
    with hr | hr | ⟨r, nd', hr, hrefused | ⟨h0, hcut, hfits⟩⟩
  · rw [hr]
    exact id
  · rw [hr]
    exact id
  · exact absurd hrefused.2.2 (not_refuses_calm rfl)
  rw [hr]
  rintro (⟨-, hsize, -⟩ | ⟨hneg, -⟩)
  · rw [Node.size, hcut, (cut_keeps _ _).1] at hsize
    omega
  · omega

/-- A byte for the offset 2^32 lands at the offset 0, and the file that should get 2^32 + 5
bytes has 5. -/
theorem pwrite_truncate_lost :
    sysRw calm 1 (emptied 64) (.write [7] (some (2 ^ 32)))
        = .ret 1 ⟨{ emptied 64 with node := { bytes := [7], cap := 64 } }, []⟩ ∧
      sysTruncate calm (emptied 64).node (2 ^ 32 + 5)
        = .ret 0 { bytes := [0, 0, 0, 0, 0], cap := 64 } := by
  decide +kernel

end SamaraOS.File
