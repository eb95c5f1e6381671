import LtlFuzzer.Aflgo.Bitmap
import LtlFuzzer.Aflgo.GapWrites
import Mathlib.Data.Nat.Log

/-! Trimming a test case: chunks are cut out of it as long as the target leaves the same checksum. -/
namespace LtlFuzzer.Aflgo
open Foundation

def trimStartSteps : Nat := 16

def trimEndSteps : Nat := 1024

def trimMinBytes : Nat := 4

/-- The loop over the powers of two. -/
def nextP2From (val k : Nat) : Nat := if 2 ^ k < val then nextP2From val (k + 1) else 2 ^ k
termination_by val - 2 ^ k
decreasing_by
  rename_i h
  have : 2 ^ (k + 1) = 2 * 2 ^ k := Nat.pow_succ'
  have := Nat.two_pow_pos k
  omega

def nextP2 (val : Nat) : Nat := nextP2From val 0

inductive Fault where
  | none
  | tmout
  | crash
  | error
  | noinst
  | nobits
  deriving DecidableEq, Repr

/-- What a run of the target leaves. -/
structure Outcome where
  fault : Fault
  stopSoon : Bool
  traceBits : Bitmap

/-- The variables of the trimming loops, and what the runs so far were given. The buffer is kept up to the length of the
entry, and the clean trace is there where the test case must be written. -/
structure Trim where
  mem : Bytes
  lenP2 : Nat
  removePos : Nat
  cleanTrace : Option Bitmap
  outFd : Descriptor UInt8
  delivered : List Bytes
  fault : Fault

/-- What trimming leaves: the buffer, the file of the entry, whether it was aborted, the trace to rate, and what the runs
were given. -/
structure Trimming where
  mem : Bytes
  file : Bytes
  fault : Fault
  aborted : Bool
  rated : Option Bitmap
  delivered : List Bytes

section
variable (target : Nat → Bytes → Outcome) (hash32 : Bitmap → UInt32) (execCksum : UInt32) (outFile : Bool)

/-- One run with a gap; the error is the jump out of the loops. -/
def Trim.round (removeLen : Nat) (s : Trim) : Except Trim Trim :=
  let trimAvail := min removeLen (s.mem.length - s.removePos)
  let outFd := writeWithGap outFile s.outFd s.mem s.removePos trimAvail
  let o := target s.delivered.length outFd.data
  let s := { s with outFd := outFd, delivered := s.delivered ++ [outFd.data], fault := o.fault }
  if o.stopSoon || o.fault = .error then .error s
  else if hash32 o.traceBits = execCksum then
    let mem := withoutGap s.mem s.removePos trimAvail
    .ok { s with mem := mem, lenP2 := nextP2 mem.length, cleanTrace := s.cleanTrace.or (some o.traceBits) }
  else .ok { s with removePos := s.removePos + removeLen }

/-- What a round can do, with the run without the chunk: it leaves the loops with the buffer as it was, cuts the chunk out,
or moves on. -/
theorem Trim.round_cases (r : Nat) {s : Trim} (h : s.removePos ≤ s.mem.length) :
    ∃ cut s', cut = withoutGap s.mem s.removePos (min r (s.mem.length - s.removePos)) ∧ s'.delivered = s.delivered ++ [cut] ∧
      ((s.round target hash32 execCksum outFile r = .error s' ∧ s'.mem = s.mem ∧ s'.lenP2 = s.lenP2 ∧ s'.cleanTrace = s.cleanTrace) ∨
      (s.round target hash32 execCksum outFile r = .ok s' ∧ hash32 (target s.delivered.length cut).traceBits = execCksum ∧
        s'.mem = cut ∧ s'.lenP2 = nextP2 cut.length ∧ s'.removePos = s.removePos ∧
        s'.cleanTrace = s.cleanTrace.or (some (target s.delivered.length cut).traceBits)) ∨
      (s.round target hash32 execCksum outFile r = .ok s' ∧ s'.mem = s.mem ∧ s'.lenP2 = s.lenP2 ∧
        s'.removePos = s.removePos + r ∧ s'.cleanTrace = s.cleanTrace)) := by
  have hgap : s.removePos + min r (s.mem.length - s.removePos) ≤ s.mem.length := by omega
  have hdata := writeWithGap_data outFile s.outFd hgap
  rw [Trim.round]
  dsimp only
  rw [hdata]
  split_ifs with hstop hsame
  · exact ⟨_, _, rfl, rfl, .inl ⟨rfl, rfl, rfl, rfl⟩⟩
  · exact ⟨_, _, rfl, rfl, .inr (.inl ⟨rfl, hsame, rfl, rfl, rfl, rfl⟩)⟩
  · exact ⟨_, _, rfl, rfl, .inr (.inr ⟨rfl, rfl, rfl, rfl, rfl⟩)⟩

variable {target hash32 execCksum outFile}

/-- The bytes of the buffer that the pass is still to come to. -/
def Trim.left (s : Trim) : Nat := s.mem.length - s.removePos

theorem length_withoutGap {mem : Bytes} {skipAt skipLen : Nat} (h : skipAt + skipLen ≤ mem.length) :
    (withoutGap mem skipAt skipLen).length = mem.length - skipLen := by
  rw [withoutGap, List.length_append, List.length_take, List.length_drop]
  omega

/-- Either way a chunk is done with. -/
theorem Trim.round_left {r : Nat} {s s' : Trim} (h : s.removePos < s.mem.length)
    (hround : s.round target hash32 execCksum outFile r = .ok s') : s'.left = s.left - r := by
  obtain ⟨cut, t, rfl, -, ⟨ht, -⟩ | ⟨ht, -, hmem, -, hpos, -⟩ | ⟨ht, hmem, -, hpos, -⟩⟩ :=
    Trim.round_cases target hash32 execCksum outFile r h.le
  · cases hround.symm.trans ht
  · obtain rfl := Except.ok.inj (hround.symm.trans ht)
    rw [Trim.left, Trim.left, hmem, hpos, length_withoutGap (by omega)]
    omega
  · obtain rfl := Except.ok.inj (hround.symm.trans ht)
    rw [Trim.left, Trim.left, hmem, hpos]
    omega

variable (target hash32 execCksum outFile)

/-- The inner loop. -/
def Trim.pass (r : Nat) (hr : 0 < r) (s : Trim) : Except Trim Trim :=
  if _h : s.removePos < s.mem.length then
    match _hround : s.round target hash32 execCksum outFile r with
    | .error s => .error s
    | .ok s' => s'.pass r hr
  else .ok s
termination_by s.left
decreasing_by
  have := Trim.round_left _h _hround
  have : 0 < s.left := Nat.sub_pos_of_lt _h
  omega

/-- The outer loop, on half of the chunk each time. -/
def Trim.passes (r : Nat) (s : Trim) : Except Trim Trim :=
  if h : max (s.lenP2 / trimEndSteps) trimMinBytes ≤ r then
    match Trim.pass target hash32 execCksum outFile r (by unfold trimMinBytes at h; omega) { s with removePos := r } with
    | .error s => .error s
    | .ok s => s.passes (r >>> 1)
  else .ok s
termination_by r
decreasing_by
  unfold trimMinBytes at h
  rw [Nat.shiftRight_eq_div_pow]
  omega

/-- None of the loops' results is used where the buffer is short. -/
def trimCase (outFd : Descriptor UInt8) (inBuf file : Bytes) : Trimming :=
  if inBuf.length < 5 then ⟨inBuf, file, .none, false, none, []⟩
  else
    let lenP2 := nextP2 inBuf.length
    match Trim.passes target hash32 execCksum outFile (max (lenP2 / trimStartSteps) trimMinBytes)
      ⟨inBuf, lenP2, 0, none, outFd, [], .none⟩ with
    | .error s => ⟨s.mem, file, s.fault, true, none, s.delivered⟩
    | .ok s => match s.cleanTrace with
      | none => ⟨s.mem, file, s.fault, false, none, s.delivered⟩
      | some trace => ⟨s.mem, s.mem, s.fault, false, some trace, s.delivered⟩

/-- A run on these bytes left this trace, with the checksum of the entry. -/
def RanSame (delivered : List Bytes) (mem : Bytes) (trace : Bitmap) : Prop :=
  ∃ n, delivered[n]? = some mem ∧ trace = (target n mem).traceBits ∧ hash32 trace = execCksum

/-- What the loops keep: the head of the buffer and the order of its bytes. It is as it was, or a run on exactly its bytes
had the checksum of the entry; so had the run that left the clean trace. -/
structure Trim.Sound (inBuf : Bytes) (s : Trim) : Prop where
  head : s.mem.take trimMinBytes = inBuf.take trimMinBytes
  sub : s.mem.Sublist inBuf
  same : s.cleanTrace = none → s.mem = inBuf
  ran : ∀ trace, s.cleanTrace = some trace → s.mem.length < inBuf.length ∧
    (∃ last, RanSame target hash32 execCksum s.delivered s.mem last) ∧ ∃ first, RanSame target hash32 execCksum s.delivered first trace
  lenP2 : s.lenP2 = nextP2 s.mem.length

variable {target hash32 execCksum outFile}

/-- The loops may be left from either. -/
def Trim.last : Except Trim Trim → Trim
  | .error s => s
  | .ok s => s

variable {inBuf : Bytes} {s s' : Trim}

private theorem RanSame.append {delivered : List Bytes} {mem : Bytes} {trace : Bitmap}
    (h : RanSame target hash32 execCksum delivered mem trace) (more : List Bytes) :
    RanSame target hash32 execCksum (delivered ++ more) mem trace := by
  obtain ⟨n, hn, hran⟩ := h
  refine ⟨n, ?_, hran⟩
  rw [List.getElem?_append_left (List.getElem?_eq_some_iff.mp hn).1, hn]

private theorem Trim.Sound.moved {cut : Bytes} (h : s.Sound target hash32 execCksum inBuf) (hmem : s'.mem = s.mem)
    (hp2 : s'.lenP2 = s.lenP2) (hclean : s'.cleanTrace = s.cleanTrace) (hdelivered : s'.delivered = s.delivered ++ [cut]) :
    s'.Sound target hash32 execCksum inBuf := by
  refine ⟨by rw [hmem, h.head], by rw [hmem]; exact h.sub, by rw [hmem, hclean]; exact h.same, fun trace ht => ?_, by rw [hp2, hmem, h.lenP2]⟩
  obtain ⟨hlt, ⟨last, hlast⟩, first, hfirst⟩ := h.ran trace (hclean ▸ ht)
  rw [hmem, hdelivered]
  exact ⟨hlt, ⟨last, hlast.append _⟩, first, hfirst.append _⟩

private theorem Trim.Sound.cut {pos len : Nat} {cut : Bytes} (h : s.Sound target hash32 execCksum inBuf) (hpos : trimMinBytes ≤ pos)
    (hlen : pos + len ≤ s.mem.length) (hcut : 0 < len) (heq : cut = withoutGap s.mem pos len)
    (hsame : hash32 (target s.delivered.length cut).traceBits = execCksum) (hmem : s'.mem = cut) (hp2 : s'.lenP2 = nextP2 cut.length)
    (hclean : s'.cleanTrace = s.cleanTrace.or (some (target s.delivered.length cut).traceBits))
    (hdelivered : s'.delivered = s.delivered ++ [cut]) : s'.Sound target hash32 execCksum inBuf := by
  have hsub : cut.Sublist s.mem := by
    rw [heq]
    conv_rhs => rw [← List.take_append_drop pos s.mem]
    exact (List.Sublist.refl _).append (List.drop_drop ▸ List.drop_sublist len _)
  have hshorter : cut.length < inBuf.length := by
    have := h.sub.length_le
    rw [heq, length_withoutGap hlen]
    omega
  have hran : RanSame target hash32 execCksum s'.delivered cut (target s.delivered.length cut).traceBits :=
    ⟨s.delivered.length, by rw [hdelivered, List.getElem?_concat_length], rfl, hsame⟩
  refine ⟨?_, by rw [hmem]; exact hsub.trans h.sub, fun hnone => ?_,
    fun trace ht => ⟨by rw [hmem]; exact hshorter, ⟨_, by rw [hmem]; exact hran⟩, ?_⟩, by rw [hp2, hmem]⟩
  · rw [hmem, heq, withoutGap, List.take_append_of_le_length (by rw [List.length_take]; omega), List.take_take, Nat.min_eq_left hpos, h.head]
  · rw [hclean] at hnone
    cases hc : s.cleanTrace <;> rw [hc] at hnone <;> cases hnone
  · rw [hclean] at ht
    cases hc : s.cleanTrace with
    | none =>
      rw [hc] at ht
      obtain rfl := Option.some.inj ht
      exact ⟨cut, hran⟩
    | some old =>
      rw [hc] at ht
      obtain rfl := Option.some.inj ht
      obtain ⟨-, -, first, hfirst⟩ := h.ran old hc
      exact ⟨first, hdelivered ▸ hfirst.append [cut]⟩

variable (outFile) in
/-- A round keeps this, behind the head. -/
private theorem Trim.Sound.round {r : Nat} (hr : 0 < r) (h : s.Sound target hash32 execCksum inBuf) (hpos : trimMinBytes ≤ s.removePos)
    (hlt : s.removePos < s.mem.length) :
    (Trim.last (s.round target hash32 execCksum outFile r)).Sound target hash32 execCksum inBuf ∧
      (Trim.last (s.round target hash32 execCksum outFile r)).delivered.length = s.delivered.length + 1 ∧
      ∀ s', s.round target hash32 execCksum outFile r = .ok s' → trimMinBytes ≤ s'.removePos := by
  obtain ⟨cut, t, heq, hdelivered, hcases⟩ := Trim.round_cases target hash32 execCksum outFile r hlt.le
  have hexecs : t.delivered.length = s.delivered.length + 1 := by rw [hdelivered, List.length_append, List.length_singleton]
  obtain ⟨ht, hmem, hp2, hclean⟩ | ⟨ht, hsame, hmem, hp2, hpos', hclean⟩ | ⟨ht, hmem, hp2, hpos', hclean⟩ := hcases
  · rw [ht]
    exact ⟨h.moved hmem hp2 hclean hdelivered, hexecs, fun _ he => nomatch he⟩
  · rw [ht]
    refine ⟨h.cut hpos (by omega) (by omega) heq hsame hmem hp2 hclean hdelivered, hexecs, fun s' he => ?_⟩
    obtain rfl := Except.ok.inj he
    rw [hpos']
    exact hpos
  · rw [ht]
    refine ⟨h.moved hmem hp2 hclean hdelivered, hexecs, fun s' he => ?_⟩
    obtain rfl := Except.ok.inj he
    omega

variable (outFile) in
/-- A pass makes at most one run for each chunk that is left. -/
private theorem Trim.Sound.pass {r : Nat} (hr : 0 < r) (h : s.Sound target hash32 execCksum inBuf)
    (hpos : trimMinBytes ≤ s.removePos) :
    (Trim.last (s.pass target hash32 execCksum outFile r hr)).Sound target hash32 execCksum inBuf ∧
      (Trim.last (s.pass target hash32 execCksum outFile r hr)).delivered.length ≤ s.delivered.length + (s.left + r - 1) / r := by
  fun_induction Trim.pass target hash32 execCksum outFile r hr s with
  | case1 s hlt s' hround =>
    have hleft : 0 < s.left := Nat.sub_pos_of_lt hlt
    obtain ⟨hs', hexecs, -⟩ := h.round outFile hr hpos hlt
    rw [hround] at hs' hexecs
    refine ⟨hs', hexecs.le.trans (Nat.add_le_add_left ((Nat.one_le_div_iff hr).mpr ?_) _)⟩
    omega
  | case2 s hlt s' hround ih =>
    have hleft : 0 < s.left := Nat.sub_pos_of_lt hlt
    obtain ⟨hs', hexecs, hpos'⟩ := h.round outFile hr hpos hlt
    rw [hround] at hs' hexecs
    obtain ⟨hlast, hle⟩ := ih hs' (hpos' s' hround)
    refine ⟨hlast, hle.trans ?_⟩
    have hstep : (s'.left + r - 1) / r + 1 ≤ (s.left + r - 1) / r := by
      rw [Trim.round_left hlt hround, ← Nat.add_div_right _ hr]
      rcases Nat.lt_or_ge s.left r with hsmall | hlarge
      · have hzero : s.left - r + r - 1 + r = r - 1 + r := by omega
        rw [hzero, Nat.add_div_right _ hr, Nat.div_eq_of_lt (by omega)]
        exact (Nat.one_le_div_iff hr).mpr (by omega)
      · exact Nat.div_le_div_right (by omega)
    have : s'.delivered.length = s.delivered.length + 1 := hexecs
    omega
  | case3 s hlt => exact ⟨h, Nat.le_add_right _ _⟩

private theorem nextP2From_spec (val k : Nat) :
    val ≤ nextP2From val k ∧ ∃ j, nextP2From val k = 2 ^ j ∧ (j = k ∨ 2 ^ j < 2 * val) := by
  fun_induction nextP2From val k with
  | case1 k hlt ih =>
    obtain ⟨hle, j, hj, hor⟩ := ih
    refine ⟨hle, j, hj, .inr ?_⟩
    rcases hor with rfl | hor
    · rw [Nat.pow_succ']
      omega
    · exact hor
  | case2 k hge => exact ⟨Nat.not_lt.mp hge, k, rfl, .inl rfl⟩

/-- The first chunk is behind the first position; there are no more than TRIM_END_STEPS. -/
private theorem chunks_le {len r : Nat} (h : max (nextP2 len / trimEndSteps) trimMinBytes ≤ r) : (len - r + r - 1) / r ≤ trimEndSteps - 1 := by
  obtain ⟨hle, j, hj, -⟩ := nextP2From_spec len 0
  unfold trimEndSteps trimMinBytes at *
  obtain ⟨hmin, hr⟩ := Nat.max_le.mp h
  have hlen : len ≤ 1024 * r := by
    rw [← nextP2] at hle hj
    rcases Nat.lt_or_ge j 10 with hj10 | hj10
    · have : 2 ^ j ≤ 2 ^ 10 := Nat.pow_le_pow_right (by decide) hj10.le
      omega
    · obtain ⟨i, rfl⟩ := Nat.exists_eq_add_of_le hj10
      rw [hj, Nat.pow_add] at hmin hle
      omega
  refine Nat.lt_succ_iff.mp ((Nat.div_lt_iff_lt_mul (by omega)).mpr ?_)
  omega

variable (outFile) in
/-- What one turn of the outer loop does. -/
private theorem Trim.Sound.turn {r : Nat} (hr : max (s.lenP2 / trimEndSteps) trimMinBytes ≤ r) (hr0 : 0 < r)
    (h : s.Sound target hash32 execCksum inBuf) :
    (Trim.last (Trim.pass target hash32 execCksum outFile r hr0 { s with removePos := r })).Sound target hash32 execCksum inBuf ∧
      (Trim.last (Trim.pass target hash32 execCksum outFile r hr0 { s with removePos := r })).delivered.length ≤
        s.delivered.length + (trimEndSteps - 1) := by
  have hs : Trim.Sound target hash32 execCksum inBuf { s with removePos := r } := ⟨h.head, h.sub, h.same, h.ran, h.lenP2⟩
  obtain ⟨hlast, hle⟩ := hs.pass outFile hr0 (Nat.max_le.mp hr).2
  exact ⟨hlast, hle.trans (Nat.add_le_add_left (chunks_le (h.lenP2 ▸ hr)) _)⟩

variable (outFile) in
private theorem Trim.Sound.passes (r : Nat) (h : s.Sound target hash32 execCksum inBuf) :
    (Trim.last (s.passes target hash32 execCksum outFile r)).Sound target hash32 execCksum inBuf ∧
      (Trim.last (s.passes target hash32 execCksum outFile r)).delivered.length ≤
        s.delivered.length + (trimEndSteps - 1) * Nat.log 2 r := by
  have halve (r : Nat) (hr : trimMinBytes ≤ r) : Nat.log 2 r = Nat.log 2 (r >>> 1) + 1 := by
    unfold trimMinBytes at hr
    rw [Nat.shiftRight_eq_div_pow, Nat.pow_one, Nat.log_of_one_lt_of_le (by decide) (by omega)]
  fun_induction Trim.passes target hash32 execCksum outFile r s with
  | case1 r s hr s' hpass =>
    obtain ⟨hlast, hle⟩ := h.turn outFile hr (Nat.lt_of_lt_of_le (by decide) (Nat.max_le.mp hr).2)
    rw [hpass] at hlast hle
    refine ⟨hlast, hle.trans ?_⟩
    rw [halve r (Nat.max_le.mp hr).2, Nat.mul_add]
    omega
  | case2 r s hr s' hpass ih =>
    obtain ⟨hlast, hle⟩ := h.turn outFile hr (Nat.lt_of_lt_of_le (by decide) (Nat.max_le.mp hr).2)
    rw [hpass] at hlast hle
    obtain ⟨hlast', hle'⟩ := ih hlast
    refine ⟨hlast', hle'.trans ?_⟩
    rw [halve r (Nat.max_le.mp hr).2, Nat.mul_add]
    change s'.delivered.length ≤ _ at hle
    omega
  | case3 r s hr => exact ⟨h, Nat.le_add_right _ _⟩

/-- Chunks are no longer than the test case. -/
private theorem firstChunk_le {len : Nat} (h : 5 ≤ len) : max (nextP2 len / trimStartSteps) trimMinBytes ≤ len := by
  obtain ⟨-, j, hj, hor⟩ := nextP2From_spec len 0
  unfold trimStartSteps trimMinBytes
  rw [nextP2, hj]
  rcases hor with rfl | hor
  · omega
  · omega

/-- Whatever the target does, trimming ends: it leaves the first bytes and the order of the others, and what is then
written into the file, if anything was cut, was given to a run without the prefix, which had the checksum of the entry; the
trace that is rated is that of a run which had it too. -/
theorem trimmed_case_ran (target : Nat → Bytes → Outcome) (hash32 : Bitmap → UInt32) (execCksum : UInt32) (outFile : Bool)
    (outFd : Descriptor UInt8) (inBuf file : Bytes) :
    ∃ t, t = trimCase target hash32 execCksum outFile outFd inBuf file ∧
      t.mem.Sublist inBuf ∧ t.mem.take trimMinBytes = inBuf.take trimMinBytes ∧
      t.delivered.length ≤ (trimEndSteps - 1) * Nat.log 2 inBuf.length ∧
      (t.rated = none → t.file = file ∧ (t.aborted = false → t.mem = inBuf)) ∧
      ∀ trace, t.rated = some trace → t.aborted = false ∧ t.mem.length < inBuf.length ∧ t.file = t.mem ∧
        (∃ last, RanSame target hash32 execCksum t.delivered t.mem last) ∧ ∃ first, RanSame target hash32 execCksum t.delivered first trace := by
  refine ⟨_, rfl, ?_⟩
  rw [trimCase]
  split_ifs with hshort
  · exact ⟨List.Sublist.refl _, rfl, Nat.zero_le _, fun _ => ⟨rfl, fun _ => rfl⟩, fun _ he => nomatch he⟩
  · dsimp only
    have hstart : Trim.Sound target hash32 execCksum inBuf ⟨inBuf, nextP2 inBuf.length, 0, none, outFd, [], .none⟩ :=
      ⟨rfl, List.Sublist.refl _, fun _ => rfl, (fun _ he => nomatch he), rfl⟩
    obtain ⟨hlast, hle⟩ := hstart.passes outFile (max (nextP2 inBuf.length / trimStartSteps) trimMinBytes)
    have hbound : (trimEndSteps - 1) * Nat.log 2 (max (nextP2 inBuf.length / trimStartSteps) trimMinBytes) ≤
        (trimEndSteps - 1) * Nat.log 2 inBuf.length :=
      Nat.mul_le_mul_left _ (Nat.log_mono_right (firstChunk_le (by omega)))
    rw [List.length_nil, Nat.zero_add] at hle
    cases hpasses : Trim.passes target hash32 execCksum outFile (max (nextP2 inBuf.length / trimStartSteps) trimMinBytes)
        ⟨inBuf, nextP2 inBuf.length, 0, none, outFd, [], .none⟩ with
    | error s =>
      rw [hpasses] at hlast hle
      exact ⟨hlast.sub, hlast.head, hle.trans hbound, fun _ => ⟨rfl, fun he => nomatch he⟩, fun _ he => nomatch he⟩
    | ok s =>
      rw [hpasses] at hlast hle
      dsimp only
      cases hclean : s.cleanTrace with
      | none =>
        exact ⟨hlast.sub, hlast.head, hle.trans hbound, fun _ => ⟨rfl, fun _ => hlast.same hclean⟩, fun _ he => nomatch he⟩
      | some trace =>
        refine ⟨hlast.sub, hlast.head, hle.trans hbound, (fun he => nomatch he), fun trace' he => ?_⟩
        obtain rfl := Option.some.inj he
        obtain ⟨hshorter, hran⟩ := hlast.ran trace hclean
        exact ⟨rfl, hshorter, rfl, hran⟩

end

end LtlFuzzer.Aflgo
