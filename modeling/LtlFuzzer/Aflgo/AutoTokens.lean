import LtlFuzzer.Aflgo.DeterministicCases
import Mathlib.Data.List.SplitBy

/-! The tokens that the stage 1/1 picks up while it flips the last bit of every byte. -/
namespace LtlFuzzer.Aflgo
open Foundation Draws Walk

def minAutoExtra : Nat := 3

def maxAutoExtra : Nat := 32

/-- `a_collect`, `a_len` and `prev_cksum`, and what `maybe_add_auto` was called with so far. -/
structure Collector where
  aCollect : Bytes
  aLen : Nat
  prevCksum : Nat
  offered : List Bytes

namespace Collector

/-- The length counts on where the array is full. -/
def grab (b : UInt8) (s : Collector) : Collector :=
  { s with aCollect := if s.aLen < maxAutoExtra then s.aCollect.set s.aLen b else s.aCollect, aLen := s.aLen + 1 }

def offer (s : Collector) : Collector :=
  if minAutoExtra ≤ s.aLen ∧ s.aLen ≤ maxAutoExtra then { s with offered := s.offered ++ [s.aCollect.take s.aLen] } else s

/-- A byte and the checksum of the trace with its last bit flipped. -/
def note (execCksum : Nat) (last : Bool) (p : UInt8 × Nat) (s : Collector) : Collector :=
  let s' :=
    -- at the end of the file the string is completed here, for no later byte will offer it
    if last ∧ p.2 = s.prevCksum then (s.grab p.1).offer
    else if p.2 ≠ s.prevCksum then { s.offer with aLen := 0, prevCksum := p.2 }
    else s
  if p.2 ≠ execCksum then s'.grab p.1 else s'

end Collector

section
variable (c : DetContext) (flip1Cksum : Nat → Nat) (len : Nat)

/-- After the last bit of a byte: the byte as it was, and the checksum of the trace. -/
def noteBit (bit : Nat) (s : DetState × Collector) : Draws (DetState × Collector) :=
  if c.dumbMode = false ∧ bit &&& 7 = 7 then do
    let b ← deref s.1.outBuf[bit >>> 3]?
    pure (s.1, s.2.note c.execCksum (bit + 1 = len <<< 3) (b, flip1Cksum (bit >>> 3)))
  else pure s

/-- The stage 1/1 with its collector: a test case that makes `common_fuzz_stuff` bail out is not noted, nor is any after it. -/
def walkingBit : Walk (DetState × Collector) Bytes → Draws (Walk (DetState × Collector) Bytes) :=
  each (fun bit => seq (onFirst (flipped c len (flipBits 1 bit))) (change (noteBit c flip1Cksum len bit))) (List.range (len <<< 3))

end

/-- The bytes of a file with the checksums that they give. -/
def lastBitTrace (flip1Cksum : Nat → Nat) (inBuf : Bytes) : List (UInt8 × Nat) := inBuf.mapIdx fun i b => (b, flip1Cksum i)

/-- The parts of a file whose bytes give one checksum, as long as possible. -/
def sameCksum (trace : List (UInt8 × Nat)) : List (List (UInt8 × Nat)) := trace.splitBy fun p q => p.2 == q.2

/-- A token: the flips make a difference, and it is neither too short nor too long. -/
def IsToken (execCksum : Nat) (run : List (UInt8 × Nat)) : Prop :=
  (∀ p ∈ run, p.2 ≠ execCksum) ∧ minAutoExtra ≤ run.length ∧ run.length ≤ maxAutoExtra

instance (execCksum : Nat) (run : List (UInt8 × Nat)) : Decidable (IsToken execCksum run) := inferInstanceAs (Decidable (_ ∧ _ ∧ _))

def tokensOf (execCksum : Nat) (runs : List (List (UInt8 × Nat))) : List Bytes :=
  (runs.filter fun run => decide (IsToken execCksum run)).map fun run => run.map Prod.fst

private theorem tokensOf_singleton (execCksum : Nat) (run : List (UInt8 × Nat)) :
    tokensOf execCksum [run] = if IsToken execCksum run then [run.map Prod.fst] else [] := by
  rw [tokensOf, List.filter_singleton]
  split_ifs with h
  · rw [decide_eq_true h]
    rfl
  · rw [decide_eq_false h]
    rfl

private theorem tokensOf_append (execCksum : Nat) (runs more : List (List (UInt8 × Nat))) :
    tokensOf execCksum (runs ++ more) = tokensOf execCksum runs ++ tokensOf execCksum more := by
  rw [tokensOf, List.filter_append, List.map_append]
  rfl

/-- Bytes with one checksum are not divided. -/
private theorem sameCksum_run {run : List (UInt8 × Nat)} {k : Nat} (hne : run ≠ []) (h : ∀ p ∈ run, p.2 = k) : sameCksum run = [run] := by
  refine List.splitBy_of_isChain hne (List.pairwise_of_forall_mem_list fun p hp q hq => ?_).isChain
  rw [h p hp, h q hq, beq_self_eq_true]

namespace Collector
variable {execCksum : Nat}

/-- What is collected of the current run: all of it while it fits, and nothing where the flips make no difference. -/
structure Holds (execCksum : Nat) (run : List (UInt8 × Nat)) (s : Collector) : Prop where
  room : s.aCollect.length = maxAutoExtra
  cksum : ∀ p ∈ run, p.2 = s.prevCksum
  idle : s.prevCksum = execCksum → s.aLen = 0
  len : s.prevCksum ≠ execCksum → s.aLen = run.length
  bytes : s.prevCksum ≠ execCksum → s.aLen ≤ maxAutoExtra → s.aCollect.take s.aLen = run.map Prod.fst

/-- The current run is offered if it is a token. -/
private theorem Holds.offered {run : List (UInt8 × Nat)} {s : Collector} (h : Holds execCksum run s) :
    s.offer.offered = s.offered ++ tokensOf execCksum [run] := by
  rw [tokensOf_singleton, offer]
  by_cases hidle : s.prevCksum = execCksum
  · have hno : ¬ IsToken execCksum run := by
      rintro ⟨hdiffer, hmin, -⟩
      obtain ⟨p, hp⟩ := List.exists_mem_of_length_pos (Nat.lt_of_lt_of_le (by decide) hmin)
      exact hdiffer p hp ((h.cksum p hp).trans hidle)
    rw [if_neg hno, if_neg (by rw [h.idle hidle]; decide), List.append_nil]
  · have htoken : IsToken execCksum run ↔ minAutoExtra ≤ s.aLen ∧ s.aLen ≤ maxAutoExtra := by
      rw [IsToken, h.len hidle, and_iff_right fun q hq => (h.cksum q hq).symm ▸ hidle]
    simp only [htoken]
    split_ifs with hin
    · exact congrArg (fun t => s.offered ++ [t]) (h.bytes hidle hin.2)
    · rw [List.append_nil]

private theorem offer_fields (s : Collector) :
    s.offer.aCollect = s.aCollect ∧ s.offer.aLen = s.aLen ∧ s.offer.prevCksum = s.prevCksum := by
  rw [offer]
  split_ifs <;> exact ⟨rfl, rfl, rfl⟩

private theorem Holds.cksum_concat {run : List (UInt8 × Nat)} {s : Collector} (h : Holds execCksum run s) {p : UInt8 × Nat}
    (hp : p.2 = s.prevCksum) : ∀ q ∈ run ++ [p], q.2 = s.prevCksum := by
  intro q hq
  rcases List.mem_append.mp hq with hq | hq
  · exact h.cksum q hq
  · rw [List.mem_singleton.mp hq]
    exact hp

/-- One more byte of the same run. -/
private theorem Holds.grab {run : List (UInt8 × Nat)} {s : Collector} (h : Holds execCksum run s) {p : UInt8 × Nat}
    (hp : p.2 = s.prevCksum) (hne : p.2 ≠ execCksum) : Holds execCksum (run ++ [p]) (s.grab p.1) := by
  have hne' : s.prevCksum ≠ execCksum := hp ▸ hne
  have hlen := h.len hne'
  refine ⟨?_, h.cksum_concat hp, fun he => absurd he hne', fun _ => ?_, fun _ hle => ?_⟩
  · rw [Collector.grab]
    dsimp only
    split_ifs
    · rw [List.length_set, h.room]
    · exact h.room
  · rw [List.length_append, List.length_singleton, ← hlen]
    rfl
  · have hlt : s.aLen < maxAutoExtra := hle
    have hlt' : s.aLen < s.aCollect.length := h.room.symm ▸ hlt
    have htake : (s.aCollect.take s.aLen).length = s.aLen := List.length_take_of_le (Nat.le_of_lt hlt')
    have hset : (s.aCollect.set s.aLen p.1).take (s.aLen + 1) = s.aCollect.take s.aLen ++ [p.1] := by
      rw [List.set_eq_take_append_cons_drop, if_pos hlt']
      have happ := @List.take_length_add_append _ (s.aCollect.take s.aLen) (p.1 :: s.aCollect.drop (s.aLen + 1)) 1
      rw [htake] at happ
      exact happ
    rw [Collector.grab]
    dsimp only
    rw [if_pos hlt, hset, h.bytes hne' (Nat.le_of_lt hlt), List.map_append]
    rfl

/-- A byte that goes on with the run. -/
private theorem Holds.note_same {run : List (UInt8 × Nat)} {s : Collector} (h : Holds execCksum run s) {p : UInt8 × Nat}
    (hp : p.2 = s.prevCksum) :
    Holds execCksum (run ++ [p]) (s.note execCksum false p) ∧ (s.note execCksum false p).offered = s.offered := by
  rw [note]
  simp only [Bool.false_eq_true, false_and, if_false, hp, ne_eq, not_true_eq_false]
  by_cases hidle : s.prevCksum = execCksum
  · rw [if_neg (not_not_intro hidle)]
    exact ⟨⟨h.room, h.cksum_concat hp, h.idle, fun hne => absurd hidle hne, fun hne => absurd hidle hne⟩, rfl⟩
  · rw [if_pos hidle]
    exact ⟨h.grab hp (hp ▸ hidle), rfl⟩

/-- A byte that starts a run: the one before it is offered. -/
private theorem Holds.note_new {run : List (UInt8 × Nat)} {s : Collector} (h : Holds execCksum run s) {p : UInt8 × Nat}
    (hp : p.2 ≠ s.prevCksum) (last : Bool) :
    Holds execCksum [p] (s.note execCksum last p) ∧
      (s.note execCksum last p).offered = s.offered ++ tokensOf execCksum [run] := by
  have hroom : s.offer.aCollect.length = maxAutoExtra := (offer_fields s).1.symm ▸ h.room
  have hempty : Holds execCksum [] { s.offer with aLen := 0, prevCksum := p.2 } :=
    ⟨hroom, fun q hq => absurd hq List.not_mem_nil, fun _ => rfl, fun _ => rfl, fun _ _ => rfl⟩
  have hlast : ¬ (last = true ∧ p.2 = s.prevCksum) := fun hlast => hp hlast.2
  rw [note]
  simp only [if_neg hlast, if_pos hp]
  split_ifs with hidle
  · exact ⟨hempty.grab rfl hidle, h.offered⟩
  · have hidle := not_not.mp hidle
    refine ⟨⟨hroom, ?_, fun _ => rfl, fun hne => absurd hidle hne, fun hne => absurd hidle hne⟩, h.offered⟩
    intro q hq
    rw [List.mem_singleton.mp hq]

/-- The last byte, where it goes on with the run: the run is offered with it. -/
private theorem Holds.note_last {run : List (UInt8 × Nat)} {s : Collector} (h : Holds execCksum run s) {p : UInt8 × Nat}
    (hp : p.2 = s.prevCksum) : (s.note execCksum true p).offered = s.offered ++ tokensOf execCksum [run ++ [p]] := by
  have hoffered : (s.note execCksum true p).offered = (s.grab p.1).offer.offered := by
    simp only [note, hp, and_self, if_true]
    split_ifs <;> rfl
  rw [hoffered]
  by_cases hidle : s.prevCksum = execCksum
  · have hno : ¬ IsToken execCksum (run ++ [p]) := fun ht =>
      ht.1 p (List.mem_append_right run (List.mem_singleton.mpr rfl)) (hp.trans hidle)
    have hlen : (s.grab p.1).aLen = 1 := congrArg (· + 1) (h.idle hidle)
    rw [tokensOf_singleton, if_neg hno, List.append_nil, offer, if_neg (by rw [hlen]; decide)]
    rfl
  · exact (h.grab hp (hp ▸ hidle)).offered

/-- The runs before the one that is collected were offered. -/
structure Gathered (execCksum : Nat) (pre run : List (UInt8 × Nat)) (s : Collector) : Prop where
  holds : Holds execCksum run s
  apart : ∀ q ∈ pre.getLast?, q.2 ≠ s.prevCksum
  first : run = [] → pre = []
  offered : s.offered = tokensOf execCksum (sameCksum pre)

private theorem Gathered.start (execCksum : Nat) {junk : Bytes} (hjunk : junk.length = maxAutoExtra) :
    Gathered execCksum [] [] ⟨junk, 0, execCksum, []⟩ := by
  refine ⟨⟨hjunk, ?_, fun _ => rfl, fun _ => rfl, fun _ _ => rfl⟩, ?_, fun _ => rfl, rfl⟩
  · intro p hp
    cases hp
  · intro q hq
    cases hq

variable {pre run : List (UInt8 × Nat)} {s : Collector} {p : UInt8 × Nat}

private theorem Gathered.runs (h : Gathered execCksum pre run s) (hne : run ≠ []) : sameCksum (pre ++ run) = sameCksum pre ++ [run] := by
  obtain ⟨q, rest, rfl⟩ := List.exists_cons_of_ne_nil hne
  have hsplit : sameCksum (pre ++ q :: rest) = sameCksum pre ++ sameCksum (q :: rest) := by
    refine List.splitBy_append_cons rest fun t ht => ?_
    rw [h.holds.cksum q List.mem_cons_self]
    exact beq_eq_false_iff_ne.mpr (h.apart t ht)
  rw [hsplit, sameCksum_run hne h.holds.cksum]

private theorem Gathered.tokens (h : Gathered execCksum pre run s) :
    tokensOf execCksum (sameCksum (pre ++ run)) = s.offered ++ tokensOf execCksum [run] := by
  by_cases hne : run = []
  · subst hne
    rw [h.first rfl, h.offered, h.first rfl, tokensOf_singleton, if_neg fun ht => absurd ht.2.1 (by decide)]
    rfl
  · rw [h.runs hne, tokensOf_append, h.offered]

/-- The last run is not offered yet. -/
private theorem Gathered.unfinished (h : Gathered execCksum pre run s) :
    s.offered = tokensOf execCksum (sameCksum (pre ++ run)).dropLast := by
  by_cases hne : run = []
  · subst hne
    rw [h.offered, h.first rfl]
    rfl
  · rw [h.runs hne, List.dropLast_concat, h.offered]

private theorem Gathered.note_new (h : Gathered execCksum pre run s) (hp : p.2 ≠ s.prevCksum) (last : Bool) :
    Gathered execCksum (pre ++ run) [p] (s.note execCksum last p) := by
  obtain ⟨hholds, hoffered⟩ := h.holds.note_new hp last
  have hcksum := hholds.cksum p (List.mem_singleton.mpr rfl)
  refine ⟨hholds, fun q hq he => hp ?_, fun hnil => absurd hnil (List.cons_ne_nil p []), ?_⟩
  · rw [hcksum, ← he]
    by_cases hne : run = []
    · rw [h.first hne, hne] at hq
      cases hq
    · rw [List.getLast?_append_of_ne_nil pre hne] at hq
      exact h.holds.cksum q (List.mem_of_mem_getLast? hq)
  · rw [hoffered, h.tokens]

private theorem Gathered.note_same (h : Gathered execCksum pre run s) (hp : p.2 = s.prevCksum) :
    Gathered execCksum pre (run ++ [p]) (s.note execCksum false p) := by
  obtain ⟨hholds, hoffered⟩ := h.holds.note_same hp
  have hcksum := hholds.cksum p (List.mem_append_right run (List.mem_singleton.mpr rfl))
  refine ⟨hholds, fun q hq => ?_, fun hnil => absurd hnil (List.concat_ne_nil p run), hoffered.trans h.offered⟩
  rw [← hcksum, hp]
  exact h.apart q hq

/-- With the last byte everything is offered. -/
private theorem Gathered.note_last (h : Gathered execCksum pre run s) (p : UInt8 × Nat) :
    (s.note execCksum true p).offered = tokensOf execCksum (sameCksum (pre ++ run ++ [p])) := by
  by_cases hp : p.2 = s.prevCksum
  · have hall : Gathered execCksum pre (run ++ [p]) (s.note execCksum false p) := h.note_same hp
    rw [List.append_assoc, hall.tokens, (h.holds.note_same hp).2, h.holds.note_last hp]
  · have hnew := h.note_new hp true
    rw [hnew.tokens, tokensOf_singleton, if_neg fun ht => absurd ht.2.1 (by rw [List.length_singleton]; decide), List.append_nil]

/-- What the collector has after so many bits of the file. -/
def After (execCksum : Nat) (marks : List (UInt8 × Nat)) (bits : Nat) (s : Collector) : Prop :=
  if bits < 8 * marks.length then ∃ pre run, pre ++ run = marks.take (bits / 8) ∧ Gathered execCksum pre run s
  else s.offered = tokensOf execCksum (sameCksum marks)

private theorem After.start {marks : List (UInt8 × Nat)} {junk : Bytes} (hjunk : junk.length = maxAutoExtra) :
    After execCksum marks 0 ⟨junk, 0, execCksum, []⟩ := by
  rw [After]
  split_ifs with hsome
  · exact ⟨[], [], rfl, Gathered.start execCksum hjunk⟩
  · rw [List.eq_nil_of_length_eq_zero (by omega : marks.length = 0)]
    rfl

/-- A byte is complete with its last bit. -/
private theorem After.note {marks : List (UInt8 × Nat)} {bit : Nat} (h : After execCksum marks bit s) (hlt : bit < 8 * marks.length)
    (hbit : bit % 8 = 7) (hp : marks[bit / 8]? = some p) :
    After execCksum marks (bit + 1) (s.note execCksum (bit + 1 = 8 * marks.length) p) := by
  rw [After, if_pos hlt] at h
  obtain ⟨pre, run, hpast, hgathered⟩ := h
  have hnext : marks.take (bit / 8 + 1) = pre ++ run ++ [p] := by rw [List.take_add_one, hp, hpast]; rfl
  have hdiv : (bit + 1) / 8 = bit / 8 + 1 := by omega
  rw [After, hdiv, hnext]
  split_ifs with hmore
  · rw [decide_eq_false (Nat.ne_of_lt hmore)]
    by_cases hsame : p.2 = s.prevCksum
    · exact ⟨pre, run ++ [p], (List.append_assoc _ _ _).symm, hgathered.note_same hsame⟩
    · exact ⟨pre ++ run, [p], rfl, hgathered.note_new hsame false⟩
  · rw [decide_eq_true (by omega), hgathered.note_last, ← hnext, List.take_of_length_le (by omega)]

/-- Other bits are not looked at. -/
private theorem After.skip {marks : List (UInt8 × Nat)} {bit : Nat} (h : After execCksum marks bit s) (hlt : bit < 8 * marks.length)
    (hbit : bit % 8 ≠ 7) : After execCksum marks (bit + 1) s := by
  rw [After, if_pos hlt] at h
  rw [After, if_pos (by omega), (by omega : (bit + 1) / 8 = bit / 8)]
  exact h

private theorem After.unfinished {marks : List (UInt8 × Nat)} {bits : Nat} (h : After execCksum marks bits s)
    (hlt : bits < 8 * marks.length) : s.offered = tokensOf execCksum (sameCksum (marks.take (bits / 8))).dropLast := by
  rw [After, if_pos hlt] at h
  obtain ⟨pre, run, hpast, hgathered⟩ := h
  rw [← hpast]
  exact hgathered.unfinished

private theorem After.finished {marks : List (UInt8 × Nat)} (h : After execCksum marks (8 * marks.length) s) :
    s.offered = tokensOf execCksum (sameCksum marks) := by
  rwa [After, if_neg (Nat.lt_irrefl _)] at h

end Collector

variable {c : DetContext} {flip1Cksum : Nat → Nat} {inBuf tail : Bytes}

private theorem length_lastBitTrace : (lastBitTrace flip1Cksum inBuf).length = inBuf.length := List.length_mapIdx

private theorem noteBit_safe {bit : Nat} {E : List Bool} {n : Nat} {s : Collector} (hmode : c.dumbMode = false)
    (hbit : bit < 8 * inBuf.length) (h : Collector.After c.execCksum (lastBitTrace flip1Cksum inBuf) bit s) :
    Safe (noteBit c flip1Cksum inBuf.length bit (⟨inBuf ++ tail, E, n⟩, s)) fun s' => s'.1 = ⟨inBuf ++ tail, E, n⟩ ∧
      Collector.After c.execCksum (lastBitTrace flip1Cksum inBuf) (bit + 1) s'.2 := by
  have hpos : bit >>> 3 = bit / 8 := Nat.shiftRight_eq_div_pow bit 3
  have hrem : bit &&& 7 = bit % 8 := Nat.and_two_pow_sub_one_eq_mod bit 3
  have hend : inBuf.length <<< 3 = 8 * inBuf.length := by rw [Nat.shiftLeft_eq, Nat.mul_comm]
  have hbit' : bit < 8 * (lastBitTrace flip1Cksum inBuf).length := length_lastBitTrace ▸ hbit
  have hlt : bit / 8 < inBuf.length := by omega
  rw [noteBit, hpos, hrem, hend]
  refine Safe.ite (fun hlast => ?_) fun hother => Safe.pure ⟨rfl, h.skip hbit' fun he => hother ⟨hmode, he⟩⟩
  have hread : (inBuf ++ tail)[bit / 8]? = some inBuf[bit / 8] := by
    rw [List.getElem?_append_left hlt, List.getElem?_eq_getElem hlt]
  have htrace : (lastBitTrace flip1Cksum inBuf)[bit / 8]? = some (inBuf[bit / 8], flip1Cksum (bit / 8)) := by
    rw [lastBitTrace, List.getElem?_mapIdx, List.getElem?_eq_getElem hlt]
    rfl
  refine (safe_deref hread).bind ?_
  rintro _ rfl
  have hnote := h.note hbit' hlast.2 htrace
  rw [length_lastBitTrace] at hnote
  exact Safe.pure ⟨rfl, hnote⟩

/-- After so many bits, none of them with a reason to bail out. -/
structure Walked (c : DetContext) (flip1Cksum : Nat → Nat) (inBuf : Bytes) (s : DetState) (bits : Nat)
    (w : Walk (DetState × Collector) Bytes) : Prop where
  made : w.made = (flipCases inBuf 1).take bits
  kept : w.state.1 = s
  going : ∀ k < bits, c.bails ((flipCases inBuf 1).take (k + 1)) = false
  after : Collector.After c.execCksum (lastBitTrace flip1Cksum inBuf) bits w.state.2

/-- The test case of the next bit is the first one with a reason. -/
structure Abandoned (c : DetContext) (flip1Cksum : Nat → Nat) (inBuf : Bytes) (bits : Nat) (w : Walk (DetState × Collector) Bytes) :
    Prop where
  made : w.made = (flipCases inBuf 1).take (bits + 1)
  going : ∀ k < bits, c.bails ((flipCases inBuf 1).take (k + 1)) = false
  bailed : c.bails ((flipCases inBuf 1).take (bits + 1)) = true
  after : Collector.After c.execCksum (lastBitTrace flip1Cksum inBuf) bits w.state.2

private theorem take_flipCases {bit : Nat} (h : bit < 8 * inBuf.length) :
    (flipCases inBuf 1).take (bit + 1) = (flipCases inBuf 1).take bit ++ [xored inBuf (flipMask 1 bit)] := by
  have hget : (flipCases inBuf 1)[bit]? = some (xored inBuf (flipMask 1 bit)) := by
    rw [flipCases, List.getElem?_map, List.getElem?_range (by omega)]
    rfl
  rw [List.take_add_one, hget]
  rfl

/-- One bit. -/
private theorem walkingBit_round {E : List Bool} {n bit : Nat} (hmode : c.dumbMode = false) (hbit : bit < 8 * inBuf.length)
    {w : Walk (DetState × Collector) Bytes} (hw : w.stopped = false) (h : Walked c flip1Cksum inBuf ⟨inBuf ++ tail, E, n⟩ bit w) :
    Safe (seq (onFirst (flipped c inBuf.length (flipBits 1 bit))) (change (noteBit c flip1Cksum inBuf.length bit)) w) fun w' =>
      (w'.stopped = false → Walked c flip1Cksum inBuf ⟨inBuf ++ tail, E, n⟩ (bit + 1) w') ∧
      (w'.stopped = true → Abandoned c flip1Cksum inBuf bit w') := by
  obtain ⟨⟨_, s⟩, made, _⟩ := w
  obtain ⟨hmade, hkept, hgoing, hafter⟩ := h
  dsimp only at hmade hkept hafter hw
  subst hw hkept
  have hmask : flipMask 1 bit < 2 ^ (8 * inBuf.length) := flipMask_lt (by omega)
  have hbits (m : Bytes) (hm : m.length = inBuf.length) : Safe (flipBits 1 bit (m ++ tail)) (· = xored m (flipMask 1 bit) ++ tail) :=
    flipBits_safe (by omega) tail
  have hflip := @flipped_safe c inBuf tail _ _ E n hmask hbits made
  refine (safe_onFirst hflip).bind fun v ⟨⟨hmade', hstop, hback⟩, hs⟩ => ?_
  rw [hmade, ← take_flipCases hbit] at hmade'
  rw [hmade'] at hstop
  refine Safe.ite (fun hyes => Safe.pure ⟨fun hgo => ?_, fun _ => ⟨hmade', hgoing, hstop ▸ hyes, hs ▸ hafter⟩⟩) fun hno => ?_
  · rw [hyes] at hgo
    cases hgo
  have hno : v.stopped = false := Bool.eq_false_iff.mpr hno
  have hnote := @noteBit_safe c flip1Cksum inBuf tail bit E n s hmode hbit hafter
  have hstate : v.state = (⟨inBuf ++ tail, E, n⟩, s) := Prod.ext (hback hno) hs
  rw [← hstate] at hnote
  refine hnote.bind fun s' ⟨hkept', hafter'⟩ => Safe.pure ⟨fun _ => ⟨hmade', hkept', fun k hk => ?_, hafter'⟩, fun hyes => ?_⟩
  · rcases Nat.lt_succ_iff_lt_or_eq.mp hk with hk | rfl
    · exact hgoing k hk
    · exact hstop.symm.trans hno
  · exact absurd (hno.symm.trans hyes) Bool.false_ne_true

/-- By what a bit keeps. -/
private theorem walkingBit_safe {E : List Bool} {n : Nat} {junk : Bytes} (hjunk : junk.length = maxAutoExtra)
    (hmode : c.dumbMode = false) :
    Safe (walkingBit c flip1Cksum inBuf.length ⟨(⟨inBuf ++ tail, E, n⟩, ⟨junk, 0, c.execCksum, []⟩), [], false⟩) fun w =>
      (w.stopped = false → Walked c flip1Cksum inBuf ⟨inBuf ++ tail, E, n⟩ (8 * inBuf.length) w) ∧
      (w.stopped = true → ∃ bit, bit < 8 * inBuf.length ∧ Abandoned c flip1Cksum inBuf bit w) := by
  have hstart : Walked c flip1Cksum inBuf ⟨inBuf ++ tail, E, n⟩ 0
      ⟨(⟨inBuf ++ tail, E, n⟩, ⟨junk, 0, c.execCksum, []⟩), [], false⟩ :=
    ⟨rfl, rfl, fun k hk => absurd hk (Nat.not_lt_zero k), Collector.After.start hjunk⟩
  rw [walkingBit, Nat.shiftLeft_eq, Nat.mul_comm]
  exact safe_each_range (Walked c flip1Cksum inBuf ⟨inBuf ++ tail, E, n⟩) (fun bit w hbit hw h => walkingBit_round hmode hbit hw h) rfl hstart

/-- What `maybe_add_auto` is called with in the stage 1/1, in order: the longest runs of bytes whose flips change the trace in
one and the same way, of three bytes at least and 32 at most, those at the end of the file included. Where the entry is
abandoned it is such runs of the bytes noted by then, the last of the runs left out. -/
theorem collected_tokens_eq (c : DetContext) {junk : Bytes} (hjunk : junk.length = maxAutoExtra) (hmode : c.dumbMode = false)
    (flip1Cksum : Nat → Nat) (inBuf tail : Bytes) (E : List Bool) (n : Nat) :
    Safe (walkingBit c flip1Cksum inBuf.length ⟨(⟨inBuf ++ tail, E, n⟩, ⟨junk, 0, c.execCksum, []⟩), [], false⟩) fun w =>
      (w.stopped = false → w.made = flipCases inBuf 1 ∧ w.state.1 = ⟨inBuf ++ tail, E, n⟩ ∧
        (∀ k < 8 * inBuf.length, c.bails ((flipCases inBuf 1).take (k + 1)) = false) ∧
        w.state.2.offered = tokensOf c.execCksum (sameCksum (lastBitTrace flip1Cksum inBuf))) ∧
      (w.stopped = true → ∃ bit < 8 * inBuf.length, w.made = (flipCases inBuf 1).take (bit + 1) ∧
        (∀ k < bit, c.bails ((flipCases inBuf 1).take (k + 1)) = false) ∧ c.bails ((flipCases inBuf 1).take (bit + 1)) = true ∧
        w.state.2.offered = tokensOf c.execCksum (sameCksum ((lastBitTrace flip1Cksum inBuf).take (bit / 8))).dropLast) := by
  refine (walkingBit_safe hjunk hmode).mono ?_
  rintro w ⟨hgo, hstop⟩
  refine ⟨fun h => ?_, fun h => ?_⟩
  · obtain ⟨hmade, hkept, hgoing, hafter⟩ := hgo h
    have hlen : (flipCases inBuf 1).length = 8 * inBuf.length := by rw [flipCases, List.length_map, List.length_range, Nat.sub_self, Nat.sub_zero]
    rw [← hlen, List.take_length] at hmade
    rw [← length_lastBitTrace] at hafter
    exact ⟨hmade, hkept, hgoing, hafter.finished⟩
  · obtain ⟨bit, hbit, hmade, hgoing, hbailed, hafter⟩ := hstop h
    exact ⟨bit, hbit, hmade, hgoing, hbailed, hafter.unfinished (length_lastBitTrace.symm ▸ hbit)⟩

private def getPut : Bytes := [0x47, 0x45, 0x54, 0x78, 0x50, 0x55, 0x54, 0x78]

/-- The flips in `GET` have one effect, those in `PUT` another. -/
private def getPutCksum (i : Nat) : Nat := if i < 3 then 7 else if i = 3 ∨ i = 7 then 1 else 8

private def getPutWalk (bails : List Bytes → Bool) : Draws (Walk (DetState × Collector) Bytes) :=
  walkingBit ⟨false, false, 1, fun _ => 1, bails⟩ getPutCksum 8 ⟨(⟨getPut, [], 0⟩, ⟨List.replicate 32 0, 0, 1, []⟩), [], false⟩

/-- `GETxPUTx`: both tokens, but only the first where the entry is abandoned in the last byte. -/
theorem collected_tokens_eq_magic :
    Safe (getPutWalk fun _ => false) (fun w => w.state.2.offered = [[0x47, 0x45, 0x54], [0x50, 0x55, 0x54]]) ∧
    Safe (getPutWalk fun made => 60 ≤ made.length) (fun w => w.state.2.offered = [[0x47, 0x45, 0x54]] ∧ w.made.length = 60) := by
  constructor
  · refine (collected_tokens_eq _ (by decide) rfl getPutCksum getPut [] [] 0).mono fun w h => ?_
    cases hw : w.stopped with
    | true =>
      obtain ⟨bit, -, -, -, hbailed, -⟩ := h.2 hw
      exact absurd hbailed Bool.false_ne_true
    | false =>
      rw [(h.1 hw).2.2.2]
      decide
  · refine (collected_tokens_eq _ (by decide) rfl getPutCksum getPut [] [] 0).mono fun w h => ?_
    have hlen (bit : Nat) : ((flipCases getPut 1).take (bit + 1)).length = min (bit + 1) 64 := by
      rw [List.length_take, flipCases, List.length_map, List.length_range]
      rfl
    have hsixty : ¬ (decide (60 ≤ ((flipCases getPut 1).take (59 + 1)).length)) = false := by
      rw [hlen]
      decide
    cases hw : w.stopped with
    | true =>
      obtain ⟨bit, hbit, hmade, hgoing, hbailed, hoffered⟩ := h.2 hw
      have hlate : 60 ≤ min (bit + 1) 64 := hlen bit ▸ of_decide_eq_true hbailed
      have hfirst : bit = 59 := by
        by_contra hne
        exact hsixty (hgoing 59 (by omega))
      subst hfirst
      rw [hmade, hlen, hoffered]
      decide
    | false => exact absurd ((h.1 hw).2.2.1 59 (by decide)) hsixty

end LtlFuzzer.Aflgo
