import LtlFuzzer.Aflgo.DeterministicStages

/-! What the deterministic stages run: the test cases one by one, and the buffer as it was after each stage. -/
namespace LtlFuzzer.Aflgo
open Foundation Draws Walk
variable {c : DetContext} {inBuf tail : Bytes}

private theorem wordAt_singleton (b : UInt8) : wordAt [b] = b.toNat := by rw [wordAt, wordAt, Nat.mul_zero, Nat.add_zero]

theorem flipOne_safe {m : Bytes} {bit : Nat} (h : bit < 8 * m.length) (tail : Bytes) :
    Safe (flipOne (m ++ tail) bit) (· = xored m (2 ^ lsb bit) ++ tail) := by
  have hpos : bit >>> 3 = bit / 8 := Nat.shiftRight_eq_div_pow bit 3
  have hrem : bit &&& 7 = bit % 8 := Nat.and_two_pow_sub_one_eq_mod bit 3
  have hlt : bit / 8 < m.length := by omega
  have hold : (((m ++ tail).drop (bit / 8)).take 1) = [m[bit / 8]] := by
    rw [List.drop_append_of_le_length (Nat.le_of_lt hlt), List.drop_eq_getElem_cons hlt]
    rfl
  have hbyte : (128 >>> UInt8.ofNat (bit % 8) : UInt8).toNat = 2 ^ (7 - bit % 8) := by
    have : ∀ r < 8, (128 >>> UInt8.ofNat r : UInt8).toNat = 2 ^ (7 - r) := by decide
    exact this _ (Nat.mod_lt _ (by decide))
  rw [flipOne, hpos, hrem]
  refine (safe_readBlock (by rw [List.length_append]; omega)).bind ?_
  rintro _ rfl
  rw [hold]
  refine (safe_writeBlock (by rw [List.length_append, List.length_map, List.length_singleton]; omega)).mono ?_
  rintro _ rfl
  have hfit : bit / 8 + ([m[bit / 8]].map (· ^^^ (128 >>> UInt8.ofNat (bit % 8)))).length ≤ m.length := hlt
  rw [overwrite_append hfit, overwrite_eq_xored hfit]
  congr 2
  have htake : (m.drop (bit / 8)).take ([m[bit / 8]].map (· ^^^ (128 >>> UInt8.ofNat (bit % 8)))).length = [m[bit / 8]] := by
    rw [List.drop_eq_getElem_cons hlt]
    rfl
  rw [htake, List.map_cons, List.map_nil, wordAt_singleton, wordAt_singleton, UInt8.toNat_xor, hbyte, ← Nat.xor_assoc, Nat.xor_self, Nat.zero_xor, ← Nat.pow_add, lsb, Nat.add_comm]

theorem flipMask_lt {n bit len : Nat} (h : bit + n ≤ 8 * len) : flipMask n bit < 2 ^ (8 * len) := by
  apply Nat.lt_pow_two_of_testBit
  intro i hi
  rw [testBit_flipMask, lsb]
  exact decide_eq_false (by omega)

theorem flipBits_safe {m : Bytes} {n bit : Nat} (h : bit + n ≤ 8 * m.length) (tail : Bytes) :
    Safe (flipBits n bit (m ++ tail)) (· = xored m (flipMask n bit) ++ tail) := by
  induction n with
  | zero =>
    rw [flipBits, List.range_zero, flipMask, List.range_zero, List.foldl_nil, xored_zero]
    exact Safe.pure rfl
  | succ n ih =>
    rw [flipBits, List.range_succ, List.foldlM_append, ← flipBits]
    refine (ih (by omega)).bind ?_
    rintro _ rfl
    have hbit : bit + n < 8 * (xored m (flipMask n bit)).length := by
      rw [length_xored]
      omega
    have hmask : flipMask (n + 1) bit = flipMask n bit ^^^ 2 ^ lsb (bit + n) := by
      rw [flipMask, List.range_succ, List.foldl_append, List.foldl_cons, List.foldl_nil, ← flipMask]
    rw [List.foldlM_cons]
    refine (flipOne_safe hbit tail).bind ?_
    rintro _ rfl
    rw [xored_xored (flipMask_lt (by omega)), ← hmask]
    exact Safe.pure rfl

theorem flipWord_safe {m : Bytes} {w i : Nat} (h : i + w ≤ m.length) (tail : Bytes) :
    Safe (flipWord w i (m ++ tail)) (· = xored m (bitRun (8 * w) (8 * i)) ++ tail) := by
  have hlen : ((m.drop i).take w).length = w := List.length_take_of_le (by rw [List.length_drop]; omega)
  have hold : ((m ++ tail).drop i).take w = (m.drop i).take w := by
    rw [List.drop_append_of_le_length (by omega), List.take_append_of_le_length (by rw [List.length_drop]; omega)]
  refine (safe_readBlock (by rw [List.length_append]; omega)).bind ?_
  rintro _ rfl
  rw [hold]
  refine (safe_writeBlock (by rw [List.length_append, List.length_map, hlen]; omega)).mono ?_
  rintro _ rfl
  have hfit : i + (((m.drop i).take w).map (· ^^^ 0xff)).length ≤ m.length := by rwa [List.length_map, hlen]
  rw [overwrite_append hfit, overwrite_eq_xored hfit, List.length_map, hlen, wordAt_map_flip, hlen, ← bitRun]

private theorem onBuf_safe {f : Bytes → Draws Bytes} {b b' : Bytes} (E : List Bool) (n : Nat) (h : Safe (f b) (· = b')) :
    Safe (onBuf f ⟨b, E, n⟩) (· = ⟨b', E, n⟩) := by
  refine h.bind ?_
  rintro _ rfl
  exact Safe.pure rfl

private theorem fuzzStuff_makes {m : Bytes} (hm : m.length = inBuf.length) (E : List Bool) (n : Nat) :
    Makes (· = ⟨m ++ tail, E, n⟩) [m] (· = ⟨m ++ tail, E, n⟩) (fuzzStuff c inBuf.length) := by
  refine Makes.make ?_
  rintro _ rfl
  refine (safe_readBlock (by rw [List.length_append]; omega)).mono ?_
  rintro _ rfl
  rw [List.drop_zero, ← hm, List.take_left]

private theorem change_makes {f : Bytes → Draws Bytes} {b b' : Bytes} (E : List Bool) (n : Nat) (h : Safe (f b) (· = b')) :
    Makes (· = ⟨b, E, n⟩) ([] : List Bytes) (· = ⟨b', E, n⟩) (change (onBuf f)) := by
  refine Makes.change ?_
  rintro _ rfl
  exact onBuf_safe E n h

/-- A test case, and the buffer as it was unless the entry is abandoned. -/
theorem flipped_safe {flip : Bytes → Draws Bytes} {mask : Nat} {E : List Bool} {n : Nat} (hmask : mask < 2 ^ (8 * inBuf.length))
    (hflip : ∀ m : Bytes, m.length = inBuf.length → Safe (flip (m ++ tail)) (· = xored m mask ++ tail)) (made : List Bytes) :
    Safe (flipped c inBuf.length flip ⟨⟨inBuf ++ tail, E, n⟩, made, false⟩) fun w =>
      w.made = made ++ [xored inBuf mask] ∧ w.stopped = c.bails w.made ∧ (w.stopped = false → w.state = ⟨inBuf ++ tail, E, n⟩) := by
  have hlen : (xored inBuf mask).length = inBuf.length := length_xored _ _
  have hback := hflip (xored inBuf mask) hlen
  rw [xored_xored hmask, Nat.xor_self, xored_zero] at hback
  have hthere : Safe (change (onBuf flip) (⟨⟨inBuf ++ tail, E, n⟩, made, false⟩ : Walk DetState Bytes))
      (· = ⟨⟨xored inBuf mask ++ tail, E, n⟩, made, false⟩) := by
    refine (onBuf_safe E n (hflip inBuf rfl)).bind ?_
    rintro _ rfl
    exact Safe.pure rfl
  have hrun : Safe (fuzzStuff c inBuf.length ⟨⟨xored inBuf mask ++ tail, E, n⟩, made, false⟩)
      (· = ⟨⟨xored inBuf mask ++ tail, E, n⟩, made ++ [xored inBuf mask], c.bails (made ++ [xored inBuf mask])⟩) := by
    refine (safe_readBlock (by rw [List.length_append]; omega)).bind ?_
    rintro _ rfl
    rw [List.drop_zero, ← hlen, List.take_left]
    exact Safe.pure rfl
  refine hthere.bind ?_
  rintro _ rfl
  refine hrun.bind ?_
  rintro _ rfl
  refine Safe.ite (fun hstop => Safe.pure ⟨rfl, rfl, fun hgo => ?_⟩) fun hgo => ?_
  · rw [hstop] at hgo
    cases hgo
  · refine (onBuf_safe E n hback).bind ?_
    rintro _ rfl
    exact Safe.pure ⟨rfl, rfl, fun _ => rfl⟩

theorem flipped_makes {flip : Bytes → Draws Bytes} {mask : Nat} (E : List Bool) (n : Nat) (hmask : mask < 2 ^ (8 * inBuf.length))
    (hflip : ∀ m : Bytes, m.length = inBuf.length → Safe (flip (m ++ tail)) (· = xored m mask ++ tail)) :
    Makes (· = ⟨inBuf ++ tail, E, n⟩) [xored inBuf mask] (· = ⟨inBuf ++ tail, E, n⟩) (flipped c inBuf.length flip) := by
  rintro ⟨_, made, _⟩ rfl rfl
  exact (flipped_safe hmask hflip made).mono fun w ⟨hmade, _, hback⟩ => ⟨hmade ▸ List.prefix_rfl, fun hgo => ⟨hmade, hback hgo⟩⟩

theorem bitflip_makes (E : List Bool) (k : Nat) {n : Nat} (hn : 0 < n) :
    Makes (· = ⟨inBuf ++ tail, E, k⟩) ((List.range (8 * inBuf.length - (n - 1))).map fun bit => xored inBuf (flipMask n bit))
      (· = ⟨inBuf ++ tail, E, k⟩) (bitflip c inBuf.length n) := by
  rw [bitflip, Nat.shiftLeft_eq, Nat.mul_comm, List.map_eq_flatMap]
  refine Makes.each fun bit hbit => ?_
  have hbit := List.mem_range.mp hbit
  exact flipped_makes E k (flipMask_lt (by omega)) fun m hm => flipBits_safe (by omega) tail

/-- Whether a byte of the word is in an effective block. -/
def effAny (E : List Bool) (w i : Nat) : Bool := (List.range w).any fun k => E.getD (effApos (i + k)) false

theorem effApos_lt {p len : Nat} (h : p < len) : effApos p < effAlen len := by
  have hp : effApos p = p / 8 := Nat.shiftRight_eq_div_pow p 3
  have hl : effApos len = len / 8 := Nat.shiftRight_eq_div_pow len 3
  have hrem : len &&& 7 = len % 8 := Nat.and_two_pow_sub_one_eq_mod len 3
  rw [effAlen, hp, hl, hrem]
  split_ifs <;> omega

private theorem effective_safe {w i : Nat} {s : DetState} (hE : s.effMap.length = effAlen inBuf.length) (hi : i + w ≤ inBuf.length) :
    Safe (effective w i s) (· = effAny s.effMap w i) := by
  refine Safe.anyM fun k hk => ?_
  have hk := List.mem_range.mp hk
  have hlt : effApos (i + k) < s.effMap.length := hE ▸ effApos_lt (by omega)
  rw [List.getD_eq_getElem?_getD, List.getElem?_eq_getElem hlt, Option.getD_some]
  exact safe_deref rfl

/-- The test cases of a stage over words. -/
def stageCases (E : List Bool) (len w : Nat) (cases : Nat → List Bytes) : List Bytes :=
  (List.range (len - (w - 1))).flatMap fun i => if effAny E w i then cases i else []

theorem wordStage_makes {E : List Bool} {n w : Nat} (hw : 0 < w) (hE : E.length = effAlen inBuf.length)
    {round : Nat → Walk DetState Bytes → Draws (Walk DetState Bytes)} {cases : Nat → List Bytes}
    (hround : ∀ i, i + w ≤ inBuf.length → Makes (· = ⟨inBuf ++ tail, E, n⟩) (cases i) (· = ⟨inBuf ++ tail, E, n⟩) (round i)) :
    Makes (· = ⟨inBuf ++ tail, E, n⟩) (stageCases E inBuf.length w cases) (· = ⟨inBuf ++ tail, E, n⟩)
      (wordStage inBuf.length w round) := by
  rw [wordStage]
  split_ifs with hshort
  · rw [stageCases, Nat.sub_eq_zero_of_le (by omega : inBuf.length ≤ w - 1)]
    exact Makes.pure
  · refine Makes.each fun i hi => ?_
    have hi : i + w ≤ inBuf.length := by
      have := List.mem_range.mp hi
      omega
    refine Makes.read (a := effAny E w i) (g := fun flagged walk => if flagged then round i walk else pure walk) ?_ ?_
    · rintro _ rfl
      exact effective_safe hE hi
    · cases effAny E w i with
      | true => exact hround i hi
      | false => exact Makes.pure

/-- The file with a word set. -/
def withWord (inBuf : Bytes) (w i v : Nat) : Bytes := overwrite inBuf i (wordBytes w v)

def wordOf (inBuf : Bytes) (w i : Nat) : Nat := wordAt ((inBuf.drop i).take w)

private theorem putWord_safe {bs : Bytes} {w i : Nat} (hbs : bs.length = w) (hi : i + w ≤ inBuf.length) (v : Nat) :
    Safe (putWord w i v (overwrite inBuf i bs ++ tail)) (· = withWord inBuf w i v ++ tail) := by
  have hlen : (overwrite inBuf i bs).length = inBuf.length := length_overwrite (by omega)
  refine (safe_writeBlock (by rw [List.length_append, length_wordBytes]; omega)).mono ?_
  rintro _ rfl
  rw [overwrite_append (by rw [length_wordBytes]; omega), overwrite_overwrite (by omega) (by rw [length_wordBytes, hbs]), ← withWord]

theorem withWord_wordOf {w i : Nat} (hi : i + w ≤ inBuf.length) : withWord inBuf w i (wordOf inBuf w i) = inBuf := by
  have hlen : ((inBuf.drop i).take w).length = w := List.length_take_of_le (by rw [List.length_drop]; omega)
  have hbytes := wordBytes_wordAt ((inBuf.drop i).take w)
  rw [hlen] at hbytes
  rw [withWord, wordOf, hbytes, overwrite_self]

theorem tryWords_makes (E : List Bool) (n : Nat) {w i : Nat} (hi : i + w ≤ inBuf.length) (news : List Nat) :
    Makes (· = ⟨inBuf ++ tail, E, n⟩) (news.map (withWord inBuf w i)) (· = ⟨inBuf ++ tail, E, n⟩)
      (tryWords c inBuf.length w i (wordOf inBuf w i) news) := by
  let At : DetState → Prop := fun s => ∃ bs : Bytes, bs.length = w ∧ s = ⟨overwrite inBuf i bs ++ tail, E, n⟩
  have hput (v : Nat) : Makes At ([] : List Bytes) (· = ⟨withWord inBuf w i v ++ tail, E, n⟩) (change (onBuf (putWord w i v))) := by
    refine Makes.change ?_
    rintro _ ⟨bs, hbs, rfl⟩
    exact onBuf_safe E n (putWord_safe hbs hi v)
  have htry (v : Nat) : Makes At [withWord inBuf w i v] At (seq (change (onBuf (putWord w i v))) (fuzzStuff c inBuf.length)) := by
    have hlen : (withWord inBuf w i v).length = inBuf.length := length_overwrite (by rw [length_wordBytes]; exact hi)
    refine ((hput v).seq (fuzzStuff_makes hlen E n)).mono (fun _ h => h) ?_
    rintro _ rfl
    exact ⟨wordBytes w v, length_wordBytes w v, rfl⟩
  have hback := hput (wordOf inBuf w i)
  rw [withWord_wordOf hi] at hback
  have hall := (Makes.each (l := news) fun v _ => htry v).seq hback
  rw [List.append_nil, ← List.map_eq_flatMap] at hall
  refine hall.mono ?_ fun _ h => h
  rintro _ rfl
  refine ⟨(inBuf.drop i).take w, List.length_take_of_le (by rw [List.length_drop]; omega), ?_⟩
  rw [overwrite_self]

private theorem readWord_safe (E : List Bool) (n : Nat) {w i : Nat} (hi : i + w ≤ inBuf.length) (s : DetState)
    (hs : s = ⟨inBuf ++ tail, E, n⟩) : Safe (readBlock s.outBuf i w) (· = (inBuf.drop i).take w) := by
  subst hs
  refine (safe_readBlock (by rw [List.length_append]; omega)).mono ?_
  rintro _ rfl
  rw [List.drop_append_of_le_length (by omega), List.take_append_of_le_length (by rw [List.length_drop]; omega)]

def arithCases (inBuf : Bytes) (w i : Nat) : List Bytes :=
  (List.range' 1 arithMax).flatMap fun num => (arithNews w (wordOf inBuf w i) num).map (withWord inBuf w i)

def interestCases (inBuf : Bytes) (w i : Nat) : List Bytes :=
  (interestTable w).flatMap fun n => (interestNews w (wordOf inBuf w i) n).map (withWord inBuf w i)

theorem arithRound_makes (E : List Bool) (n : Nat) {w i : Nat} (hi : i + w ≤ inBuf.length) :
    Makes (· = ⟨inBuf ++ tail, E, n⟩) (arithCases inBuf w i) (· = ⟨inBuf ++ tail, E, n⟩) (arithRound c inBuf.length w i) :=
  Makes.read (g := fun old walk =>
    each (fun num => tryWords c inBuf.length w i (wordAt old) (arithNews w (wordAt old) num)) (List.range' 1 arithMax) walk)
    (readWord_safe E n hi) (Makes.each fun _ _ => tryWords_makes E n hi _)

theorem interestRound_makes (E : List Bool) (n : Nat) {w i : Nat} (hi : i + w ≤ inBuf.length) :
    Makes (· = ⟨inBuf ++ tail, E, n⟩) (interestCases inBuf w i) (· = ⟨inBuf ++ tail, E, n⟩) (interestRound c inBuf.length w i) := by
  refine Makes.read (g := fun old walk =>
    if w = 1 then each (fun n => tryWords c inBuf.length w i (wordAt old) (interestNews w (wordAt old) n)) (interestTable w) walk
    else tryWords c inBuf.length w i (wordAt old) ((interestTable w).flatMap (interestNews w (wordAt old))) walk)
    (readWord_safe E n hi) ?_
  split_ifs
  · exact Makes.each fun _ _ => tryWords_makes E n hi _
  · have hall := @tryWords_makes c inBuf tail E n w i hi ((interestTable w).flatMap (interestNews w (wordOf inBuf w i)))
    rwa [List.map_flatMap] at hall
section
variable (c) (len : Nat)

/-- The blocks flagged after these bytes were flipped: the first, the last and those where the checksum changed. -/
def flaggedMap (past : List Nat) : List Bool := (List.range (effAlen len)).map fun k =>
  k = 0 || k = effApos (len - 1) || past.any fun i => effApos i = k && effCksum c len i ≠ c.execCksum

/-- The effector map that the later stages consult. -/
def effectorMap : List Bool :=
  let m := flaggedMap c len (List.range len)
  if m.count true ≠ effAlen len ∧ effMaxPerc < m.count true * 100 / effAlen len then List.replicate (effAlen len) true else m

end

theorem length_effectorMap (c : DetContext) (len : Nat) : (effectorMap c len).length = effAlen len := by
  rw [effectorMap]
  split_ifs
  · exact List.length_replicate
  · rw [flaggedMap, List.length_map, List.length_range]

private theorem overwrite_singleton {β : Type} {m : List β} {pos : Nat} (h : pos < m.length) (b : β) : overwrite m pos [b] = m.set pos b := by
  rw [overwrite, List.set_eq_take_append_cons_drop, if_pos h, List.append_assoc]
  rfl

private theorem flag_makes {m : List Bool} {pos : Nat} (h : pos < m.length) : Safe (writeBlock m pos [true]) (· = m.set pos true) := by
  refine (safe_writeBlock h).mono ?_
  rintro _ rfl
  exact overwrite_singleton h true

private theorem flaggedMap_append (len : Nat) (past : List Nat) (i : Nat) :
    flaggedMap c len (past ++ [i]) =
      if effCksum c len i ≠ c.execCksum then (flaggedMap c len past).set (effApos i) true else flaggedMap c len past := by
  have hlen (past : List Nat) : (flaggedMap c len past).length = effAlen len := by rw [flaggedMap, List.length_map, List.length_range]
  split_ifs with hne
  · refine List.ext_getElem (by rw [List.length_set, hlen, hlen]) fun k h₁ h₂ => ?_
    rw [List.getElem_set]
    simp only [flaggedMap, List.getElem_map, List.getElem_range, List.any_append, List.any_cons, List.any_nil]
    split_ifs with hk
    · simp [hk, hne]
    · simp [hk]
  · rw [flaggedMap, flaggedMap]
    refine List.map_congr_left fun k _ => ?_
    simp [not_not.mp hne]

private theorem initEffector_safe {len : Nat} (hlen : 0 < len) (s : DetState) :
    Safe (initEffector len s) (· = ⟨s.outBuf, flaggedMap c len [], (flaggedMap c len []).count true⟩) := by
  have hfirst : 0 < (List.replicate (effAlen len) false).length := by
    rw [List.length_replicate]
    exact Nat.lt_of_le_of_lt (Nat.zero_le _) (effApos_lt hlen)
  have hlast : effApos (len - 1) < ((List.replicate (effAlen len) false).set 0 true).length := by
    rw [List.length_set, List.length_replicate]
    exact effApos_lt (by omega)
  have hmap : flaggedMap c len [] = ((List.replicate (effAlen len) false).set 0 true).set (effApos (len - 1)) true := by
    refine List.ext_getElem (by simp [flaggedMap]) fun k h₁ h₂ => ?_
    simp only [flaggedMap, List.getElem_map, List.getElem_range, List.any_nil, List.getElem_set, List.getElem_replicate]
    grind
  rw [initEffector]
  refine (flag_makes hfirst).bind ?_
  rintro _ rfl
  split_ifs with hne
  · refine (flag_makes hlast).bind ?_
    rintro _ rfl
    refine Safe.pure (DetState.mk.injEq .. ▸ ⟨rfl, hmap.symm, ?_⟩)
    have hother : ((List.replicate (effAlen len) false).set 0 true)[effApos (len - 1)] = false := by
      rw [List.getElem_set_ne (Ne.symm hne), List.getElem_replicate]
    rw [hmap, List.count_set hlast, hother, List.count_set hfirst, List.count_replicate, List.getElem_replicate]
    rfl
  · have hzero := not_not.mp hne
    have hmap' : flaggedMap c len [] = (List.replicate (effAlen len) false).set 0 true := by
      rw [hmap, hzero, List.set_set]
    refine Safe.pure (DetState.mk.injEq .. ▸ ⟨rfl, hmap'.symm, ?_⟩)
    rw [hmap', List.count_set hfirst, List.count_replicate, List.getElem_replicate]
    rfl

private theorem noteEffector_safe {len i : Nat} (hi : i < len) (past : List Nat) (b : Bytes) :
    Safe (noteEffector c len i ⟨b, flaggedMap c len past, (flaggedMap c len past).count true⟩)
      (· = ⟨b, flaggedMap c len (past ++ [i]), (flaggedMap c len (past ++ [i])).count true⟩) := by
  have hlt : effApos i < (flaggedMap c len past).length := by
    rw [flaggedMap, List.length_map, List.length_range]
    exact effApos_lt hi
  have happend := flaggedMap_append (c := c) len past i
  refine (safe_deref (List.getElem?_eq_getElem hlt)).bind ?_
  rintro _ rfl
  split_ifs with hflag hne
  · have hsame : flaggedMap c len (past ++ [i]) = flaggedMap c len past := by
      rw [happend]
      split_ifs
      · rw [← hflag, List.set_getElem_self]
      · rfl
    rw [hsame]
    exact Safe.pure rfl
  · rw [if_pos hne] at happend
    refine (flag_makes hlt).bind ?_
    rintro _ rfl
    refine Safe.pure (DetState.mk.injEq .. ▸ ⟨rfl, happend.symm, ?_⟩)
    rw [happend, List.count_set hlt, Bool.eq_false_iff.mpr hflag]
    rfl
  · rw [happend, if_neg hne]
    exact Safe.pure rfl

/-- The stage 8/8 leaves the effector map. -/
theorem byteflip_makes (hin : 0 < inBuf.length) (s : DetState) (hs : s.outBuf = inBuf ++ tail) :
    ∃ n, Makes (· = s) ((List.range inBuf.length).map fun i => xored inBuf (bitRun 8 (8 * i)))
      (· = ⟨inBuf ++ tail, effectorMap c inBuf.length, n⟩) (byteflip c inBuf.length) := by
  let S (past : List Nat) (s : DetState) : Prop :=
    s = ⟨inBuf ++ tail, flaggedMap c inBuf.length past, (flaggedMap c inBuf.length past).count true⟩
  refine ⟨(flaggedMap c inBuf.length (List.range inBuf.length)).count true, ?_⟩
  have hinit : Makes (· = s) ([] : List Bytes) (S []) (change (initEffector inBuf.length)) := by
    refine Makes.change fun s' hs' => (@initEffector_safe c _ hin s').mono fun r hr => ?_
    rw [hr, hs', hs]
  have hround (past : List Nat) {i : Nat} (hi : i < inBuf.length) : Makes (S past) [xored inBuf (bitRun 8 (8 * i))] (S (past ++ [i]))
      (seq (change (onBuf (flipWord 1 i))) (seq (fuzzStuff c inBuf.length)
        (seq (change (noteEffector c inBuf.length i)) (change (onBuf (flipWord 1 i)))))) := by
    have hmask : bitRun 8 (8 * i) < 2 ^ (8 * inBuf.length) := bitRun_lt (by omega)
    have hflip := @flipWord_safe inBuf 1 i hi tail
    have hback := @flipWord_safe (xored inBuf (bitRun 8 (8 * i))) 1 i (by rw [length_xored]; exact hi) tail
    rw [xored_xored hmask, Nat.xor_self, xored_zero] at hback
    have hnote : Makes (· = ⟨xored inBuf (bitRun 8 (8 * i)) ++ tail, flaggedMap c inBuf.length past,
        (flaggedMap c inBuf.length past).count true⟩) ([] : List Bytes) (· = ⟨xored inBuf (bitRun 8 (8 * i)) ++ tail,
        flaggedMap c inBuf.length (past ++ [i]), (flaggedMap c inBuf.length (past ++ [i])).count true⟩)
        (change (noteEffector c inBuf.length i)) := by
      refine Makes.change ?_
      rintro _ rfl
      exact noteEffector_safe hi past _
    exact (change_makes _ _ hflip).seq ((fuzzStuff_makes (length_xored _ _) _ _).seq (hnote.seq (change_makes _ _ hback)))
  have hfill : Makes (S (List.range inBuf.length)) ([] : List Bytes)
      (· = ⟨inBuf ++ tail, effectorMap c inBuf.length, (flaggedMap c inBuf.length (List.range inBuf.length)).count true⟩)
      (change fun s => pure (fillEffector inBuf.length s)) := by
    refine Makes.change ?_
    rintro _ rfl
    refine Safe.pure ?_
    rw [fillEffector, effectorMap]
    dsimp only
    split_ifs <;> rfl
  have hall := hinit.seq ((Makes.each_history S fun past i hi => hround past (List.mem_range.mp (hi.mem (by simp)))).seq hfill)
  rwa [List.nil_append, List.append_nil, ← List.map_eq_flatMap] at hall

/-- The test cases of the stages, in their order. -/
def flipCases (inBuf : Bytes) (n : Nat) : List Bytes :=
  (List.range (8 * inBuf.length - (n - 1))).map fun bit => xored inBuf (flipMask n bit)

def wordFlips (inBuf : Bytes) (w i : Nat) : List Bytes := [xored inBuf (bitRun (8 * w) (8 * i))]

section
variable (c) (inBuf)

def longerWords (cases : Nat → Nat → List Bytes) : List Bytes :=
  let E := effectorMap c inBuf.length
  stageCases E inBuf.length 2 (cases 2) ++ stageCases E inBuf.length 4 (cases 4)

def bytesOnly (cases : Nat → Nat → List Bytes) : List Bytes :=
  stageCases (effectorMap c inBuf.length) inBuf.length 1 (cases 1)

def wordCases : List Bytes :=
  (flipCases inBuf 1 ++ (flipCases inBuf 2 ++ flipCases inBuf 4)) ++
    ((((List.range inBuf.length).map fun i => xored inBuf (bitRun 8 (8 * i))) ++ longerWords c inBuf (wordFlips inBuf)) ++
      ((if c.noArith then [] else bytesOnly c inBuf (arithCases inBuf) ++ longerWords c inBuf (arithCases inBuf)) ++
        (bytesOnly c inBuf (interestCases inBuf) ++ if c.noArith then [] else longerWords c inBuf (interestCases inBuf))))

end

theorem wordStages_makes (hin : 0 < inBuf.length) (s : DetState) (hs : s.outBuf = inBuf ++ tail) :
    Makes (· = s) (wordCases c inBuf) (·.outBuf = inBuf ++ tail) (wordStages c inBuf.length) := by
  obtain ⟨b, E₀, n₀⟩ := s
  obtain rfl : b = inBuf ++ tail := hs
  obtain ⟨n, hbyte⟩ := @byteflip_makes c inBuf tail hin ⟨inBuf ++ tail, E₀, n₀⟩ rfl
  have hE := length_effectorMap c inBuf.length
  have hflips {k : Nat} (hk : 0 < k) : Makes (· = ⟨inBuf ++ tail, E₀, n₀⟩) (flipCases inBuf k) (· = ⟨inBuf ++ tail, E₀, n₀⟩)
      (bitflip c inBuf.length k) := bitflip_makes E₀ n₀ hk
  have hbits := (hflips (by decide : 0 < 1)).seq ((hflips (by decide : 0 < 2)).seq (hflips (by decide : 0 < 4)))
  have hflip (w i : Nat) (hi : i + w ≤ inBuf.length) : Makes (· = ⟨inBuf ++ tail, effectorMap c inBuf.length, n⟩) (wordFlips inBuf w i)
      (· = ⟨inBuf ++ tail, effectorMap c inBuf.length, n⟩) (flipped c inBuf.length (flipWord w i)) :=
    flipped_makes _ n (bitRun_lt (by omega)) fun m hm => flipWord_safe (by omega) tail
  have hwords := hbyte.seq ((wordStage_makes (by decide : 0 < 2) hE (hflip 2)).seq (wordStage_makes (by decide : 0 < 4) hE (hflip 4)))
  have hstages {round : Nat → Nat → Walk DetState Bytes → Draws (Walk DetState Bytes)} {cases : Nat → Nat → List Bytes}
      (h : ∀ w i, i + w ≤ inBuf.length → Makes (· = ⟨inBuf ++ tail, effectorMap c inBuf.length, n⟩) (cases w i)
        (· = ⟨inBuf ++ tail, effectorMap c inBuf.length, n⟩) (round w i)) :
      Makes (· = ⟨inBuf ++ tail, effectorMap c inBuf.length, n⟩) (longerWords c inBuf cases)
        (· = ⟨inBuf ++ tail, effectorMap c inBuf.length, n⟩)
        (seq (wordStage inBuf.length 2 (round 2)) (wordStage inBuf.length 4 (round 4))) :=
    (wordStage_makes (by decide) hE (h 2)).seq (wordStage_makes (by decide) hE (h 4))
  have harith : Makes (· = ⟨inBuf ++ tail, effectorMap c inBuf.length, n⟩)
      (if c.noArith then [] else bytesOnly c inBuf (arithCases inBuf) ++ longerWords c inBuf (arithCases inBuf))
      (· = ⟨inBuf ++ tail, effectorMap c inBuf.length, n⟩) (arithStages c inBuf.length) := by
    rw [arithStages]
    split_ifs
    · exact Makes.pure
    · exact (wordStage_makes (by decide) hE fun i => arithRound_makes _ n).seq (hstages fun w i => arithRound_makes _ n)
  have hinterest : Makes (· = ⟨inBuf ++ tail, effectorMap c inBuf.length, n⟩)
      (bytesOnly c inBuf (interestCases inBuf) ++ if c.noArith then [] else longerWords c inBuf (interestCases inBuf))
      (· = ⟨inBuf ++ tail, effectorMap c inBuf.length, n⟩) (interestStages c inBuf.length) := by
    refine (wordStage_makes (by decide) hE fun i => interestRound_makes _ n).seq ?_
    split_ifs
    · exact Makes.pure
    · exact hstages fun w i => interestRound_makes _ n
  refine ((hbits.seq (hwords.seq (harith.seq hinterest))).mono (fun _ h => h) ?_)
  rintro _ rfl
  rfl
end LtlFuzzer.Aflgo
