import LtlFuzzer.Aflgo.HavocTweaks

/-! The tests by which the deterministic stages leave out values that earlier stages should have put there. -/
namespace LtlFuzzer.Aflgo
open Foundation

/-- Shift until the first bit is set: how often, and what is left. -/
def shiftOut : Nat → Nat → Nat × Nat
  | 0, xorVal => (0, xorVal)
  | n + 1, xorVal =>
    if xorVal &&& 1 = 0 then
      let rest := shiftOut n (xorVal >>> 1)
      (rest.1 + 1, rest.2)
    else (0, xorVal)

/-- Whether a change could be a product of bit flips, of 32 bits at most. -/
def couldBeBitflip (xorVal : Nat) : Bool :=
  if xorVal = 0 then true
  else
    let shifted := shiftOut 32 xorVal
    if shifted.2 = 1 ∨ shifted.2 = 3 ∨ shifted.2 = 15 then true
    else if shifted.1 &&& 7 ≠ 0 then false
    else decide (shifted.2 = 0xff ∨ shifted.2 = 0xffff ∨ shifted.2 = 0xffffffff)

/-- The parts of s bytes that differ: how many, and the last of them before and after. -/
structure Diffs where
  diffs : Nat
  ov : Nat
  nv : Nat

def Diffs.among (s n oldVal newVal : Nat) (d : Diffs) : Diffs :=
  (List.range n).foldl (fun d i =>
    let a := oldVal >>> (8 * s * i) % 2 ^ (8 * s)
    let b := newVal >>> (8 * s * i) % 2 ^ (8 * s)
    if a ≠ b then ⟨d.diffs + 1, a, b⟩ else d) { d with diffs := 0 }

/-- At most ARITH_MAX apart, around the end of the range or not. -/
def close (w a b : Nat) : Bool :=
  (a + 2 ^ (8 * w) - b) % 2 ^ (8 * w) ≤ arithMax || (b + 2 ^ (8 * w) - a) % 2 ^ (8 * w) ≤ arithMax

def couldBeArith (oldVal newVal blen : Nat) : Bool :=
  if oldVal = newVal then true
  else
    let d := Diffs.among 1 blen oldVal newVal ⟨0, 0, 0⟩
    if d.diffs = 1 && close 1 d.ov d.nv then true
    else if blen = 1 then false
    else
      let d := Diffs.among 2 (blen / 2) oldVal newVal d
      if d.diffs = 1 && (close 2 d.ov d.nv || close 2 (swap 2 d.ov) (swap 2 d.nv)) then true
      else blen = 4 && (close 4 oldVal newVal || close 4 (swap 4 oldVal) (swap 4 newVal))

/-- The word with w of its bytes replaced, from byte i on. -/
def inserted (w i oldVal v : Nat) : Nat := (oldVal &&& (0xffffffff ^^^ ((2 ^ (8 * w) - 1) <<< (8 * i)))) ||| (v <<< (8 * i))

def couldBeInterest (oldVal newVal blen : Nat) (checkLe : Bool) : Bool :=
  if oldVal = newVal then true
  else if (List.range blen).any fun i => interesting8.any fun n => newVal = inserted 1 i oldVal (word 1 n) then true
  else if blen = 2 && !checkLe then false
  else if (List.range (blen - 1)).any fun i => interesting16.any fun n =>
      newVal = inserted 2 i oldVal (word 2 n) || (2 < blen && newVal = inserted 2 i oldVal (swap 2 (word 2 n))) then true
  else blen = 4 && checkLe && interesting32.any fun n => newVal = word 4 n


/-- The bit of a word that FLIP_BIT reaches by a number: the bytes in order, but each from its highest bit. -/
def lsb (bit : Nat) : Nat := 8 * (bit / 8) + (7 - bit % 8)

/-- Flipping n bits in a row, by their numbers. -/
def flipMask (n bit : Nat) : Nat := (List.range n).foldl (fun mask k => mask ^^^ 2 ^ lsb (bit + k)) 0

/-- Two or four bits in a row as a word counts them, on both sides of the end of a byte. -/
def Straddles (mask : Nat) : Prop := ∃ s, mask = bitRun 2 s ∧ s % 8 = 7 ∨ mask = bitRun 4 s ∧ 4 < s % 8

theorem testBit_flipMask (n bit i : Nat) : (flipMask n bit).testBit i = decide (bit ≤ lsb i ∧ lsb i < bit + n) := by
  rw [flipMask]
  induction n with
  | zero =>
    rw [List.range_zero, List.foldl_nil, Nat.zero_testBit]
    exact (decide_eq_false (by omega)).symm
  | succ n ih =>
    have hlsb : lsb (bit + n) = i ↔ lsb i = bit + n := by
      rw [lsb, lsb]
      omega
    rw [List.range_succ, List.foldl_append, List.foldl_cons, List.foldl_nil, Nat.testBit_xor, ih, Nat.testBit_two_pow, decide_eq_decide.mpr hlsb]
    rcases Nat.lt_trichotomy (lsb i) (bit + n) with h | h | h
    · rw [decide_eq_false (Nat.ne_of_lt h), Bool.xor_false]
      exact decide_eq_decide.mpr (by omega)
    · rw [decide_eq_true h, decide_eq_false (by omega), Bool.false_xor]
      exact (decide_eq_true (by omega)).symm
    · rw [decide_eq_false (Nat.ne_of_gt h), Bool.xor_false]
      exact decide_eq_decide.mpr (by omega)

/-- Within a byte, flipped bits are a run. -/
theorem flipMask_eq_bitRun {n s : Nat} (h : s % 8 + n ≤ 8) : flipMask n (8 * (s / 8) + (8 - n - s % 8)) = bitRun n s := by
  apply Nat.eq_of_testBit_eq
  intro i
  rw [testBit_flipMask, testBit_bitRun, lsb]
  exact decide_eq_decide.mpr (by omega)

/-- No bits flipped in a row straddle in this way. -/
theorem flipMask_not_straddles {n bit : Nat} (hn : n ≤ 4) : ¬ Straddles (flipMask n bit) := by
  rintro ⟨s, ⟨h, hs⟩ | ⟨h, hs⟩⟩
  all_goals
    have hsame (i : Nat) := congrArg (Nat.testBit · i) h
    simp only [testBit_flipMask, testBit_bitRun] at hsame
    have hlast := decide_eq_decide.mp (hsame (8 * (s / 8) + 7))
    have hfirst := decide_eq_decide.mp (hsame (8 * (s / 8) + 8))
    rw [lsb] at hlast hfirst
    omega

theorem shiftOut_spec (n xorVal : Nat) : xorVal = (shiftOut n xorVal).2 * 2 ^ (shiftOut n xorVal).1 ∧
    (xorVal ≠ 0 → xorVal < 2 ^ n → (shiftOut n xorVal).2 % 2 = 1) := by
  induction n generalizing xorVal with
  | zero =>
    rw [shiftOut]
    exact ⟨by rw [Nat.pow_zero, Nat.mul_one], fun hne hlt => absurd (Nat.lt_one_iff.mp hlt) hne⟩
  | succ n ih =>
    have hshift : xorVal >>> 1 = xorVal / 2 := Nat.shiftRight_eq_div_pow xorVal 1
    rw [shiftOut, Nat.and_one_is_mod]
    split_ifs with heven
    · obtain ⟨hval, hodd⟩ := ih (xorVal >>> 1)
      refine ⟨?_, fun hne hlt => hodd ?_ ?_⟩
      · rw [Nat.pow_succ, ← Nat.mul_assoc, ← hval, hshift]
        omega
      · omega
      · rw [Nat.pow_succ] at hlt
        omega
    · exact ⟨by rw [Nat.pow_zero, Nat.mul_one], fun _ _ => by dsimp only; omega⟩

/-- The test asks for a run of bits: some lengths anywhere, others at a byte. -/
theorem couldBeBitflip_iff {xorVal : Nat} (h : xorVal < 2 ^ 32) : couldBeBitflip xorVal = true ↔
    xorVal = 0 ∨ ∃ n s, xorVal = bitRun n s ∧ (n ∈ [1, 2, 4] ∨ n ∈ [8, 16, 32] ∧ s % 8 = 0) := by
  rcases Nat.eq_zero_or_pos xorVal with rfl | hpos
  · exact iff_of_true rfl (.inl rfl)
  obtain ⟨hval, hodd⟩ := shiftOut_spec 32 xorVal
  have hodd := hodd (Nat.ne_of_gt hpos) h
  have hrun (n s : Nat) : 0 < n → (xorVal = bitRun n s ↔ (shiftOut 32 xorVal).2 = 2 ^ n - 1 ∧ (shiftOut 32 xorVal).1 = s) := by
    intro hn
    constructor
    · intro he
      exact odd_mul_two_pow_inj hodd (two_pow_sub_one_odd hn) (hval.symm.trans he)
    · rintro ⟨hy, rfl⟩
      rw [bitRun, ← hy]
      exact hval
  have hmod : (shiftOut 32 xorVal).1 &&& 7 = (shiftOut 32 xorVal).1 % 8 := Nat.and_two_pow_sub_one_eq_mod _ 3
  rw [couldBeBitflip, if_neg (Nat.ne_of_gt hpos)]
  dsimp only
  rw [hmod]
  generalize (shiftOut 32 xorVal).2 = y at *
  generalize (shiftOut 32 xorVal).1 = sh at *
  have hlist : (xorVal = 0 ∨ ∃ n s, xorVal = bitRun n s ∧ (n ∈ [1, 2, 4] ∨ n ∈ [8, 16, 32] ∧ s % 8 = 0)) ↔
      (y = 1 ∨ y = 3 ∨ y = 15) ∨ sh % 8 = 0 ∧ (y = 0xff ∨ y = 0xffff ∨ y = 0xffffffff) := by
    constructor
    · rintro (he | ⟨n, s, he, hn | ⟨hn, hs⟩⟩)
      · exact absurd he (Nat.ne_of_gt hpos)
      all_goals
        simp only [List.mem_cons, List.not_mem_nil, or_false] at hn
        obtain ⟨hy, rfl⟩ := (hrun n s (by omega)).mp he
        rcases hn with rfl | rfl | rfl <;> omega
    · rintro ((hy | hy | hy) | ⟨hs, hy | hy | hy⟩)
      · exact .inr ⟨1, sh, (hrun 1 sh (by decide)).mpr ⟨hy, rfl⟩, .inl (by decide)⟩
      · exact .inr ⟨2, sh, (hrun 2 sh (by decide)).mpr ⟨hy, rfl⟩, .inl (by decide)⟩
      · exact .inr ⟨4, sh, (hrun 4 sh (by decide)).mpr ⟨hy, rfl⟩, .inl (by decide)⟩
      · exact .inr ⟨8, sh, (hrun 8 sh (by decide)).mpr ⟨hy, rfl⟩, .inr ⟨by decide, hs⟩⟩
      · exact .inr ⟨16, sh, (hrun 16 sh (by decide)).mpr ⟨hy, rfl⟩, .inr ⟨by decide, hs⟩⟩
      · exact .inr ⟨32, sh, (hrun 32 sh (by decide)).mpr ⟨hy, rfl⟩, .inr ⟨by decide, hs⟩⟩
  rw [hlist]
  split_ifs with hsmall hsh
  · exact iff_of_true rfl (.inl hsmall)
  · exact iff_of_false not_false (not_or.mpr ⟨hsmall, fun hall => hsh hall.1⟩)
  · rw [decide_eq_true_iff, or_iff_right hsmall, and_iff_right (not_not.mp hsh)]


/-- The w bytes of a word from byte k on. -/
def subword (w k v : Nat) : Nat := v >>> (8 * k) % 2 ^ (8 * w)

theorem subword_lt (w k v : Nat) : subword w k v < 2 ^ (8 * w) := Nat.mod_lt _ (Nat.two_pow_pos _)

theorem testBit_subword (w k v i : Nat) : (subword w k v).testBit i = (decide (i < 8 * w) && v.testBit (8 * k + i)) := by
  rw [subword, Nat.testBit_mod_two_pow, Nat.testBit_shiftRight]

/-- Words that differ in these bytes at most. -/
theorem xor_eq_of_subword {w k a b : Nat} (h : ∀ i, i < 8 * k ∨ 8 * k + 8 * w ≤ i → a.testBit i = b.testBit i) :
    a ^^^ b = (subword w k a ^^^ subword w k b) * 2 ^ (8 * k) := by
  apply Nat.eq_of_testBit_eq
  intro i
  rw [Nat.testBit_xor, Nat.testBit_mul_two_pow, Nat.testBit_xor, testBit_subword, testBit_subword]
  by_cases hin : 8 * k ≤ i ∧ i < 8 * k + 8 * w
  · rw [decide_eq_true hin.1, decide_eq_true (by omega : i - 8 * k < 8 * w), Nat.add_sub_cancel' hin.1]
    simp
  · rw [h i (by omega), Bool.xor_self]
    by_cases hlow : 8 * k ≤ i
    · rw [decide_eq_false (by omega : ¬ i - 8 * k < 8 * w)]
      simp
    · rw [decide_eq_false hlow]
      rfl

private theorem testBit_eq_of_subword {w k a b i : Nat} (h : subword w k a = subword w k b) (hlow : 8 * k ≤ i)
    (hhigh : i < 8 * k + 8 * w) : a.testBit i = b.testBit i := by
  have hbit := congrArg (Nat.testBit · (i - 8 * k)) h
  simp only [testBit_subword] at hbit
  rwa [decide_eq_true (by omega), Bool.true_and, Bool.true_and, Nat.add_sub_cancel' hlow] at hbit

/-- Counting the parts that differ. -/
theorem among_spec (s n oldVal newVal : Nat) (d : Diffs) :
    ((d.among s n oldVal newVal).diffs = 0 → ∀ k < n, subword s (s * k) oldVal = subword s (s * k) newVal) ∧
    ((d.among s n oldVal newVal).diffs = 1 → ∃ k < n, subword s (s * k) oldVal ≠ subword s (s * k) newVal ∧
      (d.among s n oldVal newVal).ov = subword s (s * k) oldVal ∧ (d.among s n oldVal newVal).nv = subword s (s * k) newVal ∧
      ∀ k' < n, k' ≠ k → subword s (s * k') oldVal = subword s (s * k') newVal) := by
  induction n with
  | zero => exact ⟨fun _ k hk => absurd hk (Nat.not_lt_zero k), fun h => nomatch (show 0 = 1 from h)⟩
  | succ n ih =>
    have hstep : d.among s (n + 1) oldVal newVal =
        if subword s (s * n) oldVal ≠ subword s (s * n) newVal then
          ⟨(d.among s n oldVal newVal).diffs + 1, subword s (s * n) oldVal, subword s (s * n) newVal⟩
        else d.among s n oldVal newVal := by
      rw [Diffs.among, List.range_succ, List.foldl_append, List.foldl_cons, List.foldl_nil, ← Diffs.among, subword, subword,
        Nat.mul_assoc]
    obtain ⟨hnone, hone⟩ := ih
    rw [hstep]
    split_ifs with hne
    · refine ⟨fun h => h.elim, fun h => ?_⟩
      have hsame := hnone (Nat.succ_injective h)
      exact ⟨n, Nat.lt_succ_self n, hne, rfl, rfl, fun k' hk' hother => hsame k' (by omega)⟩
    · have heq := not_not.mp hne
      refine ⟨fun h k hk => ?_, fun h => ?_⟩
      · rcases Nat.lt_succ_iff_lt_or_eq.mp hk with hk | rfl
        · exact hnone h k hk
        · exact heq
      · obtain ⟨k, hk, hdiff, hov, hnv, hothers⟩ := hone h
        refine ⟨k, Nat.lt_succ_of_lt hk, hdiff, hov, hnv, fun k' hk' hother => ?_⟩
        rcases Nat.lt_succ_iff_lt_or_eq.mp hk' with hk' | rfl
        · exact hothers k' hk' hother
        · exact heq

/-- One part that differs makes up the whole difference. -/
theorem among_one {s n oldVal newVal : Nat} {d : Diffs} (hold : oldVal < 2 ^ (8 * (s * n))) (hnew : newVal < 2 ^ (8 * (s * n)))
    (h : (d.among s n oldVal newVal).diffs = 1) : ∃ k < n, (d.among s n oldVal newVal).ov = subword s (s * k) oldVal ∧
      (d.among s n oldVal newVal).nv = subword s (s * k) newVal ∧ subword s (s * k) oldVal ≠ subword s (s * k) newVal ∧
      oldVal ^^^ newVal = (subword s (s * k) oldVal ^^^ subword s (s * k) newVal) * 2 ^ (8 * (s * k)) := by
  obtain ⟨k, hk, hdiff, hov, hnv, hothers⟩ := (among_spec s n oldVal newVal d).2 h
  refine ⟨k, hk, hov, hnv, hdiff, xor_eq_of_subword fun i hi => ?_⟩
  rcases Nat.lt_or_ge i (8 * (s * n)) with hin | hout
  · have hs : 0 < s := Nat.pos_of_ne_zero fun h0 => by simp [h0] at hin
    have hdiv : s * (i / 8 / s) ≤ i / 8 := Nat.mul_div_le _ _
    have hmod : i / 8 < s * (i / 8 / s) + s := by
      have := Nat.div_add_mod (i / 8) s
      have := Nat.mod_lt (i / 8) hs
      omega
    refine testBit_eq_of_subword (hothers (i / 8 / s) ?_ ?_) (by omega) (by omega)
    · exact Nat.div_lt_of_lt_mul (by omega)
    · rintro rfl
      omega
  · have hpow : 2 ^ (8 * (s * n)) ≤ 2 ^ i := Nat.pow_le_pow_right Nat.two_pos hout
    rw [Nat.testBit_lt_two_pow (Nat.lt_of_lt_of_le hold hpow), Nat.testBit_lt_two_pow (Nat.lt_of_lt_of_le hnew hpow)]

/-- A replaced part makes up the difference too. -/
theorem inserted_spec {w i oldVal v : Nat} (hold : oldVal < 2 ^ 32) (hv : v < 2 ^ (8 * w)) (hw : w + i ≤ 4) :
    oldVal ^^^ inserted w i oldVal v = (subword w i oldVal ^^^ v) * 2 ^ (8 * i) := by
  have hmask : 0xffffffff = 2 ^ 32 - 1 := rfl
  have hbits (j : Nat) : (inserted w i oldVal v).testBit j =
      if 8 * i ≤ j ∧ j < 8 * i + 8 * w then v.testBit (j - 8 * i) else oldVal.testBit j := by
    rw [inserted, hmask, Nat.testBit_or, Nat.testBit_and, Nat.testBit_xor, Nat.testBit_two_pow_sub_one, Nat.testBit_shiftLeft,
      Nat.testBit_shiftLeft, Nat.testBit_two_pow_sub_one]
    split_ifs with hin
    · rw [decide_eq_true (by omega : j < 32), decide_eq_true hin.1, decide_eq_true (by omega : j - 8 * i < 8 * w)]
      simp
    · have hout : (decide (j ≥ 8 * i) && v.testBit (j - 8 * i)) = false := by
        by_cases hlow : 8 * i ≤ j
        · have hpow : 2 ^ (8 * w) ≤ 2 ^ (j - 8 * i) := Nat.pow_le_pow_right Nat.two_pos (by omega)
          rw [Nat.testBit_lt_two_pow (Nat.lt_of_lt_of_le hv hpow), Bool.and_false]
        · rw [decide_eq_false hlow, Bool.false_and]
      have hmasked : (decide (j ≥ 8 * i) && decide (j - 8 * i < 8 * w)) = false := by
        rw [Bool.and_eq_false_iff, decide_eq_false_iff_not, decide_eq_false_iff_not]
        omega
      rw [hout, hmasked, Bool.or_false, Bool.xor_false]
      rcases Nat.lt_or_ge j 32 with hj | hj
      · rw [decide_eq_true hj, Bool.and_true]
      · have hpow : 2 ^ 32 ≤ 2 ^ j := Nat.pow_le_pow_right Nat.two_pos hj
        rw [Nat.testBit_lt_two_pow (Nat.lt_of_lt_of_le hold hpow), Bool.false_and]
  have hsub : subword w i (inserted w i oldVal v) = v := by
    apply Nat.eq_of_testBit_eq
    intro j
    rw [testBit_subword, hbits]
    by_cases hj : j < 8 * w
    · rw [if_pos (by omega), decide_eq_true hj, Bool.true_and, Nat.add_sub_cancel_left]
    · have hpow : 2 ^ (8 * w) ≤ 2 ^ j := Nat.pow_le_pow_right Nat.two_pos (by omega)
      rw [decide_eq_false hj, Bool.false_and, Nat.testBit_lt_two_pow (Nat.lt_of_lt_of_le hv hpow)]
  have hsame (j : Nat) (hj : j < 8 * i ∨ 8 * i + 8 * w ≤ j) : oldVal.testBit j = (inserted w i oldVal v).testBit j := by
    rw [hbits, if_neg (by omega)]
  rw [xor_eq_of_subword hsame, hsub]


/-- A word as the machine has it, or in the other order. -/
def order (w : Nat) (big : Bool) (v : Nat) : Nat := if big then swap w v else v

/-- A word, in one of the two orders, plus or minus a number. -/
def arithValue (w : Nat) (big up : Bool) (orig num : Nat) : Nat :=
  order w big (shifted w up (order w big orig) num % 2 ^ (8 * w))

theorem swap_lt (w v : Nat) : swap w v < 2 ^ (8 * w) := by
  have := wordAt_lt (wordBytes w v).reverse
  rwa [List.length_reverse, length_wordBytes] at this

theorem swap_swap (w v : Nat) : swap w (swap w v) = v % 2 ^ (8 * w) := by
  have hbytes : wordBytes w (wordAt (wordBytes w v).reverse) = (wordBytes w v).reverse := by
    have := wordBytes_wordAt (wordBytes w v).reverse
    rwa [List.length_reverse, length_wordBytes] at this
  rw [swap, swap, hbytes, List.reverse_reverse, wordAt_wordBytes]

/-- Swapping a word of two parts swaps the parts. -/
theorem swap_append {a b x y : Nat} (hx : x < 2 ^ (8 * a)) : swap (a + b) (x + 2 ^ (8 * a) * y) = swap b y + 2 ^ (8 * b) * swap a x := by
  have hbytes : wordBytes (a + b) (x + 2 ^ (8 * a) * y) = wordBytes a x ++ wordBytes b y := by
    apply wordAt_inj
    · rw [List.length_append, length_wordBytes, length_wordBytes, length_wordBytes]
    · rw [wordAt_append, wordAt_wordBytes, wordAt_wordBytes, wordAt_wordBytes, length_wordBytes, Nat.mul_add, Nat.pow_add,
        Nat.mod_mul, Nat.add_mul_mod_self_left, Nat.mod_eq_of_lt hx, Nat.add_mul_div_left _ _ (Nat.two_pow_pos _),
        Nat.div_eq_of_lt hx, Nat.zero_add]
  rw [swap, hbytes, List.reverse_append, wordAt_append, List.length_reverse, length_wordBytes, ← swap, ← swap]

theorem order_lt {w v : Nat} (big : Bool) (hv : v < 2 ^ (8 * w)) : order w big v < 2 ^ (8 * w) := by
  rw [order]
  split_ifs
  · exact swap_lt w v
  · exact hv

theorem order_order {w v : Nat} (big : Bool) (hv : v < 2 ^ (8 * w)) : order w big (order w big v) = v := by
  cases big with
  | false => rfl
  | true => exact (swap_swap w v).trans (Nat.mod_eq_of_lt hv)

theorem arithValue_lt (w : Nat) (big up : Bool) (orig num : Nat) : arithValue w big up orig num < 2 ^ (8 * w) :=
  order_lt big (Nat.mod_lt _ (Nat.two_pow_pos _))

theorem close_spec {w a b : Nat} (ha : a < 2 ^ (8 * w)) (hb : b < 2 ^ (8 * w)) (hne : a ≠ b) (h : close w a b = true) :
    ∃ up num, 1 ≤ num ∧ num ≤ arithMax ∧ b = shifted w up a num % 2 ^ (8 * w) := by
  rw [close, Bool.or_eq_true, decide_eq_true_iff, decide_eq_true_iff] at h
  generalize hN : 2 ^ (8 * w) = N at *
  have hmod {x y : Nat} (hx : x < N) (hy : y < N) : (x + N - y) % N = if y ≤ x then x - y else x + N - y := by
    split_ifs with hyx
    · rw [show x + N - y = x - y + N by omega, Nat.add_mod_right, Nat.mod_eq_of_lt (by omega)]
    · exact Nat.mod_eq_of_lt (by omega)
  rcases h with h | h
  · refine ⟨false, (a + N - b) % N, ?_, h, ?_⟩
    · rw [hmod ha hb]
      split_ifs <;> omega
    · rw [shifted, if_neg Bool.false_ne_true, hN, hmod ha (Nat.mod_lt _ (by omega)), hmod ha hb]
      split_ifs <;> omega
  · refine ⟨true, (b + N - a) % N, ?_, h, ?_⟩
    · rw [hmod hb ha]
      split_ifs <;> omega
    · rw [shifted, if_pos rfl, hmod hb ha]
      split_ifs with hle
      · rw [Nat.add_sub_cancel' hle, Nat.mod_eq_of_lt hb]
      · rw [show a + (b + N - a) = b + N by omega, Nat.add_mod_right, Nat.mod_eq_of_lt hb]

/-- The same for words in either order. -/
theorem close_order_spec {w a b : Nat} (ha : a < 2 ^ (8 * w)) (hb : b < 2 ^ (8 * w)) (hne : a ≠ b) (big : Bool)
    (h : close w (order w big a) (order w big b) = true) :
    ∃ up num, 1 ≤ num ∧ num ≤ arithMax ∧ b = arithValue w big up a num := by
  have hne' : order w big a ≠ order w big b := fun he => hne (by rw [← order_order big ha, he, order_order big hb])
  obtain ⟨up, num, h1, hmax, hval⟩ := close_spec (order_lt big ha) (order_lt big hb) hne' h
  exact ⟨up, num, h1, hmax, by rw [arithValue, ← hval, order_order big hb]⟩

theorem subword_self {w v : Nat} (hv : v < 2 ^ (8 * w)) : subword w 0 v = v := by
  rw [subword, Nat.mul_zero, Nat.shiftRight_zero, Nat.mod_eq_of_lt hv]

/-- The new word is the old one with an arithmetic operation on some of its bytes. -/
def ArithWithin (w oldVal newVal : Nat) : Prop :=
  ∃ w' k big up num, w' ∈ [1, 2, 4] ∧ k + w' ≤ w ∧ 1 ≤ num ∧ num ≤ arithMax ∧
    oldVal ^^^ newVal = (subword w' k oldVal ^^^ arithValue w' big up (subword w' k oldVal) num) * 2 ^ (8 * k)

theorem couldBeArith_spec {w oldVal newVal : Nat} (hw : w ∈ [1, 2, 4]) (hold : oldVal < 2 ^ (8 * w)) (hnew : newVal < 2 ^ (8 * w))
    (h : couldBeArith oldVal newVal w = true) : oldVal = newVal ∨ ArithWithin w oldVal newVal := by
  have hpart {s n : Nat} {d : Diffs} (big : Bool) (hs : s ∈ [1, 2, 4]) (hn : s * n = w)
      (hd : (d.among s n oldVal newVal).diffs = 1)
      (hclose : close s (order s big (d.among s n oldVal newVal).ov) (order s big (d.among s n oldVal newVal).nv) = true) :
      ArithWithin w oldVal newVal := by
    obtain ⟨k, hk, hov, hnv, hne, hxor⟩ := among_one (hn ▸ hold) (hn ▸ hnew) hd
    rw [hov, hnv] at hclose
    obtain ⟨up, num, h1, hmax, hval⟩ := close_order_spec (subword_lt _ _ _) (subword_lt _ _ _) hne big hclose
    have hin : s * k + s ≤ s * n := by
      rw [← Nat.mul_succ]
      exact Nat.mul_le_mul_left s hk
    exact ⟨s, s * k, big, up, num, hs, by omega, h1, hmax, by rw [← hval, hxor]⟩
  have hwhole (hne : oldVal ≠ newVal) (big : Bool) (hclose : close w (order w big oldVal) (order w big newVal) = true) :
      ArithWithin w oldVal newVal := by
    obtain ⟨up, num, h1, hmax, hval⟩ := close_order_spec hold hnew hne big hclose
    exact ⟨w, 0, big, up, num, hw, by omega, h1, hmax, by rw [subword_self hold, ← hval, Nat.mul_zero, Nat.pow_zero, Nat.mul_one]⟩
  rw [couldBeArith] at h
  dsimp only at h
  split_ifs at h with hsame hbyte h1 hword
  · exact .inl hsame
  · rw [Bool.and_eq_true, decide_eq_true_iff] at hbyte
    exact .inr (hpart false (by decide) (Nat.one_mul w) hbyte.1 hbyte.2)
  · have htwo : 2 * (w / 2) = w := by
      simp only [List.mem_cons, List.not_mem_nil, or_false] at hw
      omega
    rw [Bool.and_eq_true, Bool.or_eq_true, decide_eq_true_iff] at hword
    exact .inr (hword.2.elim (hpart false (by decide) htwo hword.1) (hpart true (by decide) htwo hword.1))
  · rw [Bool.and_eq_true, Bool.or_eq_true, decide_eq_true_iff] at h
    obtain ⟨rfl, h⟩ := h
    exact .inr (h.elim (hwhole hsame false) (hwhole hsame true))
/-- Whether an operation would affect more than half of the word; for a byte always. -/
def affects (w : Nat) (big up : Bool) (orig num : Nat) : Bool :=
  let half := 2 ^ (8 * (w / 2))
  let low := order w big orig % half
  if up then half ≤ low + num else low < num

private theorem shifted_append {h x y num : Nat} {up : Bool} (hx : x < 2 ^ (8 * h)) (hy : y < 2 ^ (8 * h))
    (hstay : if up then x + num < 2 ^ (8 * h) else num ≤ x) :
    shifted (h + h) up (x + 2 ^ (8 * h) * y) num % 2 ^ (8 * (h + h)) = shifted h up x num % 2 ^ (8 * h) + 2 ^ (8 * h) * y := by
  have hsquare : 2 ^ (8 * (h + h)) = 2 ^ (8 * h) * 2 ^ (8 * h) := by rw [Nat.mul_add, Nat.pow_add]
  have hy' : 2 ^ (8 * h) * y + 2 ^ (8 * h) ≤ 2 ^ (8 * h) * 2 ^ (8 * h) := by
    rw [← Nat.mul_succ]
    exact Nat.mul_le_mul_left _ hy
  rw [shifted, shifted, hsquare]
  generalize 2 ^ (8 * h) * y = z at *
  generalize 2 ^ (8 * h) * 2 ^ (8 * h) = S at *
  generalize 2 ^ (8 * h) = N at *
  cases up with
  | true =>
    rw [if_pos rfl, if_pos rfl] at *
    rw [Nat.mod_eq_of_lt (by omega), Nat.mod_eq_of_lt hstay]
    omega
  | false =>
    rw [if_neg Bool.false_ne_true] at hstay
    rw [if_neg Bool.false_ne_true, if_neg Bool.false_ne_true, show x + z + S - num = x - num + z + S by omega,
      show x + N - num = x - num + N by omega, Nat.add_mod_right, Nat.add_mod_right, Nat.mod_eq_of_lt (by omega),
      Nat.mod_eq_of_lt (by omega)]

/-- An operation that does not is one on a half of the word. -/
theorem arithValue_halved {h : Nat} {big up : Bool} {orig num : Nat} (horig : orig < 2 ^ (8 * (h + h)))
    (hstay : affects (h + h) big up orig num = false) :
    orig ^^^ arithValue (h + h) big up orig num = (subword h (if big then h else 0) orig ^^^
      arithValue h big up (subword h (if big then h else 0) orig) num) * 2 ^ (8 * if big then h else 0) := by
  have hlow : subword h 0 orig < 2 ^ (8 * h) := subword_lt _ _ _
  have hhigh : subword h h orig < 2 ^ (8 * h) := subword_lt _ _ _
  have hsplit : orig = subword h 0 orig + 2 ^ (8 * h) * subword h h orig := by
    rw [subword, subword, Nat.mul_zero, Nat.shiftRight_zero, Nat.shiftRight_eq_div_pow,
      Nat.mod_eq_of_lt (Nat.div_lt_of_lt_mul (by rwa [← Nat.pow_add, ← Nat.mul_add])), Nat.mod_add_div]
  have hhalf : (h + h) / 2 = h := by omega
  generalize hx : subword h 0 orig = x at *
  generalize hy : subword h h orig = y at *
  have hstep {a b : Nat} (ha : a < 2 ^ (8 * h)) (hb : b < 2 ^ (8 * h)) (hord : order (h + h) big orig = a + 2 ^ (8 * h) * b) :
      arithValue (h + h) big up orig num = order (h + h) big (shifted h up a num % 2 ^ (8 * h) + 2 ^ (8 * h) * b) := by
    rw [arithValue, hord, shifted_append ha hb]
    rw [affects, hhalf, hord, Nat.add_mul_mod_self_left, Nat.mod_eq_of_lt ha] at hstay
    cases up with
    | true => simpa using hstay
    | false => simpa using hstay
  have hcut (a : Nat) : shifted h up a num % 2 ^ (8 * h) < 2 ^ (8 * h) := Nat.mod_lt _ (Nat.two_pow_pos _)
  cases big with
  | false =>
    rw [hstep hlow hhigh hsplit, order, if_neg Bool.false_ne_true, if_neg Bool.false_ne_true, hx, Nat.mul_zero, Nat.pow_zero, Nat.mul_one]
    conv_lhs => rw [hsplit]
    rw [xor_append hlow (hcut x), Nat.xor_self, Nat.mul_zero, Nat.add_zero]
    rfl
  | true =>
    have hord : order (h + h) true orig = swap h y + 2 ^ (8 * h) * swap h x := by
      conv_lhs => rw [hsplit]
      exact swap_append hlow
    rw [hstep (swap_lt h y) (swap_lt h x) hord, order, if_pos rfl, if_pos rfl, hy, swap_append (hcut _), swap_swap, Nat.mod_eq_of_lt hlow]
    conv_lhs => rw [hsplit]
    rw [xor_append hlow hlow, Nat.xor_self, Nat.zero_add, Nat.mul_comm]
    rfl

theorem cutWord_lt (w : Nat) (n : Int) : word w n < 2 ^ (8 * w) := by
  have hpos : (0 : Int) < (2 ^ (8 * w) : Nat) := Int.ofNat_lt.mpr (Nat.two_pow_pos _)
  have hlow := Int.emod_nonneg n (Int.ne_of_gt hpos)
  have hhigh := Int.emod_lt_of_pos n hpos
  rw [word]
  omega

/-- What the test for interesting values finds. -/
theorem couldBeInterest_spec {w oldVal newVal : Nat} {checkLe : Bool} (hw : w ∈ [2, 4]) (hold : oldVal < 2 ^ (8 * w))
    (h : couldBeInterest oldVal newVal w checkLe = true) : oldVal = newVal ∨
      (∃ k, k + 1 ≤ w ∧ ∃ n ∈ interesting8, oldVal ^^^ newVal = (subword 1 k oldVal ^^^ word 1 n) * 2 ^ (8 * k)) ∨
      (∃ k, k + 2 ≤ w ∧ ∃ n ∈ interesting16, ∃ big, (w = 2 → checkLe = true ∧ big = false) ∧
        oldVal ^^^ newVal = (subword 2 k oldVal ^^^ order 2 big (word 2 n)) * 2 ^ (8 * k)) ∨
      w = 4 ∧ checkLe = true ∧ ∃ n ∈ interesting32, newVal = word 4 n := by
  have hw : w = 2 ∨ w = 4 := by simpa using hw
  have hold32 : oldVal < 2 ^ 32 := Nat.lt_of_lt_of_le hold (Nat.pow_le_pow_right Nat.two_pos (by omega))
  rw [couldBeInterest] at h
  split_ifs at h with hsame hbyte hskip hword
  · exact .inl hsame
  · obtain ⟨k, hk, hany⟩ := List.any_eq_true.mp hbyte
    obtain ⟨n, hn, hval⟩ := List.any_eq_true.mp hany
    have hk := List.mem_range.mp hk
    refine .inr (.inl ⟨k, hk, n, hn, ?_⟩)
    rw [of_decide_eq_true hval, inserted_spec hold32 (cutWord_lt 1 n) (by omega)]
  · rw [Bool.and_eq_true, decide_eq_true_iff, Bool.not_eq_true', not_and, Bool.not_eq_false] at hskip
    obtain ⟨k, hk, hany⟩ := List.any_eq_true.mp hword
    obtain ⟨n, hn, hval⟩ := List.any_eq_true.mp hany
    have hk := List.mem_range.mp hk
    refine .inr (.inr (.inl ⟨k, by omega, n, hn, ?_⟩))
    rw [Bool.or_eq_true, Bool.and_eq_true, decide_eq_true_iff, decide_eq_true_iff, decide_eq_true_iff] at hval
    rcases hval with hval | ⟨hwide, hval⟩
    · exact ⟨false, fun h2 => ⟨hskip h2, rfl⟩, by rw [hval, inserted_spec hold32 (cutWord_lt 2 n) (by omega)]; rfl⟩
    · exact ⟨true, fun h2 => absurd h2 (by omega), by rw [hval, inserted_spec hold32 (swap_lt 2 _) (by omega)]; rfl⟩
  · rw [Bool.and_eq_true, Bool.and_eq_true, decide_eq_true_iff] at h
    obtain ⟨⟨h4, hcheck⟩, hany⟩ := h
    obtain ⟨n, hn, hval⟩ := List.any_eq_true.mp hany
    exact .inr (.inr (.inr ⟨h4, hcheck, n, hn, of_decide_eq_true hval⟩))

end LtlFuzzer.Aflgo
