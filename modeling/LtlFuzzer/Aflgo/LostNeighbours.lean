import LtlFuzzer.Aflgo.Neighbours

/-! The arithmetic neighbours that are lost, and those that are run twice: a carry out of a byte by the number 32. -/
namespace LtlFuzzer.Aflgo
open Foundation Draws Walk
variable {c : DetContext} {inBuf tail : Bytes}

/-- The low byte overflows, or underflows. -/
def carries (up : Bool) (lo num : Nat) : Bool := if up then 256 ≤ lo + num else lo < num

def loStep (up : Bool) (lo num : Nat) : Nat := shifted 1 up lo num % 256

def hiStep (u : Nat) (up : Bool) (lo hi num : Nat) : Nat := if carries up lo num then shifted u up hi 1 % 2 ^ (8 * u) else hi

/-- An operation on a word, byte by byte. -/
theorem shifted_carry {u lo hi num : Nat} (up : Bool) (hlo : lo < 256) (hhi : hi < 2 ^ (8 * u)) (hnum : num < 256) :
    shifted (1 + u) up (lo + 2 ^ (8 * 1) * hi) num % 2 ^ (8 * (1 + u)) = loStep up lo num + 2 ^ (8 * 1) * hiStep u up lo hi num := by
  have hsize : 2 ^ (8 * (1 + u)) = 256 * 2 ^ (8 * u) := by rw [Nat.mul_add, Nat.pow_add]
  rw [hsize, Nat.mod_mul, loStep, hiStep, carries, shifted, shifted, shifted, hsize]
  generalize 2 ^ (8 * u) = M at *
  cases up with
  | true =>
    rw [if_pos rfl, if_pos rfl, if_pos rfl, if_pos rfl]
    congr 1
    · omega
    · congr 1
      simp only [decide_eq_true_eq]
      split_ifs with hc
      · rw [show (lo + 2 ^ (8 * 1) * hi + num) / 256 = hi + 1 by omega]
      · rw [show (lo + 2 ^ (8 * 1) * hi + num) / 256 = hi by omega, Nat.mod_eq_of_lt hhi]
  | false =>
    simp only [Bool.false_eq_true, if_false, decide_eq_true_eq]
    congr 1
    · omega
    · congr 1
      split_ifs with hc
      · rw [show (lo + 2 ^ (8 * 1) * hi + 256 * M - num) / 256 = hi + M - 1 by omega]
      · rw [show (lo + 2 ^ (8 * 1) * hi + 256 * M - num) / 256 = hi + M by omega, Nat.add_mod_right, Nat.mod_eq_of_lt hhi]

/-- With a carry a byte changes by 256 less the number, the other way. -/
theorem loStep_of_carries : ∀ up : Bool, ∀ a < 35, ∀ num ≤ arithMax, carries up (if up then 221 + a else a) num = true →
    ((if up then 221 + a else a) ^^^ loStep up (if up then 221 + a else a) num) ∉ [1, 3, 7, 128, 192] ∧
      (((if up then 221 + a else a) ^^^ loStep up (if up then 221 + a else a) num) = 224 ↔ num = 32) := by
  decide +kernel

private theorem carry_byte {up : Bool} {lo num : Nat} (hlo : lo < 256) (hnum : num ≤ arithMax) (hc : carries up lo num = true) :
    (lo ^^^ loStep up lo num) ∉ [1, 3, 7, 128, 192] ∧ ((lo ^^^ loStep up lo num) = 224 ↔ num = 32) := by
  cases up with
  | true =>
    have hge : 256 ≤ lo + num := by simpa [carries] using hc
    have hmax : num ≤ 35 := hnum
    have hall := loStep_of_carries true (lo - 221) (by omega) num hnum
    rw [if_pos rfl, Nat.add_sub_cancel' (by omega : 221 ≤ lo)] at hall
    exact hall hc
  | false =>
    have hlt : lo < num := by simpa [carries] using hc
    have hmax : num ≤ 35 := hnum
    exact loStep_of_carries false lo (by omega) num hnum hc

/-- The masks that straddle, as words. -/
theorem straddles_word {x i : Nat} (hx : x < 2 ^ 32) : Straddles (x * 2 ^ (8 * i)) ↔
    ∃ k bits, bits ∈ [384, 480, 960, 1920] ∧ x = 2 ^ (8 * k) * bits := by
  have hbits (n k r : Nat) : bitRun n (8 * k + r) = 2 ^ (8 * k) * ((2 ^ n - 1) * 2 ^ r) := by
    rw [bitRun, Nat.pow_add, Nat.mul_left_comm]
  constructor
  · rintro ⟨s, ⟨h, hs⟩ | ⟨h, hs⟩⟩
    · obtain ⟨rfl, hle⟩ := bitRun_of_mul hx (by decide) h
      refine ⟨(s - 8 * i) / 8, 384, by decide, ?_⟩
      rw [show s - 8 * i = 8 * ((s - 8 * i) / 8) + 7 by omega, hbits, show (8 * ((s - 8 * i) / 8) + 7) / 8 = (s - 8 * i) / 8 by omega]
      rfl
    · obtain ⟨rfl, hle⟩ := bitRun_of_mul hx (by decide) h
      obtain ⟨k, r, hr, hk⟩ : ∃ k r, r ∈ [5, 6, 7] ∧ s - 8 * i = 8 * k + r :=
        ⟨(s - 8 * i) / 8, (s - 8 * i) % 8, by simp only [List.mem_cons, List.not_mem_nil, or_false]; omega, by omega⟩
      refine ⟨k, (2 ^ 4 - 1) * 2 ^ r, ?_, by rw [hk, hbits]⟩
      obtain rfl | rfl | rfl : r = 5 ∨ r = 6 ∨ r = 7 := by simpa using hr
      all_goals decide
  · have hrun {n k r : Nat} (hx : x = 2 ^ (8 * k) * ((2 ^ n - 1) * 2 ^ r)) : x * 2 ^ (8 * i) = bitRun n (8 * (k + i) + r) := by
      rw [hx, hbits, Nat.mul_add, Nat.pow_add, Nat.mul_right_comm]
    rintro ⟨k, bits, hb, hx⟩
    obtain rfl | rfl | rfl | rfl : bits = 384 ∨ bits = 480 ∨ bits = 960 ∨ bits = 1920 := by simpa using hb
    · exact ⟨_, .inl ⟨hrun (n := 2) (r := 7) hx, by omega⟩⟩
    · exact ⟨_, .inr ⟨hrun (n := 4) (r := 5) hx, by omega⟩⟩
    · exact ⟨_, .inr ⟨hrun (n := 4) (r := 6) hx, by omega⟩⟩
    · exact ⟨_, .inr ⟨hrun (n := 4) (r := 7) hx, by omega⟩⟩

private theorem loStep_lt (up : Bool) (lo num : Nat) : loStep up lo num < 256 := Nat.mod_lt _ (by decide)

private theorem loStep_ne {up : Bool} {lo num : Nat} (hlo : lo < 256) (h1 : 1 ≤ num) (hmax : num ≤ arithMax) :
    lo ^^^ loStep up lo num ≠ 0 := xor_ne_zero (Ne.symm (shifted_ne hlo (by decide) h1 hmax))

private theorem xor_one (n : Nat) : n ^^^ 1 = if n % 2 = 0 then n + 1 else n - 1 := by
  have hxor := @xor_append 1 (n % 2) 1 (Nat.mod_lt _ (by decide)) (by decide) (n / 2) 0
  have hn : n % 2 + 2 ^ 1 * (n / 2) = n := Nat.mod_add_div n 2
  rw [hn, Nat.mul_zero, Nat.add_zero, Nat.xor_zero] at hxor
  rw [hxor]
  rcases Nat.mod_two_eq_zero_or_one n with h | h
  · rw [h, Nat.zero_xor, if_pos rfl]
    omega
  · rw [h, Nat.xor_self, if_neg (by decide)]
    omega

/-- The parity of the next byte at which a carry stops. -/
def stops (up : Bool) (hi : Nat) : Prop := hi % 2 = if up then 0 else 1

private theorem hiStep_one {u hi : Nat} {up : Bool} (hu : 0 < u) (hhi : hi < 2 ^ (8 * u)) :
    hi ^^^ (shifted u up hi 1 % 2 ^ (8 * u)) = 1 ↔ stops up hi := by
  have heven : 2 ^ (8 * u) % 2 = 0 := by
    obtain ⟨v, rfl⟩ : ∃ v, u = v + 1 := ⟨u - 1, by omega⟩
    rw [Nat.mul_succ, Nat.pow_add]
    omega
  have hiff (y : Nat) : hi ^^^ y = 1 ↔ y = hi ^^^ 1 := by
    constructor
    · rintro h
      rw [← h, ← Nat.xor_assoc, Nat.xor_self, Nat.zero_xor]
    · rintro rfl
      rw [← Nat.xor_assoc, Nat.xor_self, Nat.zero_xor]
  rw [hiff, xor_one, stops, shifted]
  have hbig : 2 ^ 8 ≤ 2 ^ (8 * u) := Nat.pow_le_pow_right Nat.two_pos (by omega)
  generalize 2 ^ (8 * u) = N at hhi heven hbig ⊢
  cases up with
  | true =>
    rw [if_pos rfl, if_pos rfl]
    rcases Nat.lt_or_ge (hi + 1) N with h | h
    · rw [Nat.mod_eq_of_lt h]
      split_ifs <;> omega
    · rw [show hi + 1 = N by omega, Nat.mod_self]
      split_ifs <;> omega
  | false =>
    rw [if_neg Bool.false_ne_true, if_neg Bool.false_ne_true]
    rcases Nat.eq_zero_or_pos hi with rfl | h
    · have hwrap : (0 + N - 1) % N = N - 1 := by
        rw [Nat.zero_add]
        exact Nat.mod_eq_of_lt (by omega)
      rw [hwrap, if_pos rfl]
      exact iff_of_false (by omega) (by decide)
    · rw [show hi + N - 1 = hi - 1 + N by omega, Nat.add_mod_right, Nat.mod_eq_of_lt (by omega)]
      split_ifs <;> omega

/-- A straddling word is known from its lowest byte, where this is not zero. -/
private theorem straddles_low {lo hi i : Nat} (hlo : lo < 256) (hne : lo ≠ 0) (hx : lo + 256 * hi < 2 ^ 32) :
    Straddles ((lo + 256 * hi) * 2 ^ (8 * i)) ↔
      lo = 128 ∧ hi = 1 ∨ lo = 224 ∧ hi = 1 ∨ lo = 192 ∧ hi = 3 ∨ lo = 128 ∧ hi = 7 := by
  rw [straddles_word hx]
  constructor
  · rintro ⟨k, bits, hb, he⟩
    have hb : bits = 384 ∨ bits = 480 ∨ bits = 960 ∨ bits = 1920 := by simpa using hb
    cases k with
    | zero => omega
    | succ k =>
      rw [Nat.mul_succ, Nat.pow_add, Nat.mul_right_comm] at he
      omega
  · rintro (⟨rfl, rfl⟩ | ⟨rfl, rfl⟩ | ⟨rfl, rfl⟩ | ⟨rfl, rfl⟩)
    · exact ⟨0, 384, by decide, rfl⟩
    · exact ⟨0, 480, by decide, rfl⟩
    · exact ⟨0, 960, by decide, rfl⟩
    · exact ⟨0, 1920, by decide, rfl⟩

private theorem exists_bytes {u v : Nat} (hv : v < 2 ^ (8 * (1 + u))) : ∃ lo hi, lo < 256 ∧ hi < 2 ^ (8 * u) ∧ v = lo + 2 ^ (8 * 1) * hi := by
  rw [Nat.mul_add, Nat.pow_add] at hv
  exact ⟨v % 256, v / 256, Nat.mod_lt _ (by decide), Nat.div_lt_of_lt_mul hv, (Nat.mod_add_div v 256).symm⟩

private theorem low_byte {lo hi : Nat} (hlo : lo < 256) : (lo + 2 ^ (8 * 1) * hi) % 256 = lo ∧ (lo + 2 ^ (8 * 1) * hi) / 256 = hi := by
  omega

/-- Without swapped bytes: the number is 32, it carries out of the low byte, and the carry stops at the next bit. -/
theorem straddles_plain_iff {w orig num i : Nat} {up : Bool} (hw : w ∈ [1, 2, 4]) (horig : orig < 2 ^ (8 * w)) (h1 : 1 ≤ num)
    (hmax : num ≤ arithMax) : Straddles ((orig ^^^ arithValue w false up orig num) * 2 ^ (8 * i)) ↔
      w ≠ 1 ∧ num = 32 ∧ carries up (orig % 256) num = true ∧ stops up (orig / 256) := by
  have hw' : w = 1 ∨ w = 2 ∨ w = 4 := by simpa using hw
  obtain ⟨u, rfl⟩ : ∃ u, w = 1 + u := ⟨w - 1, by omega⟩
  have hmax' : num ≤ 35 := hmax
  have hlt : orig ^^^ arithValue (1 + u) false up orig num < 2 ^ 32 :=
    Nat.lt_of_lt_of_le (Nat.xor_lt_two_pow horig (arithValue_lt _ _ _ _ _)) (Nat.pow_le_pow_right Nat.two_pos (by omega))
  obtain ⟨lo, hi, hlo, hhi, rfl⟩ := exists_bytes horig
  have hvalue : arithValue (1 + u) false up (lo + 2 ^ (8 * 1) * hi) num = loStep up lo num + 2 ^ (8 * 1) * hiStep u up lo hi num :=
    shifted_carry up hlo hhi (by omega : num < 256)
  have hlow := Nat.xor_lt_two_pow (n := 8) hlo (loStep_lt up lo num)
  have hne := @loStep_ne up _ _ hlo h1 hmax
  rw [(low_byte hlo).1, (low_byte hlo).2]
  rw [hvalue, xor_append hlo (loStep_lt up lo num)] at hlt ⊢
  rw [show (2 : Nat) ^ (8 * 1) = 256 from rfl] at hlt ⊢
  rw [straddles_low hlow hne hlt]
  cases hc : carries up lo num with
  | false =>
    rw [hiStep, hc, if_neg Bool.false_ne_true, Nat.xor_self]
    exact iff_of_false (by omega) fun h => Bool.false_ne_true h.2.2.1
  | true =>
    obtain ⟨hnot, h32⟩ := carry_byte hlo hmax hc
    simp only [List.mem_cons, List.not_mem_nil, or_false, not_or] at hnot
    rcases Nat.eq_zero_or_pos u with rfl | hu
    · have hzero : hi = 0 := Nat.lt_one_iff.mp hhi
      have hzero' : hiStep 0 up lo hi num = 0 := by
        rw [hiStep, hc, if_pos rfl]
        exact Nat.mod_one _
      rw [hzero', hzero, Nat.xor_self]
      exact iff_of_false (by omega) fun h => h.1 rfl
    · have hone : hi ^^^ hiStep u up lo hi num = 1 ↔ stops up hi := by
        rw [hiStep, hc, if_pos rfl]
        exact hiStep_one hu hhi
      rw [← hone, ← h32]
      generalize hi ^^^ hiStep u up lo hi num = B
      generalize lo ^^^ loStep up lo num = A at hnot ⊢
      simp only [and_iff_right (show 1 + u ≠ 1 by omega), true_and]
      omega

/-- With swapped bytes there is no such number. -/
theorem not_straddles_swapped {w orig num i : Nat} {up : Bool} (hw : w ∈ [1, 2, 4]) (horig : orig < 2 ^ (8 * w)) (h1 : 1 ≤ num)
    (hmax : num ≤ arithMax) : ¬ Straddles ((orig ^^^ arithValue w true up orig num) * 2 ^ (8 * i)) := by
  have hw' : w = 1 ∨ w = 2 ∨ w = 4 := by simpa using hw
  obtain ⟨u, rfl⟩ : ∃ u, w = 1 + u := ⟨w - 1, by omega⟩
  have hmax' : num ≤ 35 := hmax
  have hlt : orig ^^^ arithValue (1 + u) true up orig num < 2 ^ 32 :=
    Nat.lt_of_lt_of_le (Nat.xor_lt_two_pow horig (arithValue_lt _ _ _ _ _)) (Nat.pow_le_pow_right Nat.two_pos (by omega))
  have horder : swap (1 + u) (swap (1 + u) orig) = orig := order_order true horig
  obtain ⟨lo, hi, hlo, hhi, hV⟩ := exists_bytes (swap_lt (1 + u) orig)
  have hbyte {a : Nat} (ha : a < 256) (b : Nat) : swap (1 + u) (a + 2 ^ (8 * 1) * b) = swap u b + 2 ^ (8 * u) * a := by
    rw [swap_append ha, show swap 1 a = a from order_byte true ha]
  have hvalue : arithValue (1 + u) true up orig num = swap u (hiStep u up lo hi num) + 2 ^ (8 * u) * loStep up lo num := by
    rw [arithValue, order, if_pos rfl, order, if_pos rfl, hV, shifted_carry up hlo hhi (by omega : num < 256),
      hbyte (loStep_lt up lo num)]
  have hxor : orig ^^^ arithValue (1 + u) true up orig num =
      (swap u hi ^^^ swap u (hiStep u up lo hi num)) + 2 ^ (8 * u) * (lo ^^^ loStep up lo num) := by
    rw [hvalue, ← horder, hV, hbyte hlo]
    exact xor_append (swap_lt u _) (swap_lt u _) _ _
  have hA := Nat.xor_lt_two_pow (swap_lt u hi) (swap_lt u (hiStep u up lo hi num))
  have hB := Nat.xor_lt_two_pow (n := 8) hlo (loStep_lt up lo num)
  have hBne := @loStep_ne up _ _ hlo h1 hmax
  have hnot : (swap u hi ^^^ swap u (hiStep u up lo hi num)) ≠ 0 → (lo ^^^ loStep up lo num) ∉ [1, 3, 7, 128, 192] := by
    intro hne
    cases hc : carries up lo num with
    | true => exact (carry_byte hlo hmax hc).1
    | false =>
      rw [hiStep, hc, if_neg Bool.false_ne_true, Nat.xor_self] at hne
      exact absurd rfl hne
  simp only [List.mem_cons, List.not_mem_nil, or_false, not_or] at hnot
  rw [straddles_word hlt, hxor]
  rw [hxor] at hlt
  generalize (swap u hi ^^^ swap u (hiStep u up lo hi num)) = A at *
  generalize lo ^^^ loStep up lo num = B at *
  rintro ⟨k, bits, hb, he⟩
  have hb : bits = 384 ∨ bits = 480 ∨ bits = 960 ∨ bits = 1920 := by simpa using hb
  have hk : k < 3 := by
    refine Nat.lt_of_not_le fun hge => ?_
    have hpow : 2 ^ 24 ≤ 2 ^ (8 * k) := Nat.pow_le_pow_right Nat.two_pos (by omega)
    have hmul : 2 ^ 24 * 384 ≤ 2 ^ (8 * k) * bits := Nat.mul_le_mul hpow (by omega)
    omega
  obtain rfl | rfl | rfl : u = 0 ∨ u = 1 ∨ u = 3 := by omega
  all_goals
    obtain rfl | rfl | rfl : k = 0 ∨ k = 1 ∨ k = 2 := by omega
    all_goals omega

/-- Whatever the runs give, the stages up to the last interesting value read and write within their blocks. What is run is
a part of a fixed list from its start: all of it unless a run is the last. Then the buffer is as it was, and none of these
runs is spent on the input itself. -/
theorem word_stages_run (hin : 0 < inBuf.length) (E : List Bool) (n : Nat) (rolls : Nat → Nat) :
    ∃ walk rest, wordStages c inBuf.length ⟨⟨inBuf ++ tail, E, n⟩, [], false⟩ rolls = some (walk, rest) ∧
      walk.made <+: wordCases c inBuf ∧
      (walk.stopped = false → walk.made = wordCases c inBuf ∧ walk.state.outBuf = inBuf ++ tail) ∧
      ∀ m ∈ walk.made, m.length = inBuf.length ∧ m ≠ inBuf := by
  obtain ⟨walk, rest, hrun, hmade, hall⟩ := wordStages_makes (c := c) hin ⟨inBuf ++ tail, E, n⟩ rfl ⟨_, [], false⟩ rfl rfl rolls
  exact ⟨walk, rest, hrun, hmade, hall, fun m hm => wordCases_differ (hmade.mem hm)⟩

/-- An ordinary run that is never abandoned. -/
def plainRun : DetContext := ⟨false, false, 7, fun _ => 7, fun _ => false⟩

/-- Four bytes, all of them effective. -/
theorem word_stages_run_letter :
    ∃ walk rest, wordStages plainRun 4 ⟨⟨[65, 66, 67, 68] ++ [0xf0], [], 1⟩, [], false⟩ (fun n => n) = some (walk, rest) ∧
      walk.made <+: wordCases plainRun [65, 66, 67, 68] ∧
      (walk.stopped = false → walk.made = wordCases plainRun [65, 66, 67, 68] ∧ walk.state.outBuf = [65, 66, 67, 68] ++ [0xf0]) ∧
      ∀ m ∈ walk.made, m.length = 4 ∧ m ≠ [65, 66, 67, 68] :=
  @word_stages_run plainRun [65, 66, 67, 68] [0xf0] (by decide) [] 1 (fun n => n)

private theorem exists_plainRun (inBuf : Bytes) (h : ((wordStages plainRun inBuf.length ⟨⟨inBuf ++ [0xf0], [], 1⟩, [], false⟩ (fun n => n)).map
    fun p => p.1.stopped) = some false) :
    ∃ walk rest, wordStages plainRun inBuf.length ⟨⟨inBuf ++ [0xf0], [], 1⟩, [], false⟩ (fun n => n) = some (walk, rest) ∧
      walk.stopped = false := by
  obtain ⟨⟨walk, rest⟩, hrun, hgo⟩ := Option.map_eq_some_iff.mp h
  exact ⟨walk, rest, hrun, hgo⟩

section
variable {E : List Bool} {n : Nat} {rolls rest : Nat → Nat} {walk : Walk DetState Bytes}

private theorem made_eq (hin : 0 < inBuf.length)
    (hrun : wordStages c inBuf.length ⟨⟨inBuf ++ tail, E, n⟩, [], false⟩ rolls = some (walk, rest)) (hgo : walk.stopped = false) :
    walk.made = wordCases c inBuf := by
  obtain ⟨walk', rest', hrun', -, hall, -⟩ := @word_stages_run c inBuf tail hin E n rolls
  rw [hrun] at hrun'
  obtain rfl : walk = walk' := congrArg Prod.fst (Option.some_inj.mp hrun')
  exact (hall hgo).1

/-- In a run that is not abandoned, a word of effective bytes gets each interesting value and each of its arithmetic
neighbours, in both orders of bytes, unless the value is there or differs in two or four bits on both sides of the end of a
byte: where a test for redundancy leaves out anything else, another test case was the same. -/
theorem tried_values_run_iff (hin : 0 < inBuf.length)
    (hrun : wordStages c inBuf.length ⟨⟨inBuf ++ tail, E, n⟩, [], false⟩ rolls = some (walk, rest)) (hgo : walk.stopped = false)
    (hmode : c.noArith = false) {w i v : Nat} (hw : w ∈ [1, 2, 4]) (hi : i + w ≤ inBuf.length) (heff : AllEffective c inBuf w i)
    (hv : Tried (wordOf inBuf w i) w v) :
    withWord inBuf w i v ∈ walk.made ↔ v ≠ wordOf inBuf w i ∧ ¬ Straddles ((wordOf inBuf w i ^^^ v) * 2 ^ (8 * i)) := by
  rw [made_eq hin hrun hgo]
  exact mem_wordCases_iff hmode hw hi heff hv

/-- The interesting value 100 for a single zero byte. -/
theorem tried_values_run_iff_hundred : ∃ walk rest, wordStages plainRun 1 ⟨⟨[0] ++ [0xf0], [], 1⟩, [], false⟩ (fun n => n) = some (walk, rest) ∧
    walk.stopped = false ∧ [100] ∈ walk.made := by
  obtain ⟨walk, rest, hrun, hgo⟩ := exists_plainRun [0] (by decide +kernel)
  have hlow : ¬ Straddles ((100 + 256 * 0) * 2 ^ (8 * 0)) := by
    rw [straddles_low (by decide) (by decide) (by decide)]
    decide
  have hiff := @tried_values_run_iff plainRun [0] [0xf0] _ _ _ _ _ Nat.one_pos hrun hgo rfl 1 0 _ (by decide) (by decide)
    (by unfold AllEffective; decide +kernel) (@Tried.interest _ 1 false 100 (by decide))
  exact ⟨walk, rest, hrun, hgo, hiff.mpr ⟨by decide, hlow⟩⟩

/-- An arithmetic neighbour is lost exactly if 32 is added or subtracted in the order of the machine, carries out of the low
byte and stops at the next bit: no stage runs it. -/
theorem arith_neighbour_lost_iff (hin : 0 < inBuf.length)
    (hrun : wordStages c inBuf.length ⟨⟨inBuf ++ tail, E, n⟩, [], false⟩ rolls = some (walk, rest)) (hgo : walk.stopped = false)
    (hmode : c.noArith = false) {w i num : Nat} (big up : Bool) (hw : w ∈ [1, 2, 4]) (hi : i + w ≤ inBuf.length)
    (heff : AllEffective c inBuf w i) (h1 : 1 ≤ num) (hmax : num ≤ arithMax) :
    withWord inBuf w i (arithValue w big up (wordOf inBuf w i) num) ∉ walk.made ↔
      big = false ∧ w ≠ 1 ∧ num = 32 ∧ carries up (wordOf inBuf w i % 256) num = true ∧ stops up (wordOf inBuf w i / 256) := by
  have hpos := (width_bounds hw).1
  rw [made_eq hin hrun hgo, mem_wordCases_iff hmode hw hi heff (.arith big up h1 hmax), not_and, not_not,
    forall_prop_of_true (arithValue_ne (wordOf_lt inBuf w i) hpos h1 hmax)]
  cases big with
  | false => rw [straddles_plain_iff hw (wordOf_lt inBuf w i) h1 hmax, eq_self_iff_true, true_and]
  | true => exact iff_of_false (not_straddles_swapped hw (wordOf_lt inBuf w i) h1 hmax) fun h => Bool.false_ne_true h.1.symm

end

/-- 224 plus 32 in two bytes. -/
theorem arith_neighbour_lost_iff_carry : ∃ walk rest, wordStages plainRun 2 ⟨⟨[224, 0] ++ [0xf0], [], 1⟩, [], false⟩ (fun n => n) = some (walk, rest) ∧
    walk.stopped = false ∧ [0, 1] ∉ walk.made := by
  obtain ⟨walk, rest, hrun, hgo⟩ := exists_plainRun [224, 0] (by decide +kernel)
  have hiff := @arith_neighbour_lost_iff plainRun [224, 0] [0xf0] _ _ _ _ _ Nat.two_pos hrun hgo rfl 2 0 32 false true (by decide)
    (by decide) (by unfold AllEffective; decide +kernel) (by decide) (by decide)
  exact ⟨walk, rest, hrun, hgo, hiff.mpr ⟨rfl, by decide, rfl, rfl, rfl⟩⟩

end LtlFuzzer.Aflgo
