import LtlFuzzer.Aflgo.DeterministicCases

/-! Which arithmetic neighbours and which interesting values of an input the deterministic stages run, and which they lose. -/
namespace LtlFuzzer.Aflgo
open Foundation Draws Walk
variable {c : DetContext} {inBuf : Bytes}

/-- Every byte of the word is in an effective block. -/
def AllEffective (c : DetContext) (inBuf : Bytes) (w i : Nat) : Prop :=
  ∀ k < w, (effectorMap c inBuf.length).getD (effApos (i + k)) false = true

theorem AllEffective.sub {w i w' k : Nat} (h : AllEffective c inBuf w i) (hk : k + w' ≤ w) : AllEffective c inBuf w' (i + k) := by
  intro k' hk'
  rw [Nat.add_assoc]
  exact h (k + k') (by omega)

private theorem effAny_of_all {w i : Nat} (h : AllEffective c inBuf w i) (hw : 0 < w) : effAny (effectorMap c inBuf.length) w i = true :=
  List.any_eq_true.mpr ⟨0, List.mem_range.mpr hw, h 0 hw⟩

private theorem mem_stageCases {E : List Bool} {len w : Nat} {cases : Nat → List Bytes} {m : Bytes} (hw : 0 < w) :
    m ∈ stageCases E len w cases ↔ ∃ i, i + w ≤ len ∧ effAny E w i = true ∧ m ∈ cases i := by
  rw [stageCases, List.mem_flatMap]
  constructor
  · rintro ⟨i, hi, hm⟩
    have hi := List.mem_range.mp hi
    cases heff : effAny E w i with
    | true =>
      rw [heff, if_pos rfl] at hm
      exact ⟨i, by omega, heff, hm⟩
    | false =>
      rw [heff, if_neg Bool.false_ne_true] at hm
      exact absurd hm List.not_mem_nil
  · rintro ⟨i, hi, heff, hm⟩
    exact ⟨i, List.mem_range.mpr (by omega), by rwa [heff, if_pos rfl]⟩

private theorem mem_longerWords {cases : Nat → Nat → List Bytes} {m : Bytes} : m ∈ longerWords c inBuf cases ↔
    ∃ w i, w ∈ [2, 4] ∧ i + w ≤ inBuf.length ∧ effAny (effectorMap c inBuf.length) w i = true ∧ m ∈ cases w i := by
  rw [longerWords, List.mem_append, mem_stageCases (by decide), mem_stageCases (by decide)]
  constructor
  · rintro (⟨i, h⟩ | ⟨i, h⟩)
    · exact ⟨2, i, by decide, h⟩
    · exact ⟨4, i, by decide, h⟩
  · rintro ⟨w, i, hw, h⟩
    obtain rfl | rfl : w = 2 ∨ w = 4 := by simpa using hw
    · exact .inl ⟨i, h⟩
    · exact .inr ⟨i, h⟩

private theorem mem_allWords {cases : Nat → Nat → List Bytes} {m : Bytes} :
    m ∈ bytesOnly c inBuf (cases) ∨ m ∈ longerWords c inBuf cases ↔
      ∃ w i, w ∈ [1, 2, 4] ∧ i + w ≤ inBuf.length ∧ effAny (effectorMap c inBuf.length) w i = true ∧ m ∈ cases w i := by
  rw [bytesOnly, mem_stageCases (by decide), mem_longerWords]
  constructor
  · rintro (⟨i, h⟩ | ⟨w, i, hw, h⟩)
    · exact ⟨1, i, by decide, h⟩
    · exact ⟨w, i, List.mem_cons_of_mem 1 hw, h⟩
  · rintro ⟨w, i, hw, h⟩
    rcases List.mem_cons.mp hw with rfl | hw
    · exact .inl ⟨i, h⟩
    · exact .inr ⟨w, i, hw, h⟩

theorem mem_arithNews {w orig num v : Nat} : v ∈ arithNews w orig num ↔
    ∃ big up, (w = 1 → big = false) ∧ affects w big up orig num = true ∧
      couldBeBitflip (orig ^^^ arithValue w big up orig num) = false ∧ v = arithValue w big up orig num := by
  rw [arithNews, List.mem_map]
  constructor
  · rintro ⟨⟨big, up⟩, ht, rfl⟩
    rw [List.mem_filter, Bool.and_eq_true, Bool.not_eq_true'] at ht
    refine ⟨big, up, ?_, ht.2.1, ht.2.2, rfl⟩
    rintro rfl
    have hbig := ht.1
    rw [if_pos rfl] at hbig
    rcases List.mem_cons.mp hbig with he | he
    · cases he
      rfl
    · cases List.mem_singleton.mp he
      rfl
  · rintro ⟨big, up, hbig, haffects, hflip, rfl⟩
    refine ⟨(big, up), List.mem_filter.mpr ⟨?_, by rw [haffects, hflip]; rfl⟩, rfl⟩
    split_ifs with hw
    · rw [hbig hw]
      cases up <;> decide
    · cases big <;> cases up <;> decide

theorem mem_interestNews_of_plain {w orig : Nat} {n : Int} (hflip : couldBeBitflip (orig ^^^ word w n) = false)
    (harith : couldBeArith orig (word w n) w = false) (hint : w ≠ 1 → couldBeInterest orig (word w n) w false = false) :
    word w n ∈ interestNews w orig n := by
  rw [interestNews]
  refine List.mem_append_left _ ?_
  have hint : (decide (w ≠ 1) && couldBeInterest orig (word w n) w false) = false := by
    by_cases hw : w = 1
    · rw [decide_eq_false (not_not.mpr hw), Bool.false_and]
    · rw [hint hw, Bool.and_false]
  rw [hflip, harith, hint]
  exact List.mem_singleton.mpr rfl

theorem mem_interestNews_of_swapped {w orig : Nat} {n : Int} (hw : w ≠ 1) (hne : word w n ≠ swap w (word w n))
    (hflip : couldBeBitflip (orig ^^^ swap w (word w n)) = false) (harith : couldBeArith orig (swap w (word w n)) w = false)
    (hint : couldBeInterest orig (swap w (word w n)) w true = false) : swap w (word w n) ∈ interestNews w orig n := by
  rw [interestNews]
  refine List.mem_append_right _ ?_
  rw [hflip, harith, hint, decide_eq_true hw, decide_eq_true hne]
  exact List.mem_singleton.mpr rfl

theorem of_mem_interestNews {w orig v : Nat} {n : Int} (h : v ∈ interestNews w orig n) :
    v < 2 ^ (8 * w) ∧ couldBeBitflip (orig ^^^ v) = false := by
  rw [interestNews] at h
  rcases List.mem_append.mp h with h | h
  · split_ifs at h with hall
    · obtain rfl := List.mem_singleton.mp h
      simp only [Bool.and_eq_true, Bool.not_eq_true'] at hall
      exact ⟨cutWord_lt w n, hall.1.1⟩
    · exact absurd h List.not_mem_nil
  · split_ifs at h with hall
    · obtain rfl := List.mem_singleton.mp h
      simp only [Bool.and_eq_true, Bool.not_eq_true'] at hall
      exact ⟨swap_lt w _, hall.1.1.2⟩
    · exact absurd h List.not_mem_nil

theorem width_bounds {w : Nat} (hw : w ∈ [1, 2, 4]) : 0 < w ∧ w ≤ 4 := by
  simp only [List.mem_cons, List.not_mem_nil, or_false] at hw
  omega

/-- What a test case of the stages is. -/
theorem of_mem_wordCases {m : Bytes} (h : m ∈ wordCases c inBuf) :
    (∃ n bit, n ∈ [1, 2, 4] ∧ bit + n ≤ 8 * inBuf.length ∧ m = xored inBuf (flipMask n bit)) ∨
    (∃ w i, w ∈ [1, 2, 4] ∧ i + w ≤ inBuf.length ∧ m = xored inBuf (bitRun (8 * w) (8 * i))) ∨
    ∃ w i v, w ∈ [1, 2, 4] ∧ i + w ≤ inBuf.length ∧ v < 2 ^ (8 * w) ∧ couldBeBitflip (wordOf inBuf w i ^^^ v) = false ∧
      m = withWord inBuf w i v := by
  have hbit {n : Nat} (hn : n ∈ [1, 2, 4]) (hm : m ∈ flipCases inBuf n) :
      ∃ n bit, n ∈ [1, 2, 4] ∧ bit + n ≤ 8 * inBuf.length ∧ m = xored inBuf (flipMask n bit) := by
    obtain ⟨bit, hbit, rfl⟩ := List.mem_map.mp hm
    have hbit := List.mem_range.mp hbit
    have hpos := (width_bounds hn).1
    exact ⟨n, bit, hn, by omega, rfl⟩
  have harith (hm : m ∈ bytesOnly c inBuf (arithCases inBuf) ∨ m ∈ longerWords c inBuf (arithCases inBuf)) :
      ∃ w i v, w ∈ [1, 2, 4] ∧ i + w ≤ inBuf.length ∧ v < 2 ^ (8 * w) ∧ couldBeBitflip (wordOf inBuf w i ^^^ v) = false ∧
        m = withWord inBuf w i v := by
    obtain ⟨w, i, hw, hi, -, hm⟩ := mem_allWords.mp hm
    obtain ⟨num, -, hm⟩ := List.mem_flatMap.mp hm
    obtain ⟨v, hv, rfl⟩ := List.mem_map.mp hm
    obtain ⟨big, up, -, -, hflip, rfl⟩ := mem_arithNews.mp hv
    exact ⟨w, i, _, hw, hi, arithValue_lt w big up _ num, hflip, rfl⟩
  have hinterest (hm : m ∈ bytesOnly c inBuf (interestCases inBuf) ∨ m ∈ longerWords c inBuf (interestCases inBuf)) :
      ∃ w i v, w ∈ [1, 2, 4] ∧ i + w ≤ inBuf.length ∧ v < 2 ^ (8 * w) ∧ couldBeBitflip (wordOf inBuf w i ^^^ v) = false ∧
        m = withWord inBuf w i v := by
    obtain ⟨w, i, hw, hi, -, hm⟩ := mem_allWords.mp hm
    obtain ⟨n, -, hm⟩ := List.mem_flatMap.mp hm
    obtain ⟨v, hv, rfl⟩ := List.mem_map.mp hm
    obtain ⟨hlt, hflip⟩ := of_mem_interestNews hv
    exact ⟨w, i, v, hw, hi, hlt, hflip, rfl⟩
  simp only [wordCases, List.mem_append] at h
  rcases h with (h | h | h) | (h | h) | h | h | h
  · exact .inl (hbit (by decide) h)
  · exact .inl (hbit (by decide) h)
  · exact .inl (hbit (by decide) h)
  · obtain ⟨i, hi, rfl⟩ := List.mem_map.mp h
    exact .inr (.inl ⟨1, i, by decide, List.mem_range.mp hi, rfl⟩)
  · obtain ⟨w, i, hw, hi, -, hm⟩ := mem_longerWords.mp h
    exact .inr (.inl ⟨w, i, List.mem_cons_of_mem 1 hw, hi, List.mem_singleton.mp hm⟩)
  · split_ifs at h
    · exact absurd h List.not_mem_nil
    · exact .inr (.inr (harith (List.mem_append.mp h)))
  · exact .inr (.inr (hinterest (.inl h)))
  · split_ifs at h
    · exact absurd h List.not_mem_nil
    · exact .inr (.inr (hinterest (.inr h)))

theorem wordOf_lt (inBuf : Bytes) (w i : Nat) : wordOf inBuf w i < 2 ^ (8 * w) := by
  rw [wordOf, wordAt_take]
  exact Nat.mod_lt _ (Nat.two_pow_pos _)

theorem withWord_eq_xored {w i v : Nat} (hi : i + w ≤ inBuf.length) (hv : v < 2 ^ (8 * w)) :
    withWord inBuf w i v = xored inBuf ((wordOf inBuf w i ^^^ v) * 2 ^ (8 * i)) := by
  rw [withWord, overwrite_eq_xored (by rw [length_wordBytes]; exact hi), length_wordBytes, wordAt_wordBytes, Nat.mod_eq_of_lt hv,
    ← wordOf]

theorem mask_lt {w i x len : Nat} (hi : i + w ≤ len) (hx : x < 2 ^ (8 * w)) : x * 2 ^ (8 * i) < 2 ^ (8 * len) := by
  have hstep : x * 2 ^ (8 * i) < 2 ^ (8 * w) * 2 ^ (8 * i) := Nat.mul_lt_mul_of_pos_right hx (Nat.two_pow_pos _)
  rw [← Nat.pow_add] at hstep
  exact Nat.lt_of_lt_of_le hstep (Nat.pow_le_pow_right Nat.two_pos (by omega))

/-- A test case is the input with the bits of a mask flipped that is not empty. -/
private theorem exists_mask {m : Bytes} (h : m ∈ wordCases c inBuf) :
    ∃ mask, mask ≠ 0 ∧ mask < 2 ^ (8 * inBuf.length) ∧ m = xored inBuf mask := by
  have hne {mask i : Nat} (hbit : mask.testBit i = true) : mask ≠ 0 := by
    rintro rfl
    rw [Nat.zero_testBit] at hbit
    exact Bool.false_ne_true hbit
  rcases of_mem_wordCases h with ⟨n, bit, hn, hlen, rfl⟩ | ⟨w, i, hw, hi, rfl⟩ | ⟨w, i, v, hw, hi, hv, hflip, rfl⟩
  · have hpos := (width_bounds hn).1
    refine ⟨_, hne (i := lsb bit) ?_, flipMask_lt hlen, rfl⟩
    rw [testBit_flipMask, lsb, lsb]
    exact decide_eq_true (by omega)
  · have hpos := (width_bounds hw).1
    refine ⟨_, hne (i := 8 * i) ?_, bitRun_lt (by omega), rfl⟩
    rw [testBit_bitRun]
    exact decide_eq_true (by omega)
  · refine ⟨_, ?_, mask_lt hi (Nat.xor_lt_two_pow (wordOf_lt inBuf w i) hv), withWord_eq_xored hi hv⟩
    intro hzero
    rcases Nat.mul_eq_zero.mp hzero with hzero | hzero
    · rw [hzero] at hflip
      exact Bool.false_ne_true hflip.symm
    · exact Nat.ne_of_gt (Nat.two_pow_pos _) hzero

/-- A test case of these stages is not the input, and as long. -/
theorem wordCases_differ {m : Bytes} (h : m ∈ wordCases c inBuf) : m.length = inBuf.length ∧ m ≠ inBuf := by
  obtain ⟨mask, hne, hlt, rfl⟩ := exists_mask h
  refine ⟨length_xored _ _, fun hsame => hne (xored_inj hlt (Nat.two_pow_pos _) ?_)⟩
  rw [hsame, xored_zero]

theorem bitRun_of_mul {x i n s : Nat} (hx : x < 2 ^ 32) (hn : 0 < n) (h : x * 2 ^ (8 * i) = bitRun n s) :
    x = bitRun n (s - 8 * i) ∧ 8 * i ≤ s := by
  have hne : x ≠ 0 := by
    rintro rfl
    have hbit := testBit_bitRun n s s
    rw [← h, Nat.zero_mul, Nat.zero_testBit] at hbit
    exact absurd hbit.symm (by rw [decide_eq_true (by omega)]; exact Bool.noConfusion)
  obtain ⟨hval, hodd⟩ := shiftOut_spec 32 x
  have hmul : (shiftOut 32 x).2 * 2 ^ ((shiftOut 32 x).1 + 8 * i) = (2 ^ n - 1) * 2 ^ s := by
    rw [Nat.pow_add, ← Nat.mul_assoc, ← hval]
    exact h
  obtain ⟨hy, rfl⟩ := odd_mul_two_pow_inj (hodd hne hx) (two_pow_sub_one_odd hn) hmul
  refine ⟨?_, Nat.le_add_left _ _⟩
  rw [Nat.add_sub_cancel, bitRun, ← hy]
  exact hval

/-- Bits that straddle are run in none of the stages. -/
theorem not_mem_of_straddles {mask : Nat} (hmask : mask < 2 ^ (8 * inBuf.length)) (h : Straddles mask) :
    xored inBuf mask ∉ wordCases c inBuf := by
  intro hm
  rcases of_mem_wordCases hm with ⟨n, bit, hn, hlen, he⟩ | ⟨w, i, hw, hi, he⟩ | ⟨w, i, v, hw, hi, hv, hflip, he⟩
  · rw [xored_inj hmask (flipMask_lt hlen) he] at h
    refine flipMask_not_straddles ?_ h
    simp only [List.mem_cons, List.not_mem_nil, or_false] at hn
    omega
  · have hpos := (width_bounds hw).1
    rw [xored_inj hmask (bitRun_lt (by omega)) he] at h
    obtain ⟨s, ⟨h, -⟩ | ⟨h, -⟩⟩ := h
    all_goals
      have := (bitRun_inj (by omega) (by decide) h).1
      omega
  · have hlt := Nat.xor_lt_two_pow (wordOf_lt inBuf w i) hv
    have hlt32 : wordOf inBuf w i ^^^ v < 2 ^ 32 := by
      have := (width_bounds hw).2
      exact Nat.lt_of_lt_of_le hlt (Nat.pow_le_pow_right Nat.two_pos (by omega))
    rw [withWord_eq_xored hi hv] at he
    rw [xored_inj hmask (mask_lt hi hlt) he] at h
    have hflips : couldBeBitflip (wordOf inBuf w i ^^^ v) = true := by
      refine (couldBeBitflip_iff hlt32).mpr (.inr ?_)
      obtain ⟨s, ⟨h, -⟩ | ⟨h, -⟩⟩ := h
      · exact ⟨2, _, (bitRun_of_mul hlt32 (by decide) h).1, .inl (by decide)⟩
      · exact ⟨4, _, (bitRun_of_mul hlt32 (by decide) h).1, .inl (by decide)⟩
    rw [hflips] at hflip
    exact Bool.false_ne_true hflip.symm

/-- Run, or lost because it straddles. -/
def Covered (c : DetContext) (inBuf : Bytes) (mask : Nat) : Prop := Straddles mask ∨ xored inBuf mask ∈ wordCases c inBuf

private theorem mem_flips {n bit : Nat} (hn : n ∈ [1, 2, 4]) (hbit : bit + n ≤ 8 * inBuf.length) :
    xored inBuf (flipMask n bit) ∈ wordCases c inBuf := by
  have hn' : n = 1 ∨ n = 2 ∨ n = 4 := by simpa using hn
  have hmem : xored inBuf (flipMask n bit) ∈ flipCases inBuf n := List.mem_map.mpr ⟨bit, List.mem_range.mpr (by omega), rfl⟩
  simp only [wordCases, List.mem_append]
  rcases hn' with rfl | rfl | rfl
  · exact .inl (.inl hmem)
  · exact .inl (.inr (.inl hmem))
  · exact .inl (.inr (.inr hmem))

private theorem mem_wordFlip {w i : Nat} (hw : w ∈ [1, 2, 4]) (hi : i + w ≤ inBuf.length) (heff : AllEffective c inBuf w i) :
    xored inBuf (bitRun (8 * w) (8 * i)) ∈ wordCases c inBuf := by
  simp only [wordCases, List.mem_append]
  rcases List.mem_cons.mp hw with rfl | hw
  · exact .inr (.inl (.inl (List.mem_map.mpr ⟨i, List.mem_range.mpr hi, rfl⟩)))
  · have hpos := (width_bounds (List.mem_cons_of_mem 1 hw)).1
    exact .inr (.inl (.inr (mem_longerWords.mpr ⟨w, i, hw, hi, effAny_of_all heff hpos, List.mem_singleton.mpr rfl⟩)))

/-- What the test takes for a bit flip is one, unless it straddles. -/
theorem covered_of_couldBeBitflip {w i x : Nat} (hw : w ∈ [1, 2, 4]) (hi : i + w ≤ inBuf.length) (heff : AllEffective c inBuf w i)
    (hx : x < 2 ^ (8 * w)) (hne : x ≠ 0) (h : couldBeBitflip x = true) : Covered c inBuf (x * 2 ^ (8 * i)) := by
  have hw' : w = 1 ∨ w = 2 ∨ w = 4 := by simpa using hw
  have hx32 : x < 2 ^ 32 := Nat.lt_of_lt_of_le hx (Nat.pow_le_pow_right Nat.two_pos (by omega))
  obtain ⟨n, s, rfl, hns⟩ := ((couldBeBitflip_iff hx32).mp h).resolve_left hne
  have hmul : bitRun n s * 2 ^ (8 * i) = bitRun n (s + 8 * i) := by rw [bitRun, bitRun, Nat.pow_add, Nat.mul_assoc]
  have hend (hn : 0 < n) : s + n ≤ 8 * w := by
    refine Nat.le_of_not_lt fun hlt => ?_
    have hbit : (bitRun n s).testBit (s + n - 1) = true := by
      rw [testBit_bitRun]
      exact decide_eq_true (by omega)
    have hpow : 2 ^ (8 * w) ≤ 2 ^ (s + n - 1) := Nat.pow_le_pow_right Nat.two_pos (by omega)
    rw [Nat.testBit_lt_two_pow (Nat.lt_of_lt_of_le hx hpow)] at hbit
    exact Bool.false_ne_true hbit
  rw [hmul]
  rcases hns with hn | ⟨hn, hs⟩
  · have hn' : n = 1 ∨ n = 2 ∨ n = 4 := by simpa using hn
    have hend := hend (by omega)
    by_cases hfit : (s + 8 * i) % 8 + n ≤ 8
    · rw [← flipMask_eq_bitRun hfit]
      exact .inr (mem_flips hn (by omega))
    · refine .inl ⟨s + 8 * i, ?_⟩
      rcases hn' with rfl | rfl | rfl
      · omega
      · exact .inl ⟨rfl, by omega⟩
      · exact .inr ⟨rfl, by omega⟩
  · have hn' : n = 8 ∨ n = 16 ∨ n = 32 := by simpa using hn
    have hend := hend (by omega)
    have hbytes : 8 * (n / 8) = n ∧ 8 * (i + s / 8) = s + 8 * i := by omega
    have hmem := @mem_wordFlip c inBuf (n / 8) (i + s / 8) (by rcases hn' with rfl | rfl | rfl <;> decide) (by omega)
      (heff.sub (by omega))
    rw [hbytes.1, hbytes.2] at hmem
    exact .inr hmem


/-- The words of an input, as parts of one number. -/
theorem wordOf_eq_subword (inBuf : Bytes) (w i : Nat) : wordOf inBuf w i = subword w i (wordAt inBuf) := by
  rw [wordOf, wordAt_take, wordAt_drop, subword, Nat.shiftRight_eq_div_pow]

theorem subword_wordOf {w i w' k : Nat} (h : k + w' ≤ w) : subword w' k (wordOf inBuf w i) = wordOf inBuf w' (i + k) := by
  rw [wordOf_eq_subword, wordOf_eq_subword]
  apply Nat.eq_of_testBit_eq
  intro j
  rw [testBit_subword, testBit_subword, testBit_subword]
  by_cases hj : j < 8 * w'
  · rw [decide_eq_true hj, decide_eq_true (by omega : 8 * k + j < 8 * w), Bool.true_and, Bool.true_and, Bool.true_and]
    congr 1
    omega
  · rw [decide_eq_false hj, Bool.false_and, Bool.false_and]

theorem shifted_ne {w v num : Nat} {up : Bool} (hv : v < 2 ^ (8 * w)) (hw : 0 < w) (h1 : 1 ≤ num) (hmax : num ≤ arithMax) :
    shifted w up v num % 2 ^ (8 * w) ≠ v := by
  have hpow : 2 ^ 8 ≤ 2 ^ (8 * w) := Nat.pow_le_pow_right Nat.two_pos (by omega)
  rw [arithMax] at hmax
  rw [shifted]
  generalize 2 ^ (8 * w) = N at *
  split_ifs
  · rcases Nat.lt_or_ge (v + num) N with h | h
    · rw [Nat.mod_eq_of_lt h]
      omega
    · rw [Nat.mod_eq_sub_mod h, Nat.mod_eq_of_lt (by omega)]
      omega
  · rcases Nat.lt_or_ge (v + N - num) N with h | h
    · rw [Nat.mod_eq_of_lt h]
      omega
    · rw [Nat.mod_eq_sub_mod h, Nat.mod_eq_of_lt (by omega)]
      omega

theorem arithValue_ne {w orig num : Nat} {big up : Bool} (horig : orig < 2 ^ (8 * w)) (hw : 0 < w) (h1 : 1 ≤ num)
    (hmax : num ≤ arithMax) : arithValue w big up orig num ≠ orig := by
  intro he
  refine @shifted_ne w _ num up (order_lt big horig) hw h1 hmax ?_
  have := congrArg (order w big) he
  rwa [arithValue, order_order big (Nat.mod_lt _ (Nat.two_pow_pos _))] at this

theorem order_byte {v : Nat} (big : Bool) (hv : v < 2 ^ (8 * 1)) : order 1 big v = v := by
  cases big with
  | false => rfl
  | true => exact (wordAt_wordBytes 1 v).trans (Nat.mod_eq_of_lt hv)

theorem xor_ne_zero {a b : Nat} (h : a ≠ b) : a ^^^ b ≠ 0 := by
  intro hzero
  refine h ?_
  rw [← Nat.xor_zero a, ← Nat.xor_self b, ← Nat.xor_assoc, hzero, Nat.zero_xor]

private theorem mem_arith (hmode : c.noArith = false) {w i num v : Nat} (hw : w ∈ [1, 2, 4]) (hi : i + w ≤ inBuf.length)
    (heff : effAny (effectorMap c inBuf.length) w i = true) (h1 : 1 ≤ num) (hmax : num ≤ arithMax)
    (hv : v ∈ arithNews w (wordOf inBuf w i) num) : withWord inBuf w i v ∈ wordCases c inBuf := by
  have hmem : withWord inBuf w i v ∈ arithCases inBuf w i := by
    refine List.mem_flatMap.mpr ⟨num, List.mem_range'_1.mpr (by omega), List.mem_map.mpr ⟨v, hv, rfl⟩⟩
  have hall := (@mem_allWords c inBuf _ _).mpr ⟨w, i, hw, hi, heff, hmem⟩
  simp only [wordCases, List.mem_append]
  rw [hmode, if_neg Bool.false_ne_true]
  exact .inr (.inr (.inl (List.mem_append.mpr hall)))

private theorem mem_interest (hmode : c.noArith = false) {w i v : Nat} {n : Int} (hw : w ∈ [1, 2, 4]) (hi : i + w ≤ inBuf.length)
    (heff : effAny (effectorMap c inBuf.length) w i = true) (hn : n ∈ interestTable w)
    (hv : v ∈ interestNews w (wordOf inBuf w i) n) : withWord inBuf w i v ∈ wordCases c inBuf := by
  have hmem : withWord inBuf w i v ∈ interestCases inBuf w i := List.mem_flatMap.mpr ⟨n, hn, List.mem_map.mpr ⟨v, hv, rfl⟩⟩
  have hall := (@mem_allWords c inBuf _ _).mpr ⟨w, i, hw, hi, heff, hmem⟩
  simp only [wordCases, List.mem_append, hmode]
  exact .inr (.inr (.inr hall))

/-- An arithmetic neighbour is run, or it straddles: as a neighbour of half of the word where no more is affected. -/
theorem covered_arith (hmode : c.noArith = false) {w i num : Nat} (big up : Bool) (hw : w ∈ [1, 2, 4]) (hi : i + w ≤ inBuf.length)
    (heff : AllEffective c inBuf w i) (h1 : 1 ≤ num) (hmax : num ≤ arithMax) :
    Covered c inBuf ((wordOf inBuf w i ^^^ arithValue w big up (wordOf inBuf w i) num) * 2 ^ (8 * i)) := by
  have hcovered {w i : Nat} {big : Bool} (hw : w ∈ [1, 2, 4]) (hi : i + w ≤ inBuf.length) (heff : AllEffective c inBuf w i)
      (hbig : w = 1 → big = false) (haffects : affects w big up (wordOf inBuf w i) num = true) :
      Covered c inBuf ((wordOf inBuf w i ^^^ arithValue w big up (wordOf inBuf w i) num) * 2 ^ (8 * i)) := by
    have hpos := (width_bounds hw).1
    have hnew := arithValue_lt w big up (wordOf inBuf w i) num
    cases hflip : couldBeBitflip (wordOf inBuf w i ^^^ arithValue w big up (wordOf inBuf w i) num) with
    | true =>
      exact covered_of_couldBeBitflip hw hi heff (Nat.xor_lt_two_pow (wordOf_lt inBuf w i) hnew)
        (xor_ne_zero (Ne.symm (arithValue_ne (wordOf_lt inBuf w i) hpos h1 hmax))) hflip
    | false =>
      refine .inr ?_
      rw [← withWord_eq_xored hi hnew]
      exact mem_arith hmode hw hi (effAny_of_all heff hpos) h1 hmax (mem_arithNews.mpr ⟨big, up, hbig, haffects, hflip, rfl⟩)
  have hbyte {i : Nat} (big : Bool) (hi : i + 1 ≤ inBuf.length) (heff : AllEffective c inBuf 1 i) :
      Covered c inBuf ((wordOf inBuf 1 i ^^^ arithValue 1 big up (wordOf inBuf 1 i) num) * 2 ^ (8 * i)) := by
    have hsame : arithValue 1 big up (wordOf inBuf 1 i) num = arithValue 1 false up (wordOf inBuf 1 i) num := by
      rw [arithValue, arithValue, order_byte big (wordOf_lt inBuf 1 i), order_byte big (Nat.mod_lt _ (Nat.two_pow_pos _))]
      rfl
    have haffects : affects 1 false up (wordOf inBuf 1 i) num = true := by
      have hlow (x : Nat) : x % 2 ^ (8 * (1 / 2)) = 0 := Nat.mod_one x
      rw [affects, hlow]
      cases up with
      | true => exact decide_eq_true (Nat.le_add_left_of_le h1)
      | false => exact decide_eq_true h1
    rw [hsame]
    exact hcovered (by decide) hi heff (fun _ => rfl) haffects
  have hhalf {h i : Nat} (hw : h + h ∈ [1, 2, 4]) (hi : i + (h + h) ≤ inBuf.length) (heff : AllEffective c inBuf (h + h) i)
      (hpart : ∀ i, i + h ≤ inBuf.length → AllEffective c inBuf h i →
        Covered c inBuf ((wordOf inBuf h i ^^^ arithValue h big up (wordOf inBuf h i) num) * 2 ^ (8 * i))) :
      Covered c inBuf ((wordOf inBuf (h + h) i ^^^ arithValue (h + h) big up (wordOf inBuf (h + h) i) num) * 2 ^ (8 * i)) := by
    cases haffects : affects (h + h) big up (wordOf inBuf (h + h) i) num with
    | true => exact hcovered hw hi heff (fun h1 => by omega) haffects
    | false =>
      have hk : (if big then h else 0) + h ≤ h + h := by split_ifs <;> omega
      rw [arithValue_halved (wordOf_lt inBuf _ i) haffects, subword_wordOf hk, Nat.mul_assoc, ← Nat.pow_add, ← Nat.mul_add, Nat.add_comm _ i]
      exact hpart _ (by omega) (heff.sub hk)
  have hw' : w = 1 ∨ w = 2 ∨ w = 4 := by simpa using hw
  rcases hw' with rfl | rfl | rfl
  · exact hbyte big hi heff
  · exact hhalf (h := 1) hw hi heff fun i => hbyte big
  · exact hhalf (h := 2) hw hi heff fun i hi heff => hhalf (h := 1) (by decide) hi heff fun i => hbyte big

/-- The new word is the old one, or the test is right that it was run. -/
theorem covered_of_couldBeArith (hmode : c.noArith = false) {w i v : Nat} (hw : w ∈ [1, 2, 4]) (hi : i + w ≤ inBuf.length)
    (heff : AllEffective c inBuf w i) (hv : v < 2 ^ (8 * w)) (hne : v ≠ wordOf inBuf w i)
    (h : couldBeArith (wordOf inBuf w i) v w = true) : Covered c inBuf ((wordOf inBuf w i ^^^ v) * 2 ^ (8 * i)) := by
  obtain ⟨w', k, big, up, num, hw', hk, h1, hmax, hxor⟩ := (couldBeArith_spec hw (wordOf_lt inBuf w i) hv h).resolve_left (Ne.symm hne)
  rw [hxor, subword_wordOf hk, Nat.mul_assoc, ← Nat.pow_add, ← Nat.mul_add, Nat.add_comm k i]
  exact covered_arith hmode big up hw' (by omega) (heff.sub hk) h1 hmax

/-- The value is run, straddles, or is what is there. -/
private theorem covered_of_tests (hmode : c.noArith = false) {w i v : Nat} (hw : w ∈ [1, 2, 4]) (hi : i + w ≤ inBuf.length)
    (heff : AllEffective c inBuf w i) (hv : v < 2 ^ (8 * w)) (hne : v ≠ wordOf inBuf w i)
    (hrest : couldBeBitflip (wordOf inBuf w i ^^^ v) = false → couldBeArith (wordOf inBuf w i) v w = false →
      Covered c inBuf ((wordOf inBuf w i ^^^ v) * 2 ^ (8 * i))) : Covered c inBuf ((wordOf inBuf w i ^^^ v) * 2 ^ (8 * i)) := by
  cases hflip : couldBeBitflip (wordOf inBuf w i ^^^ v) with
  | true => exact covered_of_couldBeBitflip hw hi heff (Nat.xor_lt_two_pow (wordOf_lt inBuf w i) hv) (xor_ne_zero (Ne.symm hne)) hflip
  | false =>
    cases harith : couldBeArith (wordOf inBuf w i) v w with
    | true => exact covered_of_couldBeArith hmode hw hi heff hv hne harith
    | false => exact hrest hflip harith

private theorem covered_interest_byte (hmode : c.noArith = false) {i : Nat} {n : Int} (hi : i + 1 ≤ inBuf.length)
    (heff : AllEffective c inBuf 1 i) (hn : n ∈ interesting8) (hne : word 1 n ≠ wordOf inBuf 1 i) :
    Covered c inBuf ((wordOf inBuf 1 i ^^^ word 1 n) * 2 ^ (8 * i)) := by
  refine covered_of_tests hmode (by decide) hi heff (cutWord_lt 1 n) hne fun hflip harith => .inr ?_
  rw [← withWord_eq_xored hi (cutWord_lt 1 n)]
  exact mem_interest hmode (by decide) hi (effAny_of_all heff (by decide)) hn
    (mem_interestNews_of_plain hflip harith fun h => absurd rfl h)

/-- Where the difference is that of a part of the word, this part is what matters. -/
private theorem covered_part {w i w' k v v' : Nat} (hk : k + w' ≤ w) (hne : v ≠ wordOf inBuf w i)
    (hxor : wordOf inBuf w i ^^^ v = (subword w' k (wordOf inBuf w i) ^^^ v') * 2 ^ (8 * k))
    (hpart : v' ≠ wordOf inBuf w' (i + k) → Covered c inBuf ((wordOf inBuf w' (i + k) ^^^ v') * 2 ^ (8 * (i + k)))) :
    Covered c inBuf ((wordOf inBuf w i ^^^ v) * 2 ^ (8 * i)) := by
  rw [subword_wordOf hk] at hxor
  rw [hxor, Nat.mul_assoc, ← Nat.pow_add, ← Nat.mul_add, Nat.add_comm k i]
  refine hpart ?_
  rintro rfl
  rw [Nat.xor_self, Nat.zero_mul] at hxor
  exact xor_ne_zero (Ne.symm hne) hxor

private theorem covered_interest_two (hmode : c.noArith = false) {i : Nat} {n : Int} (hi : i + 2 ≤ inBuf.length)
    (heff : AllEffective c inBuf 2 i) (hn : n ∈ interesting16) (big : Bool) (hne : order 2 big (word 2 n) ≠ wordOf inBuf 2 i) :
    Covered c inBuf ((wordOf inBuf 2 i ^^^ order 2 big (word 2 n)) * 2 ^ (8 * i)) := by
  have hbyte {v k : Nat} {n : Int} (hv : v ≠ wordOf inBuf 2 i) (hk : k + 1 ≤ 2) (hn : n ∈ interesting8)
      (hxor : wordOf inBuf 2 i ^^^ v = (subword 1 k (wordOf inBuf 2 i) ^^^ word 1 n) * 2 ^ (8 * k)) :
      Covered c inBuf ((wordOf inBuf 2 i ^^^ v) * 2 ^ (8 * i)) :=
    covered_part hk hv hxor fun hv' => covered_interest_byte hmode (by omega) (heff.sub hk) hn hv'
  have hplain (n : Int) (hn : n ∈ interesting16) (hne : word 2 n ≠ wordOf inBuf 2 i) :
      Covered c inBuf ((wordOf inBuf 2 i ^^^ word 2 n) * 2 ^ (8 * i)) := by
    refine covered_of_tests hmode (by decide) hi heff (cutWord_lt 2 n) hne fun hflip harith => ?_
    cases hint : couldBeInterest (wordOf inBuf 2 i) (word 2 n) 2 false with
    | false =>
      refine .inr ?_
      rw [← withWord_eq_xored hi (cutWord_lt 2 n)]
      exact mem_interest hmode (by decide) hi (effAny_of_all heff (by decide)) hn (mem_interestNews_of_plain hflip harith fun _ => hint)
    | true =>
      rcases couldBeInterest_spec (by decide) (wordOf_lt inBuf 2 i) hint with h | ⟨k, hk, n', hn', hxor⟩ | ⟨k, hk, n', hn', big, h2, -⟩ | h4
      · exact absurd h.symm hne
      · exact hbyte hne hk hn' hxor
      · exact absurd (h2 rfl).1 Bool.false_ne_true
      · exact absurd h4.1 (by decide)
  cases big with
  | false => exact hplain n hn hne
  | true =>
    by_cases hsame : word 2 n = swap 2 (word 2 n)
    · have heq : order 2 true (word 2 n) = word 2 n := hsame.symm
      rw [heq] at hne ⊢
      exact hplain n hn hne
    · refine covered_of_tests hmode (by decide) hi heff (order_lt true (cutWord_lt 2 n)) hne fun hflip harith => ?_
      cases hint : couldBeInterest (wordOf inBuf 2 i) (order 2 true (word 2 n)) 2 true with
      | false =>
        refine .inr ?_
        rw [← withWord_eq_xored hi (order_lt true (cutWord_lt 2 n))]
        exact mem_interest hmode (by decide) hi (effAny_of_all heff (by decide)) hn
          (mem_interestNews_of_swapped (by decide) hsame hflip harith hint)
      | true =>
        rcases couldBeInterest_spec (by decide) (wordOf_lt inBuf 2 i) hint with h | ⟨k, hk, n', hn', hxor⟩ | ⟨k, hk, n', hn', big, h2, hxor⟩ | h4
        · exact absurd h.symm hne
        · exact hbyte hne hk hn' hxor
        · obtain rfl := (h2 rfl).2
          obtain rfl : k = 0 := by omega
          exact covered_part hk hne hxor fun hv' => hplain n' hn' hv'
        · exact absurd h4.1 (by decide)

private theorem covered_interest_four (hmode : c.noArith = false) {i : Nat} {n : Int} (hi : i + 4 ≤ inBuf.length)
    (heff : AllEffective c inBuf 4 i) (hn : n ∈ interesting32) (big : Bool) (hne : order 4 big (word 4 n) ≠ wordOf inBuf 4 i) :
    Covered c inBuf ((wordOf inBuf 4 i ^^^ order 4 big (word 4 n)) * 2 ^ (8 * i)) := by
  have hredundant {v : Nat} {check : Bool} (hv : v ≠ wordOf inBuf 4 i) (hint : couldBeInterest (wordOf inBuf 4 i) v 4 check = true)
      (hwhole : check = true → ∀ n ∈ interesting32, v = word 4 n → Covered c inBuf ((wordOf inBuf 4 i ^^^ v) * 2 ^ (8 * i))) :
      Covered c inBuf ((wordOf inBuf 4 i ^^^ v) * 2 ^ (8 * i)) := by
    rcases couldBeInterest_spec (by decide) (wordOf_lt inBuf 4 i) hint with
      h | ⟨k, hk, n', hn', hxor⟩ | ⟨k, hk, n', hn', big, -, hxor⟩ | ⟨-, hcheck, n', hn', hval⟩
    · exact absurd h.symm hv
    · exact covered_part hk hv hxor fun hv' => covered_interest_byte hmode (by omega) (heff.sub hk) hn' hv'
    · exact covered_part hk hv hxor fun hv' => covered_interest_two hmode (by omega) (heff.sub hk) hn' big hv'
    · exact hwhole hcheck n' hn' hval
  have hplain (n : Int) (hn : n ∈ interesting32) (hne : word 4 n ≠ wordOf inBuf 4 i) :
      Covered c inBuf ((wordOf inBuf 4 i ^^^ word 4 n) * 2 ^ (8 * i)) := by
    refine covered_of_tests hmode (by decide) hi heff (cutWord_lt 4 n) hne fun hflip harith => ?_
    cases hint : couldBeInterest (wordOf inBuf 4 i) (word 4 n) 4 false with
    | false =>
      refine .inr ?_
      rw [← withWord_eq_xored hi (cutWord_lt 4 n)]
      exact mem_interest hmode (by decide) hi (effAny_of_all heff (by decide)) hn (mem_interestNews_of_plain hflip harith fun _ => hint)
    | true => exact hredundant hne hint fun h => absurd h Bool.false_ne_true
  cases big with
  | false => exact hplain n hn hne
  | true =>
    by_cases hsame : word 4 n = swap 4 (word 4 n)
    · have heq : order 4 true (word 4 n) = word 4 n := hsame.symm
      rw [heq] at hne ⊢
      exact hplain n hn hne
    · refine covered_of_tests hmode (by decide) hi heff (order_lt true (cutWord_lt 4 n)) hne fun hflip harith => ?_
      cases hint : couldBeInterest (wordOf inBuf 4 i) (order 4 true (word 4 n)) 4 true with
      | false =>
        refine .inr ?_
        rw [← withWord_eq_xored hi (order_lt true (cutWord_lt 4 n))]
        exact mem_interest hmode (by decide) hi (effAny_of_all heff (by decide)) hn
          (mem_interestNews_of_swapped (by decide) hsame hflip harith hint)
      | true =>
        refine hredundant hne hint fun _ n' hn' hval => ?_
        rw [hval] at hne ⊢
        exact hplain n' hn' hne

/-- What the stages try on a word: arithmetic in both directions, and the interesting values, in both orders of bytes. -/
inductive Tried (orig w : Nat) : Nat → Prop
  | arith (big up : Bool) {num : Nat} (h1 : 1 ≤ num) (hmax : num ≤ arithMax) : Tried orig w (arithValue w big up orig num)
  | interest (big : Bool) {n : Int} (hn : n ∈ interestTable w) : Tried orig w (order w big (word w n))

/-- Each of these values is run, unless it is the value there is or differs from it in bits that straddle; the tests for
redundancy lose nothing else. -/
theorem mem_wordCases_iff (hmode : c.noArith = false) {w i v : Nat} (hw : w ∈ [1, 2, 4]) (hi : i + w ≤ inBuf.length)
    (heff : AllEffective c inBuf w i) (hv : Tried (wordOf inBuf w i) w v) :
    withWord inBuf w i v ∈ wordCases c inBuf ↔ v ≠ wordOf inBuf w i ∧ ¬ Straddles ((wordOf inBuf w i ^^^ v) * 2 ^ (8 * i)) := by
  have hlt : v < 2 ^ (8 * w) := by
    cases hv with
    | arith big up h1 hmax => exact arithValue_lt w big up _ _
    | interest big hn => exact order_lt big (cutWord_lt w _)
  constructor
  · intro hm
    refine ⟨?_, fun hstraddles => ?_⟩
    · rintro rfl
      exact (wordCases_differ hm).2 (withWord_wordOf hi)
    · rw [withWord_eq_xored hi hlt] at hm
      exact not_mem_of_straddles (mask_lt hi (Nat.xor_lt_two_pow (wordOf_lt inBuf w i) hlt)) hstraddles hm
  · rintro ⟨hne, hstraddles⟩
    rw [withWord_eq_xored hi hlt]
    refine Or.resolve_left ?_ hstraddles
    cases hv with
    | arith big up h1 hmax => exact covered_arith hmode big up hw hi heff h1 hmax
    | interest big hn =>
      rename_i n
      obtain rfl | rfl | rfl : w = 1 ∨ w = 2 ∨ w = 4 := by simpa using hw
      · rw [order_byte big (cutWord_lt 1 n)] at hne ⊢
        exact covered_interest_byte hmode hi heff hn hne
      · exact covered_interest_two hmode hi heff hn big hne
      · exact covered_interest_four hmode hi heff hn big hne

end LtlFuzzer.Aflgo
