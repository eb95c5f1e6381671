import Mathlib.Algebra.Group.Nat.Defs
import Mathlib.Logic.Function.Basic
import Mathlib.Tactic.IntervalCases

/-! The coverage map of a run, walked in words, and what is done to each byte of it. -/
namespace LtlFuzzer.Aflgo

def mapSize : Nat := 1 <<< 16

theorem mapSize_pos : 0 < mapSize := by decide

/-- A map of MAP_SIZE bytes, as the words of 64 bits it is walked in. -/
structure Bitmap where
  words : List (BitVec 64)
  size : words.length = mapSize >>> 3

/-- Byte k of a word in memory, the lowest first. -/
def byte (w : BitVec 64) (k : Nat) : BitVec 8 := w.extractLsb' (8 * k) 8

def bytesOf (words : List (BitVec 64)) (i : Nat) : BitVec 8 := byte (words.getD (i / 8) 0) (i % 8)

def Bitmap.at (m : Bitmap) (i : Nat) : BitVec 8 := bytesOf m.words i

def countClassLookup8 (b : BitVec 8) : BitVec 8 :=
  if b.toNat = 0 then 0
  else if b.toNat = 1 then 1
  else if b.toNat = 2 then 2
  else if b.toNat = 3 then 4
  else if b.toNat ≤ 7 then 8
  else if b.toNat ≤ 15 then 16
  else if b.toNat ≤ 31 then 32
  else if b.toNat ≤ 127 then 64
  else 128

/-- The table of two bytes at a time, entry by entry. -/
def initCountClass16 : Nat → BitVec 16 :=
  (List.range 256).foldl (fun table b1 =>
    (List.range 256).foldl (fun table b2 =>
      Function.update table ((b1 <<< 8) + b2)
        ((countClassLookup8 (BitVec.ofNat 8 b1)).setWidth 16 <<< 8 ||| (countClassLookup8 (BitVec.ofNat 8 b2)).setWidth 16))
      table) (fun _ => 0)

def half (w : BitVec 64) (k : Nat) : BitVec 16 := w.extractLsb' (16 * k) 16

def classifyWord (countClassLookup16 : Nat → BitVec 16) (mem : BitVec 64) : BitVec 64 :=
  let look (k : Nat) : BitVec 16 := countClassLookup16 (half mem k).toNat
  if mem ≠ 0 then look 3 ++ look 2 ++ look 1 ++ look 0 else mem

def Bitmap.classifyCounts (m : Bitmap) : Bitmap where
  words := m.words.map (classifyWord initCountClass16)
  size := by rw [List.length_map, m.size]

def simplifyLookup (b : BitVec 8) : BitVec 8 := if b = 0 then 1 else 128

def simplifyWord (mem : BitVec 64) : BitVec 64 :=
  let look (k : Nat) : BitVec 8 := simplifyLookup (byte mem k)
  if mem ≠ 0 then look 7 ++ look 6 ++ look 5 ++ look 4 ++ look 3 ++ look 2 ++ look 1 ++ look 0 else 0x0101010101010101

def Bitmap.simplifyTrace (m : Bitmap) : Bitmap where
  words := m.words.map simplifyWord
  size := by rw [List.length_map, m.size]

/-- One word of the walk: a count of two as soon as a byte is hit that is still pristine. -/
def hasNewWord (ret : Nat) (current virgin : BitVec 64) : Nat × BitVec 64 :=
  if current ≠ 0 ∧ current &&& virgin ≠ 0 then
    (if ret < 2 then
      if (List.range 8).any fun k => byte current k != 0 && byte virgin k == 0xff then 2 else 1
    else ret, virgin &&& ~~~current)
  else (ret, virgin)

def hasNewWords (ret : Nat) : List (BitVec 64) → List (BitVec 64) → Nat × List (BitVec 64)
  | c :: current, v :: virgin =>
    let r := hasNewWord ret c v
    let rest := hasNewWords r.1 current virgin
    (rest.1, r.2 :: rest.2)
  | _, virgin => (ret, virgin)

private theorem getElem_byte (w : BitVec 64) (k : Nat) {b : Nat} (hb : b < 8) : (byte w k)[b] = w.getLsbD (8 * k + b) := by
  simp [byte]

private theorem byte_and_not (v c : BitVec 64) {k : Nat} (hk : k < 8) : byte (v &&& ~~~c) k = byte v k &&& ~~~byte c k := by
  ext b hb
  have : 8 * k + b < 64 := by omega
  simp [getElem_byte, this]

private theorem byte_and (v c : BitVec 64) (k : Nat) : byte (v &&& c) k = byte v k &&& byte c k := by
  ext b hb
  simp [getElem_byte]

private theorem eq_zero_iff_byte (w : BitVec 64) : w = 0 ↔ ∀ k < 8, byte w k = 0 := by
  constructor
  · rintro rfl k -
    ext b hb
    simp [getElem_byte]
  · intro h
    ext j hj
    have hlow : j % 8 < 8 := Nat.mod_lt j (by decide)
    have hb := getElem_byte w (j / 8) hlow
    rw [Nat.div_add_mod, BitVec.getLsbD_eq_getElem hj] at hb
    rw [← hb]
    simp [h (j / 8) (by omega)]

private theorem and_not_eq_self {n : Nat} {c v : BitVec n} (h : c &&& v = 0) : v &&& ~~~c = v := by
  ext j hj
  have hb := congrArg (·[j]) h
  simp only [BitVec.getElem_and, BitVec.ofNat_eq_ofNat, BitVec.getElem_zero] at hb
  rw [BitVec.getElem_and, BitVec.getElem_not]
  cases hv : v[j] <;> simp_all

private theorem hasNewWord_snd (ret : Nat) (c v : BitVec 64) : (hasNewWord ret c v).2 = v &&& ~~~c := by
  rw [hasNewWord]
  split
  · rfl
  · next h =>
    refine (and_not_eq_self ?_).symm
    by_contra hne
    exact h ⟨fun hc => hne (by rw [hc, BitVec.ofNat_eq_ofNat, BitVec.zero_and]), hne⟩

theorem hasNewWords_snd (ret : Nat) (current virgin : List (BitVec 64)) (h : current.length = virgin.length) :
    (hasNewWords ret current virgin).2 = List.zipWith (fun v c => v &&& ~~~c) virgin current := by
  induction current generalizing ret virgin with
  | nil =>
    cases virgin with
    | nil => rfl
    | cons v virgin => cases h
  | cons c current ih =>
    cases virgin with
    | nil => cases h
    | cons v virgin =>
      rw [hasNewWords, List.zipWith_cons_cons, hasNewWord_snd, ih _ _ (Nat.succ.inj h)]

def Bitmap.hasNewBits (traceBits virginMap : Bitmap) : Nat × Bitmap :=
  let r := hasNewWords 0 traceBits.words virginMap.words
  (r.1, ⟨r.2, by rw [hasNewWords_snd _ _ _ (traceBits.size.trans virginMap.size.symm), List.length_zipWith,
    traceBits.size, virginMap.size, Nat.min_self]⟩)

/-- What is left of a virgin byte is what the trace did not show of it. -/
theorem hasNewBits_at (traceBits virginMap : Bitmap) (i : Nat) :
    (traceBits.hasNewBits virginMap).2.at i = virginMap.at i &&& ~~~traceBits.at i := by
  have hsize := traceBits.size.trans virginMap.size.symm
  have hwords : (traceBits.hasNewBits virginMap).2.words =
      List.zipWith (fun v c => v &&& ~~~c) virginMap.words traceBits.words := hasNewWords_snd _ _ _ hsize
  rw [Bitmap.at, hwords, bytesOf, Bitmap.at, Bitmap.at, bytesOf, bytesOf, ← byte_and_not _ _ (Nat.mod_lt _ (by decide))]
  simp only [List.getD_eq_getElem?_getD, List.getElem?_zipWith]
  by_cases hi : i / 8 < virginMap.words.length
  · simp [hi, hsize ▸ hi]
  · simp [Nat.not_lt.mp hi, hsize ▸ Nat.not_lt.mp hi]

private theorem exists_bytesOf_cons (p : BitVec 8 → BitVec 8 → Prop) (c v : BitVec 64) (cs vs : List (BitVec 64)) :
    (∃ i < 8 * (c :: cs).length, p (bytesOf (c :: cs) i) (bytesOf (v :: vs) i)) ↔
      (∃ k < 8, p (byte c k) (byte v k)) ∨ ∃ i < 8 * cs.length, p (bytesOf cs i) (bytesOf vs i) := by
  have hhead (w : BitVec 64) (ws : List (BitVec 64)) {k : Nat} (hk : k < 8) : bytesOf (w :: ws) k = byte w k := by
    rw [bytesOf, Nat.div_eq_of_lt hk, Nat.mod_eq_of_lt hk, List.getD_cons_zero]
  have htail (w : BitVec 64) (ws : List (BitVec 64)) (i : Nat) : bytesOf (w :: ws) (i + 8) = bytesOf ws i := by
    rw [bytesOf, Nat.add_div_right i (by decide), Nat.add_mod_right, List.getD_cons_succ, bytesOf]
  constructor
  · rintro ⟨i, hi, hp⟩
    by_cases hk : i < 8
    · rw [hhead c cs hk, hhead v vs hk] at hp
      exact Or.inl ⟨i, hk, hp⟩
    · obtain ⟨j, rfl⟩ := Nat.exists_eq_add_of_le' (Nat.not_lt.mp hk)
      rw [htail, htail] at hp
      exact Or.inr ⟨j, by rw [List.length_cons] at hi; omega, hp⟩
  · rintro (⟨k, hk, hp⟩ | ⟨i, hi, hp⟩)
    · exact ⟨k, by rw [List.length_cons]; omega, by rwa [hhead c cs hk, hhead v vs hk]⟩
    · exact ⟨i + 8, by rw [List.length_cons]; omega, by rwa [htail, htail]⟩

private theorem pristine_any_iff (c v : BitVec 64) :
    ((List.range 8).any fun k => byte c k != 0 && byte v k == 0xff) = true ↔ ∃ k < 8, byte c k ≠ 0 ∧ byte v k = 0xff := by
  simp

private theorem and_ne_zero_iff_byte (c v : BitVec 64) : c &&& v ≠ 0 ↔ ∃ k < 8, byte c k &&& byte v k ≠ 0 := by
  rw [ne_eq, eq_zero_iff_byte]
  simp only [byte_and, not_forall, exists_prop, ne_eq]

private theorem and_ne_zero_of_pristine {c v : BitVec 64} (h : ∃ k < 8, byte c k ≠ 0 ∧ byte v k = 0xff) : c &&& v ≠ 0 := by
  obtain ⟨k, hk, hc, hv⟩ := h
  refine (and_ne_zero_iff_byte c v).mpr ⟨k, hk, ?_⟩
  rwa [hv, show (0xff : BitVec 8) = BitVec.allOnes 8 from rfl, BitVec.and_allOnes]

private theorem hasNewWord_cases (c v : BitVec 64) {ret : Nat} (hret : ret ≤ 2) :
    (hasNewWord ret c v).1 ≤ 2 ∧
    ((hasNewWord ret c v).1 = 2 ↔ ret = 2 ∨ ∃ k < 8, byte c k ≠ 0 ∧ byte v k = 0xff) ∧
    ((hasNewWord ret c v).1 ≠ 0 ↔ ret ≠ 0 ∨ ∃ k < 8, byte c k &&& byte v k ≠ 0) := by
  have hp := and_ne_zero_of_pristine (c := c) (v := v)
  have hc : c &&& v ≠ 0 → c ≠ 0 := fun h h0 => h (by rw [h0, BitVec.ofNat_eq_ofNat, BitVec.zero_and])
  rw [← pristine_any_iff] at hp
  rw [← and_ne_zero_iff_byte, ← pristine_any_iff, hasNewWord]
  generalize ((List.range 8).any fun k => byte c k != 0 && byte v k == 0xff) = pristine at hp
  by_cases hcv : c &&& v ≠ 0
  · rw [if_pos ⟨hc hcv, hcv⟩]
    have hnew (r : Nat) (hr : r ≠ 0) : r ≠ 0 ↔ ret ≠ 0 ∨ c &&& v ≠ 0 := iff_of_true hr (Or.inr hcv)
    by_cases hr : ret < 2
    · simp only [if_pos hr]
      cases pristine
      · exact ⟨by decide, iff_of_false (by decide) (by simp; omega), hnew _ (by decide)⟩
      · exact ⟨by decide, iff_of_true rfl (Or.inr rfl), hnew _ (by decide)⟩
    · simp only [if_neg hr]
      exact ⟨hret, iff_of_true (by omega) (Or.inl (by omega)), hnew _ (by omega)⟩
  · rw [if_neg fun h => hcv h.2]
    have hpristine : ¬pristine = true := fun h => hcv (hp h)
    exact ⟨hret, (or_iff_left hpristine).symm, (or_iff_left hcv).symm⟩

private theorem hasNewWords_cases (current virgin : List (BitVec 64)) (h : current.length = virgin.length) {ret : Nat}
    (hret : ret ≤ 2) :
    (hasNewWords ret current virgin).1 ≤ 2 ∧
    ((hasNewWords ret current virgin).1 = 2 ↔
      ret = 2 ∨ ∃ i < 8 * current.length, bytesOf current i ≠ 0 ∧ bytesOf virgin i = 0xff) ∧
    ((hasNewWords ret current virgin).1 ≠ 0 ↔
      ret ≠ 0 ∨ ∃ i < 8 * current.length, bytesOf current i &&& bytesOf virgin i ≠ 0) := by
  induction current generalizing ret virgin with
  | nil => simp [hasNewWords, hret]
  | cons c current ih =>
    cases virgin with
    | nil => cases h
    | cons v virgin =>
      obtain ⟨hle, htwo, hnew⟩ := hasNewWord_cases c v hret
      obtain ⟨hle', htwo', hnew'⟩ := ih virgin (Nat.succ.inj h) hle
      rw [hasNewWords]
      refine ⟨hle', htwo'.trans ?_, hnew'.trans ?_⟩
      · rw [htwo, or_assoc, exists_bytesOf_cons fun a b => a ≠ 0 ∧ b = 0xff]
      · rw [hnew, or_assoc, exists_bytesOf_cons fun a b => a &&& b ≠ 0]

/-- Two exactly where a byte is hit that is pristine, and nonzero exactly where a bit is new. -/
theorem hasNewBits_fst (traceBits virginMap : Bitmap) :
    (traceBits.hasNewBits virginMap).1 ≤ 2 ∧
    ((traceBits.hasNewBits virginMap).1 = 2 ↔ ∃ i < mapSize, traceBits.at i ≠ 0 ∧ virginMap.at i = 0xff) ∧
    ((traceBits.hasNewBits virginMap).1 ≠ 0 ↔ ∃ i < mapSize, traceBits.at i &&& virginMap.at i ≠ 0) := by
  have hcases := hasNewWords_cases traceBits.words virginMap.words (traceBits.size.trans virginMap.size.symm)
    (Nat.zero_le 2)
  have hsize : 8 * traceBits.words.length = mapSize := by rw [traceBits.size]; rfl
  rw [hsize] at hcases
  simp only [OfNat.zero_ne_ofNat, false_or, ne_eq, not_true_eq_false] at hcases
  exact hcases

private theorem fill_row (value : Nat → BitVec 16) (row n : Nat) (table : Nat → BitVec 16) (i : Nat) :
    (List.range n).foldl (fun table b2 => Function.update table (row + b2) (value b2)) table i =
      if row ≤ i ∧ i < row + n then value (i - row) else table i := by
  induction n with
  | zero => 
    rw [if_neg (by omega)]
    rfl
  | succ n ih =>
    rw [List.range_succ, List.foldl_append, List.foldl_cons, List.foldl_nil, Function.update_apply, ih]
    by_cases hi : i = row + n
    · rw [if_pos hi, if_pos (by omega), hi, Nat.add_sub_cancel_left]
    · rw [if_neg hi]
      exact if_congr (by omega) rfl rfl

private theorem fill_rows (value : Nat → Nat → BitVec 16) (n : Nat) (table : Nat → BitVec 16) (i : Nat) :
    (List.range n).foldl (fun table b1 => (List.range 256).foldl (fun table b2 =>
      Function.update table ((b1 <<< 8) + b2) (value b1 b2)) table) table i =
      if i < 256 * n then value (i / 256) (i % 256) else table i := by
  induction n with
  | zero => rfl
  | succ n ih =>
    rw [List.range_succ (n := n), List.foldl_append, List.foldl_cons, List.foldl_nil, fill_row, ih, Nat.shiftLeft_eq]
    by_cases hi : n * 2 ^ 8 ≤ i ∧ i < n * 2 ^ 8 + 256
    · rw [if_pos hi, if_pos (by omega)]
      congr 1 <;> omega
    · rw [if_neg hi]
      exact if_congr (by omega) rfl rfl

private theorem initCountClass16_apply {i : Nat} (hi : i < 65536) :
    initCountClass16 i = (countClassLookup8 (BitVec.ofNat 8 (i / 256))).setWidth 16 <<< 8 |||
      (countClassLookup8 (BitVec.ofNat 8 (i % 256))).setWidth 16 := by
  rw [initCountClass16, fill_rows fun b1 b2 => (countClassLookup8 (BitVec.ofNat 8 b1)).setWidth 16 <<< 8 |||
    (countClassLookup8 (BitVec.ofNat 8 b2)).setWidth 16, if_pos hi]

private theorem getLsbD_halves (f : Nat → BitVec 16) {j : Nat} (hj : j < 64) :
    (f 3 ++ f 2 ++ f 1 ++ f 0 : BitVec 64).getLsbD j = (f (j / 16)).getLsbD (j % 16) := by
  have hparts : j = 16 * (j / 16) + j % 16 := (Nat.div_add_mod j 16).symm
  have hlt : j % 16 < 16 := Nat.mod_lt j (by decide)
  have hq : j / 16 < 4 := by omega
  generalize j / 16 = q at *
  generalize j % 16 = r at *
  subst hparts
  simp only [BitVec.getLsbD_append]
  interval_cases q
  · rw [if_pos (by omega), Nat.mul_zero, Nat.zero_add]
  · rw [if_neg (by omega), if_pos (by omega)]
    congr 1
    omega
  · rw [if_neg (by omega), if_neg (by omega), if_pos (by omega)]
    congr 1
    omega
  · rw [if_neg (by omega), if_neg (by omega), if_neg (by omega)]
    congr 1
    omega

private theorem getLsbD_bytes (f : Nat → BitVec 8) {j : Nat} (hj : j < 64) :
    (f 7 ++ f 6 ++ f 5 ++ f 4 ++ f 3 ++ f 2 ++ f 1 ++ f 0 : BitVec 64).getLsbD j = (f (j / 8)).getLsbD (j % 8) := by
  have hparts : j = 8 * (j / 8) + j % 8 := (Nat.div_add_mod j 8).symm
  have hlt : j % 8 < 8 := Nat.mod_lt j (by decide)
  have hq : j / 8 < 8 := by omega
  generalize j / 8 = q at *
  generalize j % 8 = r at *
  subst hparts
  simp only [BitVec.getLsbD_append]
  interval_cases q <;> grind

private theorem getLsbD_initCountClass16 (w : BitVec 64) (j : Nat) {r b : Nat} (hr : r < 2) (hb : b < 8) :
    (initCountClass16 (half w j).toNat).getLsbD (8 * r + b) = (countClassLookup8 (byte w (2 * j + r))).getLsbD b := by
  have hhi : BitVec.ofNat 8 ((half w j).toNat / 256) = byte w (2 * j + 1) := by
    apply BitVec.eq_of_toNat_eq
    simp only [half, byte, BitVec.extractLsb'_toNat, BitVec.toNat_ofNat, Nat.shiftRight_eq_div_pow]
    rw [show 8 * (2 * j + 1) = 16 * j + 8 by omega, Nat.pow_add, ← Nat.div_div_eq_div_mul]
    omega
  have hlo : BitVec.ofNat 8 ((half w j).toNat % 256) = byte w (2 * j + 0) := by
    apply BitVec.eq_of_toNat_eq
    simp only [half, byte, BitVec.extractLsb'_toNat, BitVec.toNat_ofNat]
    rw [show 8 * (2 * j + 0) = 16 * j by omega]
    omega
  rw [initCountClass16_apply (half w j).isLt, hhi, hlo]
  interval_cases r
  · simp [hb]
    omega
  · have : 8 + b < 16 := by omega
    simp [this]

private theorem byte_classifyWord (w : BitVec 64) {k : Nat} (hk : k < 8) :
    byte (classifyWord initCountClass16 w) k = countClassLookup8 (byte w k) := by
  rw [classifyWord]
  split
  · ext b hb
    rw [getElem_byte _ _ hb, getLsbD_halves (fun k => initCountClass16 (half w k).toNat) (by omega),
      show (8 * k + b) / 16 = k / 2 by omega, show (8 * k + b) % 16 = 8 * (k % 2) + b by omega,
      getLsbD_initCountClass16 w (k / 2) (Nat.mod_lt k (by decide)) hb, Nat.div_add_mod, BitVec.getLsbD_eq_getElem hb]
  · next h =>
    obtain rfl : w = 0 := by simpa using h
    have : byte 0 k = 0 := by simp [byte]
    rw [this]
    rfl

private theorem bytesOf_map {f : BitVec 64 → BitVec 64} {g : BitVec 8 → BitVec 8} (h : ∀ w, ∀ k < 8, byte (f w) k = g (byte w k))
    (words : List (BitVec 64)) {i : Nat} (hi : i / 8 < words.length) : bytesOf (words.map f) i = g (bytesOf words i) := by
  rw [bytesOf, bytesOf, ← h _ _ (Nat.mod_lt i (by decide))]
  simp only [List.getD_eq_getElem?_getD, List.getElem?_map, List.getElem?_eq_getElem hi, Option.map_some, Option.getD_some]

theorem word_lt (m : Bitmap) {i : Nat} (hi : i < mapSize) : i / 8 < m.words.length := by
  rw [m.size, Nat.shiftRight_eq_div_pow]
  exact Nat.div_lt_div_of_lt_of_dvd (by decide) hi

private theorem byte_simplifyWord (w : BitVec 64) {k : Nat} (hk : k < 8) :
    byte (simplifyWord w) k = simplifyLookup (byte w k) := by
  rw [simplifyWord]
  split
  · ext b hb
    rw [getElem_byte _ _ hb, getLsbD_bytes (fun k => simplifyLookup (byte w k)) (by omega),
      show (8 * k + b) / 8 = k by omega, show (8 * k + b) % 8 = b by omega, BitVec.getLsbD_eq_getElem hb]
  · next h =>
    obtain rfl : w = 0 := by simpa using h
    interval_cases k <;> rfl

theorem classifyCounts_at (m : Bitmap) {i : Nat} (hi : i < mapSize) : m.classifyCounts.at i = countClassLookup8 (m.at i) :=
  bytesOf_map (fun w _ hk => byte_classifyWord w hk) m.words (word_lt m hi)

theorem simplifyTrace_at (m : Bitmap) {i : Nat} (hi : i < mapSize) : m.simplifyTrace.at i = simplifyLookup (m.at i) :=
  bytesOf_map (fun w _ hk => byte_simplifyWord w hk) m.words (word_lt m hi)

-- The size stays a name in what follows.
attribute [irreducible] mapSize

end LtlFuzzer.Aflgo
