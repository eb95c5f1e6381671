import LtlFuzzer.Foundation.RandomPrograms
import Mathlib.Algebra.Group.Nat.Defs

/-! Words of bytes, the lowest first, and blocks of memory that differ in some of their bits. -/
namespace LtlFuzzer.Foundation
open Draws

/-- The bytes of a word in memory, the lowest first. -/
def wordBytes : Nat → Nat → List UInt8
  | 0, _ => []
  | w + 1, v => UInt8.ofNat v :: wordBytes w (v / 256)

def wordAt : List UInt8 → Nat
  | [] => 0
  | b :: bs => b.toNat + 256 * wordAt bs

/-- The block with the bits of a mask flipped. -/
def xored (m : List UInt8) (mask : Nat) : List UInt8 := wordBytes m.length (wordAt m ^^^ mask)

/-- The mask of n bits from a place on. -/
def bitRun (n s : Nat) : Nat := (2 ^ n - 1) * 2 ^ s

@[simp] theorem length_wordBytes (w v : Nat) : (wordBytes w v).length = w := by
  induction w generalizing v with
  | zero => rfl
  | succ w ih => rw [wordBytes, List.length_cons, ih]

private theorem two_pow_bytes (w : Nat) : 2 ^ (8 * (w + 1)) = 256 * 2 ^ (8 * w) := by
  rw [Nat.mul_succ, Nat.pow_add, Nat.mul_comm]

theorem wordAt_lt (bs : List UInt8) : wordAt bs < 2 ^ (8 * bs.length) := by
  induction bs with
  | nil => exact Nat.one_pos
  | cons b bs ih =>
    have hb : b.toNat < 256 := b.toNat_lt
    rw [wordAt, List.length_cons, two_pow_bytes]
    omega

theorem wordAt_wordBytes (w v : Nat) : wordAt (wordBytes w v) = v % 2 ^ (8 * w) := by
  induction w generalizing v with
  | zero => exact (Nat.mod_one v).symm
  | succ w ih =>
    rw [wordBytes, wordAt, ih, two_pow_bytes, Nat.mod_mul, UInt8.toNat_ofNat']

theorem wordBytes_wordAt (bs : List UInt8) : wordBytes bs.length (wordAt bs) = bs := by
  induction bs with
  | nil => rfl
  | cons b bs ih =>
    have hb : b.toNat < 256 := b.toNat_lt
    have hhead : UInt8.ofNat (wordAt (b :: bs)) = b := by
      apply UInt8.toNat_inj.mp
      rw [UInt8.toNat_ofNat', wordAt]
      omega
    have htail : wordAt (b :: bs) / 256 = wordAt bs := by
      rw [wordAt]
      omega
    rw [List.length_cons, wordBytes, hhead, htail, ih]

theorem wordAt_inj {a b : List UInt8} (hlen : a.length = b.length) (h : wordAt a = wordAt b) : a = b := by
  rw [← wordBytes_wordAt a, hlen, h, wordBytes_wordAt]

theorem wordAt_append (a b : List UInt8) : wordAt (a ++ b) = wordAt a + 2 ^ (8 * a.length) * wordAt b := by
  induction a with
  | nil => rw [List.nil_append, wordAt, List.length_nil, Nat.mul_zero, Nat.pow_zero, Nat.one_mul, Nat.zero_add]
  | cons c a ih =>
    rw [List.cons_append, wordAt, wordAt, ih, List.length_cons, two_pow_bytes, Nat.mul_add, Nat.mul_assoc, Nat.add_assoc]

/-- Low parts of k bits and what is above them. -/
theorem xor_append {k a b : Nat} (ha : a < 2 ^ k) (hb : b < 2 ^ k) (x y : Nat) :
    (a + 2 ^ k * x) ^^^ (b + 2 ^ k * y) = (a ^^^ b) + 2 ^ k * (x ^^^ y) := by
  apply Nat.eq_of_testBit_eq
  intro i
  have hab : a ^^^ b < 2 ^ k := Nat.xor_lt_two_pow ha hb
  rw [Nat.testBit_xor, Nat.add_comm a, Nat.add_comm b, Nat.add_comm (a ^^^ b), Nat.testBit_two_pow_mul_add _ ha,
    Nat.testBit_two_pow_mul_add _ hb, Nat.testBit_two_pow_mul_add _ hab]
  split_ifs <;> rw [Nat.testBit_xor]

@[simp] theorem length_xored (m : List UInt8) (mask : Nat) : (xored m mask).length = m.length := length_wordBytes _ _

theorem wordAt_xored {m : List UInt8} {mask : Nat} (h : mask < 2 ^ (8 * m.length)) : wordAt (xored m mask) = wordAt m ^^^ mask := by
  rw [xored, wordAt_wordBytes, Nat.mod_eq_of_lt (Nat.xor_lt_two_pow (wordAt_lt m) h)]

/-- A block of the same length is known by its mask. -/
theorem eq_xored {m m' : List UInt8} {mask : Nat} (hlen : m'.length = m.length) (h : wordAt m' = wordAt m ^^^ mask) :
    m' = xored m mask := by
  rw [xored, ← h, ← hlen, wordBytes_wordAt]

theorem xored_inj {m : List UInt8} {x y : Nat} (hx : x < 2 ^ (8 * m.length)) (hy : y < 2 ^ (8 * m.length))
    (h : xored m x = xored m y) : x = y := by
  have := congrArg wordAt h
  rw [wordAt_xored hx, wordAt_xored hy] at this
  rw [← Nat.zero_xor x, ← Nat.zero_xor y, ← Nat.xor_self (wordAt m), Nat.xor_assoc, Nat.xor_assoc, this]

theorem xored_zero (m : List UInt8) : xored m 0 = m := by rw [xored, Nat.xor_zero, wordBytes_wordAt]

theorem xored_xored {m : List UInt8} {x : Nat} (hx : x < 2 ^ (8 * m.length)) (y : Nat) :
    xored (xored m x) y = xored m (x ^^^ y) := by
  rw [xored, length_xored, wordAt_xored hx, Nat.xor_assoc, ← xored]

/-- What a write flips: just bits of the word written. -/
theorem overwrite_eq_xored {m bs : List UInt8} {pos : Nat} (h : pos + bs.length ≤ m.length) :
    overwrite m pos bs = xored m ((wordAt ((m.drop pos).take bs.length) ^^^ wordAt bs) * 2 ^ (8 * pos)) := by
  refine eq_xored (length_overwrite h) ?_
  have hpos : (m.take pos).length = pos := List.length_take_of_le (by omega)
  have hold : ((m.drop pos).take bs.length).length = bs.length := List.length_take_of_le (by rw [List.length_drop]; omega)
  have hm : m = m.take pos ++ ((m.drop pos).take bs.length ++ m.drop (pos + bs.length)) := by
    rw [← List.drop_drop, List.take_append_drop, List.take_append_drop]
  have hword : wordAt m = wordAt (m.take pos) + 2 ^ (8 * pos) *
      (wordAt ((m.drop pos).take bs.length) + 2 ^ (8 * bs.length) * wordAt (m.drop (pos + bs.length))) := by
    conv_lhs => rw [hm]
    rw [wordAt_append, wordAt_append, hpos, hold]
  have hnew : wordAt (overwrite m pos bs) = wordAt (m.take pos) + 2 ^ (8 * pos) *
      (wordAt bs + 2 ^ (8 * bs.length) * wordAt (m.drop (pos + bs.length))) := by
    rw [overwrite, List.append_assoc, wordAt_append, wordAt_append, hpos]
  have hlow := wordAt_lt (m.take pos)
  have hwas := wordAt_lt ((m.drop pos).take bs.length)
  have hbs := wordAt_lt bs
  rw [hpos] at hlow
  rw [hold] at hwas
  have hxor : wordAt m ^^^ wordAt (overwrite m pos bs) =
      (wordAt ((m.drop pos).take bs.length) ^^^ wordAt bs) * 2 ^ (8 * pos) := by
    rw [hword, hnew, xor_append hlow hlow, xor_append hwas hbs, Nat.xor_self, Nat.xor_self, Nat.mul_zero, Nat.add_zero,
      Nat.zero_add, Nat.mul_comm]
  rw [← hxor, ← Nat.xor_assoc, Nat.xor_self, Nat.zero_xor]

theorem testBit_bitRun (n s i : Nat) : (bitRun n s).testBit i = decide (s ≤ i ∧ i < s + n) := by
  rw [bitRun, Nat.mul_comm, Nat.testBit_two_pow_mul, Nat.testBit_two_pow_sub_one, ← Bool.decide_and]
  apply decide_eq_decide.mpr
  omega

theorem wordAt_take (n : Nat) (m : List UInt8) : wordAt (m.take n) = wordAt m % 2 ^ (8 * n) := by
  rcases Nat.le_total m.length n with hle | hle
  · have hlt : wordAt m < 2 ^ (8 * n) :=
      Nat.lt_of_lt_of_le (wordAt_lt m) (Nat.pow_le_pow_right Nat.two_pos (Nat.mul_le_mul_left 8 hle))
    rw [List.take_of_length_le hle, Nat.mod_eq_of_lt hlt]
  · have hlen : (m.take n).length = n := List.length_take_of_le hle
    have hlt := wordAt_lt (m.take n)
    have happend := wordAt_append (m.take n) (m.drop n)
    rw [List.take_append_drop, hlen] at happend
    rw [hlen] at hlt
    rw [happend, Nat.add_mul_mod_self_left, Nat.mod_eq_of_lt hlt]

theorem wordAt_drop (n : Nat) (m : List UInt8) : wordAt (m.drop n) = wordAt m / 2 ^ (8 * n) := by
  rcases Nat.le_total m.length n with hle | hle
  · have hlt : wordAt m < 2 ^ (8 * n) :=
      Nat.lt_of_lt_of_le (wordAt_lt m) (Nat.pow_le_pow_right Nat.two_pos (Nat.mul_le_mul_left 8 hle))
    rw [List.drop_eq_nil_of_le hle, Nat.div_eq_of_lt hlt, wordAt]
  · have hlen : (m.take n).length = n := List.length_take_of_le hle
    have hlt := wordAt_lt (m.take n)
    have happend := wordAt_append (m.take n) (m.drop n)
    rw [List.take_append_drop, hlen] at happend
    rw [hlen] at hlt
    rw [happend, Nat.add_mul_div_left _ _ (Nat.two_pow_pos _), Nat.div_eq_of_lt hlt, Nat.zero_add]

/-- An odd number and the power of two beside it are known from their product. -/
theorem odd_mul_two_pow_inj {a b s t : Nat} (ha : a % 2 = 1) (hb : b % 2 = 1) (h : a * 2 ^ s = b * 2 ^ t) : a = b ∧ s = t := by
  induction s generalizing t with
  | zero =>
    cases t with
    | zero => exact ⟨by simpa using h, rfl⟩
    | succ t =>
      rw [Nat.pow_zero, Nat.mul_one, Nat.pow_succ, ← Nat.mul_assoc] at h
      omega
  | succ s ih =>
    cases t with
    | zero =>
      rw [Nat.pow_zero, Nat.mul_one, Nat.pow_succ, ← Nat.mul_assoc] at h
      omega
    | succ t =>
      rw [Nat.pow_succ, Nat.pow_succ, ← Nat.mul_assoc, ← Nat.mul_assoc] at h
      obtain ⟨hab, hst⟩ := ih (Nat.eq_of_mul_eq_mul_right Nat.two_pos h)
      exact ⟨hab, congrArg (· + 1) hst⟩

theorem two_pow_sub_one_odd {n : Nat} (hn : 0 < n) : (2 ^ n - 1) % 2 = 1 := by
  obtain ⟨m, rfl⟩ : ∃ m, n = m + 1 := ⟨n - 1, by omega⟩
  have := Nat.two_pow_pos m
  rw [Nat.pow_succ]
  omega

theorem bitRun_inj {n n' s s' : Nat} (hn : 0 < n) (hn' : 0 < n') (h : bitRun n s = bitRun n' s') : n = n' ∧ s = s' := by
  obtain ⟨hpow, hs⟩ := odd_mul_two_pow_inj (two_pow_sub_one_odd hn) (two_pow_sub_one_odd hn') h
  have h₁ := Nat.two_pow_pos n
  have h₂ := Nat.two_pow_pos n'
  have hpow : 2 ^ n = 2 ^ n' := by omega
  exact ⟨(Nat.pow_right_inj Nat.one_lt_two).mp hpow, hs⟩

theorem bitRun_lt {n s k : Nat} (h : s + n ≤ k) : bitRun n s < 2 ^ k := by
  apply Nat.lt_pow_two_of_testBit
  intro i hi
  rw [testBit_bitRun]
  exact decide_eq_false (by omega)

/-- All bits of some bytes. -/
theorem wordAt_map_flip (bs : List UInt8) : wordAt bs ^^^ wordAt (bs.map (· ^^^ 0xff)) = 2 ^ (8 * bs.length) - 1 := by
  induction bs with
  | nil => rfl
  | cons b bs ih =>
    have hb : b.toNat < 2 ^ 8 := b.toNat_lt
    have hb' : (b ^^^ 0xff).toNat < 2 ^ 8 := (b ^^^ 0xff).toNat_lt
    have hpos := Nat.two_pow_pos (8 * bs.length)
    have hbyte : b.toNat ^^^ (b ^^^ 0xff).toNat = 255 := by
      rw [UInt8.toNat_xor, ← Nat.xor_assoc, Nat.xor_self, Nat.zero_xor]
      rfl
    have hxor := xor_append hb hb' (wordAt bs) (wordAt (bs.map (· ^^^ 0xff)))
    rw [List.map_cons, wordAt, wordAt, List.length_cons, Nat.mul_succ, Nat.pow_add]
    rw [hbyte, ih] at hxor
    rw [show (256 : Nat) = 2 ^ 8 from rfl, hxor]
    omega

end LtlFuzzer.Foundation
