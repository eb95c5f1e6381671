import Mathlib.Algebra.Group.Int.Defs
import Mathlib.Data.List.Basic
import Mathlib.Data.List.TakeWhile
import Mathlib.Tactic.Common

/-! Decimal text of integers, written and read back under a 32-bit range check. -/
namespace LtlFuzzer.Foundation.Numerals

def showNat (n : Nat) : List Char := Nat.toDigits 10 n

def showInt : Int → List Char
  | .ofNat n => showNat n
  | .negSucc n => '-' :: showNat (n + 1)

/-- Characters that a numeral may follow. -/
def isSpace (c : Char) : Bool := c ∈ [' ', '\t', '\n', '\x0b', '\x0c', '\r']

/-- Read an optional sign. -/
def readSign : List Char → Bool × List Char
  | '-' :: s => (true, s)
  | '+' :: s => (false, s)
  | s => (false, s)

/-- Blanks, a sign, then at least one digit; what follows the digits is ignored.
Values outside the 32-bit range are an error too. -/
def stoi (s : List Char) : Option Int :=
  let signed := readSign (s.dropWhile isSpace)
  let digits := signed.2.takeWhile Char.isDigit
  let n : Int := if signed.1 then -(Nat.ofDigitChars 10 digits 0 : Int) else Nat.ofDigitChars 10 digits 0
  if digits = [] then none
  else if -2 ^ 31 ≤ n ∧ n < 2 ^ 31 then some n else none

theorem isDigit_of_mem_showNat {n : Nat} {c : Char} (h : c ∈ showNat n) : c.isDigit = true :=
  Nat.isDigit_of_mem_toDigits (by omega) le_rfl h

theorem showNat_ne_nil (n : Nat) : showNat n ≠ [] := Nat.toDigits_ne_nil

theorem mem_showInt {n : Int} {c : Char} (h : c ∈ showInt n) : c = '-' ∨ c.isDigit = true := by
  cases n with
  | ofNat n => exact .inr (isDigit_of_mem_showNat h)
  | negSucc n =>
    rcases List.mem_cons.mp h with rfl | h
    · exact .inl rfl
    · exact .inr (isDigit_of_mem_showNat h)

private theorem digit_ne {c : Char} (h : c.isDigit = true) (d : Char) (hd : d.isDigit = false) : c ≠ d := by
  rintro rfl
  rw [h] at hd
  cases hd

theorem comma_not_mem_showInt (n : Int) : ',' ∉ showInt n := by
  intro h
  rcases mem_showInt h with h | h
  · exact absurd h (by decide)
  · exact absurd h (by decide)

theorem comma_not_mem_of_mem_map (ns : List Int) : ∀ r ∈ ns.map showInt, ',' ∉ r := by
  intro r hr
  obtain ⟨n, -, rfl⟩ := List.mem_map.mp hr
  exact comma_not_mem_showInt n

private theorem takeWhile_showNat (n : Nat) : (showNat n).takeWhile Char.isDigit = showNat n :=
  List.takeWhile_eq_self_iff.mpr fun _ h => isDigit_of_mem_showNat h

private theorem not_isSpace_of_isDigit {c : Char} (h : c.isDigit = true) : isSpace c = false := by
  simp only [isSpace, List.mem_cons, List.not_mem_nil, or_false, decide_eq_false_iff_not, not_or]
  exact ⟨digit_ne h _ (by decide), digit_ne h _ (by decide), digit_ne h _ (by decide),
    digit_ne h _ (by decide), digit_ne h _ (by decide), digit_ne h _ (by decide)⟩

private theorem readSign_of_isDigit {c : Char} (s : List Char) (h : c.isDigit = true) :
    readSign (c :: s) = (false, c :: s) := by
  unfold readSign
  split
  · exact absurd (List.cons.inj ‹_›).1 (digit_ne h _ (by decide))
  · exact absurd (List.cons.inj ‹_›).1 (digit_ne h _ (by decide))
  · rfl

/-- Reading back what was written, within the range. -/
theorem stoi_showInt {n : Int} (hlo : -2 ^ 31 ≤ n) (hhi : n < 2 ^ 31) : stoi (showInt n) = some n := by
  cases n with
  | ofNat n =>
    obtain ⟨c, s, hs⟩ := List.exists_cons_of_ne_nil (showNat_ne_nil n)
    have hc : c.isDigit = true := isDigit_of_mem_showNat (n := n) (hs ▸ List.mem_cons_self)
    have hsign : readSign ((showNat n).dropWhile isSpace) = (false, showNat n) := by
      rw [hs, List.dropWhile_cons_of_neg (by simp [not_isSpace_of_isDigit hc]), readSign_of_isDigit s hc]
    simp only [stoi, showInt, hsign, takeWhile_showNat, showNat_ne_nil, if_false, Bool.false_eq_true]
    rw [showNat, Nat.ofDigitChars_ten_toDigits, if_pos ⟨hlo, hhi⟩]
    rfl
  | negSucc n =>
    have hsign : readSign ((showInt (.negSucc n)).dropWhile isSpace) = (true, showNat (n + 1)) := by
      simp only [showInt]
      rw [List.dropWhile_cons_of_neg (by decide), readSign]
    simp only [stoi, hsign, takeWhile_showNat, showNat_ne_nil, if_false, if_true]
    rw [showNat, Nat.ofDigitChars_ten_toDigits, if_pos ⟨by omega, by omega⟩]
    congr 1

theorem mapM_stoi_showInt {ns : List Int} (h : ∀ n ∈ ns, -2 ^ 31 ≤ n ∧ n < 2 ^ 31) :
    (ns.map showInt).mapM stoi = some ns := by
  induction ns with
  | nil => rfl
  | cons n ns ih =>
    obtain ⟨⟨hlo, hhi⟩, hns⟩ := List.forall_mem_cons.mp h
    rw [List.map_cons, List.mapM_cons, stoi_showInt hlo hhi, ih hns]
    rfl

end LtlFuzzer.Foundation.Numerals
