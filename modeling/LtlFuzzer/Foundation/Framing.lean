import Mathlib.Algebra.Group.Nat.Defs
import Mathlib.Data.List.Basic
import Mathlib.Tactic.Common

/-! Messages in one stream of bytes, each after its length. -/
namespace LtlFuzzer.Foundation.Framing

/-- A number in a width of bytes, the lowest first. -/
def littleEndian : Nat → Nat → List UInt8
  | 0, _ => []
  | w + 1, n => UInt8.ofNat n :: littleEndian w (n / 256)

def frame (w : Nat) (m : List UInt8) : List UInt8 := littleEndian w m.length ++ m

def frames (w : Nat) (ms : List (List UInt8)) : List UInt8 := ms.flatMap (frame w)

@[simp] theorem length_littleEndian (w n : Nat) : (littleEndian w n).length = w := by
  induction w generalizing n with
  | zero => rfl
  | succ w ih => rw [littleEndian, List.length_cons, ih]

@[simp] theorem frames_nil (w : Nat) : frames w [] = [] := rfl

@[simp] theorem frames_cons (w : Nat) (m : List UInt8) (ms : List (List UInt8)) :
    frames w (m :: ms) = frame w m ++ frames w ms := rfl

/-- A width tells apart the numbers that fit. -/
theorem littleEndian_inj {w a b : Nat} (ha : a < 256 ^ w) (hb : b < 256 ^ w) : littleEndian w a = littleEndian w b ↔ a = b := by
  refine ⟨fun h => ?_, fun h => by rw [h]⟩
  induction w generalizing a b with
  | zero =>
    rw [Nat.pow_zero] at ha hb
    omega
  | succ w ih =>
    obtain ⟨hlow, hhigh⟩ := List.cons.inj h
    rw [Nat.pow_succ] at ha hb
    have hmod : a % 256 = b % 256 := by simpa using congrArg UInt8.toNat hlow
    have hdiv : a / 256 = b / 256 := ih (by omega) (by omega) hhigh
    omega

private theorem frame_ne_nil {w : Nat} (hw : 0 < w) (m : List UInt8) : frame w m ≠ [] := by
  refine List.append_ne_nil_of_left_ne_nil (fun h => ?_) m
  have := length_littleEndian w m.length
  rw [h, List.length_nil] at this
  omega

/-- The stream tells what the messages are. -/
theorem frames_inj {w : Nat} (hw : 0 < w) {ms ns : List (List UInt8)} (hm : ∀ m ∈ ms, m.length < 256 ^ w)
    (hn : ∀ n ∈ ns, n.length < 256 ^ w) : frames w ms = frames w ns ↔ ms = ns := by
  refine ⟨fun h => ?_, fun h => by rw [h]⟩
  induction ms generalizing ns with
  | nil =>
    cases ns with
    | nil => rfl
    | cons n ns =>
      rw [frames_nil, frames_cons] at h
      exact absurd h.symm (List.append_ne_nil_of_left_ne_nil (frame_ne_nil hw n) _)
  | cons m ms ih =>
    cases ns with
    | nil =>
      rw [frames_nil, frames_cons] at h
      exact absurd h (List.append_ne_nil_of_left_ne_nil (frame_ne_nil hw m) _)
    | cons n ns =>
      obtain ⟨hm₀, hms⟩ := List.forall_mem_cons.mp hm
      obtain ⟨hn₀, hns⟩ := List.forall_mem_cons.mp hn
      simp only [frames_cons, frame, List.append_assoc] at h
      obtain ⟨hsize, hrest⟩ := List.append_inj h (by rw [length_littleEndian, length_littleEndian])
      obtain ⟨rfl, htail⟩ := List.append_inj hrest ((littleEndian_inj hm₀ hn₀).mp hsize)
      rw [ih hms hns htail]

end LtlFuzzer.Foundation.Framing
