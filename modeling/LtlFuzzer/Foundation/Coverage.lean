import Mathlib.Order.BooleanAlgebra.Basic
import Mathlib.Data.Finset.SDiff
import Mathlib.Data.Finset.Card

/-! Crossing observations off what is still unseen, and how many of them can be novel. -/
namespace LtlFuzzer.Foundation.Coverage
variable {α : Type} [GeneralizedBooleanAlgebra α]

/-- What at least one of the observations shows. -/
def seen (l : List α) : α := l.foldl (· ⊔ ·) ⊥

/-- What is left of the unseen once every observation is crossed off. -/
def crossedOff (unseen : α) (l : List α) : α := l.foldl (· \ ·) unseen

@[simp] theorem seen_append_singleton (l : List α) (c : α) : seen (l ++ [c]) = seen l ⊔ c := by
  simp [seen]

@[simp] theorem crossedOff_append_singleton (u : α) (l : List α) (c : α) :
    crossedOff u (l ++ [c]) = crossedOff u l \ c := by
  simp [crossedOff]

theorem crossedOff_eq (u : α) (l : List α) : crossedOff u l = u \ seen l := by
  induction l using List.reverseRecOn with
  | nil => simp [crossedOff, seen]
  | append_singleton l c ih => rw [crossedOff_append_singleton, ih, seen_append_singleton, sdiff_sdiff_left]

theorem mem_seen {β : Type} [DecidableEq β] {l : List (Finset β)} {x : β} : x ∈ seen l ↔ ∃ c ∈ l, x ∈ c := by
  induction l using List.reverseRecOn with
  | nil => simp [seen]
  | append_singleton l c ih => simp [ih, or_and_right, exists_or]

/-- How many of the observations meet something that is still unseen. -/
def novelties [DecidableEq α] : α → List α → Nat
  | _, [] => 0
  | u, c :: l => (if u ⊓ c = ⊥ then 0 else 1) + novelties (u \ c) l

variable [DecidableEq α]

/-- A rank of the unseen bounds the novelties: each of them takes something away from it. -/
theorem novelties_le (rank : α → Nat) (hr : StrictMono rank) (u : α) (l : List α) : novelties u l ≤ rank u := by
  induction l generalizing u with
  | nil => exact Nat.zero_le _
  | cons c l ih =>
    rw [novelties]
    have hl := ih (u \ c)
    split
    · exact (Nat.zero_add _).trans_le (hl.trans (hr.monotone sdiff_le))
    · next h =>
      have hlt : u \ c < u := lt_of_le_of_ne sdiff_le fun he => h (by
        rw [← disjoint_iff]
        exact sdiff_eq_self_iff_disjoint.mp he |>.symm)
      have := hr hlt
      omega

/-- What no observation can show is no novelty. -/
theorem novelties_inf {w : α} {l : List α} (hl : ∀ c ∈ l, c ≤ w) (u : α) : novelties (u ⊓ w) l = novelties u l := by
  induction l generalizing u with
  | nil => rfl
  | cons c l ih =>
    obtain ⟨hc, hl⟩ := List.forall_mem_cons.mp hl
    rw [novelties, novelties, inf_assoc, inf_eq_right.mpr hc, ← sdiff_inf_right_comm, ih hl]

end LtlFuzzer.Foundation.Coverage
