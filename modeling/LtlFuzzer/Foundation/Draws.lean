import Mathlib.Data.List.Basic

/-! Random choice from a list: a draw is reduced to an index. -/
namespace LtlFuzzer.Foundation
variable {α : Type}

/-- The element at the draw modulo the length; none for the division by zero. -/
def drawn (draw : Nat) (l : List α) : Option α := l[draw % l.length]?

theorem mem_of_drawn {draw : Nat} {l : List α} {a : α} (h : drawn draw l = some a) : a ∈ l :=
  List.mem_of_getElem? h

/-- Every element is the result of some draw. -/
theorem exists_drawn_iff {l : List α} {a : α} : (∃ draw, drawn draw l = some a) ↔ a ∈ l := by
  constructor
  · rintro ⟨draw, h⟩
    exact mem_of_drawn h
  · intro h
    obtain ⟨i, hi, rfl⟩ := List.mem_iff_getElem.mp h
    refine ⟨i, ?_⟩
    rw [drawn, Nat.mod_eq_of_lt hi]
    exact List.getElem?_eq_getElem hi

theorem drawn_isSome {l : List α} (h : l ≠ []) (draw : Nat) : ∃ a ∈ l, drawn draw l = some a := by
  have hlt : draw % l.length < l.length := Nat.mod_lt _ (List.length_pos_of_ne_nil h)
  exact ⟨l[draw % l.length], List.getElem_mem hlt, List.getElem?_eq_getElem hlt⟩

end LtlFuzzer.Foundation
