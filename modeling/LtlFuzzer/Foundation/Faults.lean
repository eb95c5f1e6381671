import Mathlib.Data.List.Basic

/-! Computations that may stop with a fault. -/
namespace LtlFuzzer.Foundation.Faults
variable {ε α β : Type}

@[simp] theorem ok_bind (a : α) (f : α → Except ε β) : (Except.ok a >>= f) = f a := rfl
@[simp] theorem error_bind (e : ε) (f : α → Except ε β) : (Except.error e >>= f) = Except.error e := rfl
@[simp] theorem map_ok (a : α) (f : α → β) : (Except.ok a : Except ε α).map f = Except.ok (f a) := rfl
@[simp] theorem map_error (e : ε) (f : α → β) : (Except.error e : Except ε α).map f = Except.error e := rfl

theorem bind_eq_ok {x : Except ε α} {f : α → Except ε β} {b : β} :
    x >>= f = .ok b ↔ ∃ a, x = .ok a ∧ f a = .ok b := by
  cases x <;> simp

theorem map_eq_ok {x : Except ε α} {f : α → β} {b : β} : x.map f = .ok b ↔ ∃ a, x = .ok a ∧ f a = b := by
  cases x <;> simp

theorem exists_map_eq_ok {x : Except ε α} {f : α → β} : (∃ b, x.map f = .ok b) ↔ ∃ a, x = .ok a := by
  cases x <;> simp

/-- The check stops with the fault exactly under the condition, and passes otherwise. -/
def StopsWith (e : ε) (P : Prop) (x : Except ε Unit) : Prop := (P ∧ x = .error e) ∨ (¬ P ∧ x = .ok ())

namespace StopsWith
variable {e : ε} {P Q : Prop} {x y : Except ε Unit}

theorem error_iff (h : StopsWith e P x) : x = .error e ↔ P := by
  rcases h with ⟨hP, rfl⟩ | ⟨hP, rfl⟩
  · simp [hP]
  · simp [hP]

theorem passes (e : ε) : StopsWith e False (.ok ()) := .inr ⟨not_false, rfl⟩

theorem stops (e : ε) : StopsWith e True (.error e) := .inl ⟨trivial, rfl⟩

theorem congr (h : StopsWith e P x) (hPQ : P ↔ Q) : StopsWith e Q x := by
  rwa [← propext hPQ]

/-- One check after another: the second runs only where the first passes. -/
theorem seq (hx : StopsWith e P x) (hy : StopsWith e Q y) : StopsWith e (P ∨ Q) (x >>= fun _ => y) := by
  rcases hx with ⟨hP, rfl⟩ | ⟨hP, rfl⟩
  · exact .inl ⟨.inl hP, rfl⟩
  · rw [ok_bind]
    exact hy.congr (by simp [hP])

/-- A check under a condition. -/
theorem ite {c : Prop} [Decidable c] (hx : c → StopsWith e P x) :
    StopsWith e (c ∧ P) (if c then x else .ok ()) := by
  by_cases hc : c
  · rw [if_pos hc]
    exact (hx hc).congr (by simp [hc])
  · rw [if_neg hc]
    exact (passes e).congr (by simp [hc])

/-- A loop of checks. -/
theorem forM {l : List α} {f : α → Except ε Unit} {P : α → Prop} (h : ∀ a ∈ l, StopsWith e (P a) (f a)) :
    StopsWith e (∃ a ∈ l, P a) (l.forM f) := by
  induction l with
  | nil => exact (passes e).congr (by simp)
  | cons a l ih =>
    obtain ⟨ha, hl⟩ := List.forall_mem_cons.mp h
    change StopsWith e _ (f a >>= fun _ => l.forM f)
    exact (ha.seq (ih hl)).congr (by simp)

end StopsWith
end LtlFuzzer.Foundation.Faults
