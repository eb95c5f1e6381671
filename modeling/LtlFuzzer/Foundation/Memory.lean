import Mathlib.Data.List.Basic
import Mathlib.Tactic.Common

/-! A flat memory with terminated strings in it. -/
namespace LtlFuzzer.Foundation.Memory
variable {β : Type}

/-- Write a block at an address. -/
def store (m : Nat → β) (a : Nat) (bs : List β) (j : Nat) : β := if a ≤ j then (bs[j - a]?).getD (m j) else m j

theorem store_of_lt {m : Nat → β} {a j : Nat} (bs : List β) (h : j < a) : store m a bs j = m j :=
  if_neg (Nat.not_le.mpr h)

theorem store_of_ge {m : Nat → β} {a j : Nat} {bs : List β} (h : a + bs.length ≤ j) : store m a bs j = m j := by
  have hnone : bs[j - a]? = none := List.getElem?_eq_none (by omega)
  rw [store, if_pos (by omega), hnone, Option.getD_none]

theorem store_at {m : Nat → β} {a i : Nat} {bs : List β} (h : i < bs.length) : store m a bs (a + i) = bs[i] := by
  rw [store, if_pos (by omega), Nat.add_sub_cancel_left, List.getElem?_eq_getElem h, Option.getD_some]

/-- What holds of a row of elements, by their places from a number on. -/
theorem forall_getElem_cons {P : Nat → β → Prop} {b : β} {bs : List β} {k : Nat} :
    (∀ i (hi : i < (b :: bs).length), P (k + i) (b :: bs)[i]) ↔ P k b ∧ ∀ i (hi : i < bs.length), P (k + 1 + i) bs[i] := by
  constructor
  · intro h
    refine ⟨h 0 (Nat.succ_pos _), fun i hi => ?_⟩
    have := h (i + 1) (Nat.succ_lt_succ hi)
    rwa [List.getElem_cons_succ, ← Nat.add_assoc, Nat.add_right_comm] at this
  · rintro ⟨hfirst, hrest⟩ i hi
    cases i with
    | zero => exact hfirst
    | succ i =>
      have := hrest i (Nat.lt_of_succ_lt_succ hi)
      rwa [Nat.add_right_comm, Nat.add_assoc] at this

variable [DecidableEq β]

/-- The string at an address, up to the terminator, with a number of cells left. -/
def cstr (nul : β) (m : Nat → β) : Nat → Nat → Option (List β)
  | _, 0 => none
  | a, n + 1 => if m a = nul then some [] else (cstr nul m (a + 1) n).map (m a :: ·)

/-- A block without terminators, and one after it. -/
theorem cstr_of_reads {nul : β} {m : Nat → β} {a n : Nat} {bs : List β} (h : ∀ i (hi : i < bs.length), m (a + i) = bs[i])
    (hend : m (a + bs.length) = nul) (hfree : nul ∉ bs) (hn : bs.length < n) : cstr nul m a n = some bs := by
  induction bs generalizing a n with
  | nil =>
    obtain ⟨n, rfl⟩ := Nat.exists_eq_add_one_of_ne_zero (Nat.ne_of_gt hn)
    exact if_pos hend
  | cons b bs ih =>
    obtain ⟨n, rfl⟩ := Nat.exists_eq_add_one_of_ne_zero (Nat.ne_zero_of_lt hn)
    obtain ⟨hb, hbs⟩ := (forall_getElem_cons (P := fun j b => m j = b)).mp h
    have hne : b ≠ nul := fun he => hfree (he ▸ List.mem_cons_self)
    have hrest : cstr nul m (a + 1) n = some bs := by
      refine ih hbs ?_ (fun hm => hfree (List.mem_cons_of_mem b hm)) (by simpa using hn)
      rwa [List.length_cons, ← Nat.add_assoc, Nat.add_right_comm] at hend
    rw [cstr, hb, if_neg hne, hrest, Option.map_some]

/-- What is in the cells of a string. -/
theorem reads_of_cstr {nul : β} {m : Nat → β} {a n : Nat} {bs : List β} (h : cstr nul m a n = some bs) :
    (∀ i (hi : i < bs.length), m (a + i) = bs[i]) ∧ nul ∉ bs := by
  induction n generalizing a bs with
  | zero => cases h
  | succ n ih =>
    rw [cstr] at h
    split_ifs at h with hnul
    · cases h
      exact ⟨fun i hi => absurd hi (Nat.not_lt_zero i), List.not_mem_nil⟩
    · obtain ⟨rest, hrest, rfl⟩ := Option.map_eq_some_iff.mp h
      obtain ⟨hreads, hfree⟩ := ih hrest
      refine ⟨forall_getElem_cons (P := fun j b => m j = b) |>.mpr ⟨rfl, hreads⟩, ?_⟩
      rw [List.mem_cons, not_or]
      exact ⟨Ne.symm hnul, hfree⟩

/-- A terminated block stored over the end of a string lengthens it. -/
theorem cstr_store_end {nul : β} {m : Nat → β} {a n : Nat} {bs cs : List β} (h : cstr nul m a n = some bs)
    (hfree : nul ∉ cs) (hn : bs.length + cs.length < n) :
    cstr nul (store m (a + bs.length) (cs ++ [nul])) a n = some (bs ++ cs) := by
  obtain ⟨hreads, hbs⟩ := reads_of_cstr h
  have hnew (i : Nat) (hi : i < (cs ++ [nul]).length) :
      store m (a + bs.length) (cs ++ [nul]) (a + (bs.length + i)) = (cs ++ [nul])[i] := by
    rw [← Nat.add_assoc]
    exact store_at hi
  refine cstr_of_reads (fun i hi => ?_) ?_ ?_ ?_
  · by_cases hold : i < bs.length
    · rw [store_of_lt _ (by omega), hreads i hold, List.getElem_append_left hold]
    · rw [List.length_append] at hi
      have hi' : i - bs.length < (cs ++ [nul]).length := by simp; omega
      have := hnew (i - bs.length) hi'
      rw [Nat.add_sub_cancel' (by omega), List.getElem_append_left (by omega)] at this
      rw [this, List.getElem_append_right (by omega)]
  · have := hnew cs.length (by simp)
    rw [List.getElem_concat_length rfl] at this
    rw [List.length_append, this]
  · rw [List.mem_append, not_or]
    exact ⟨hbs, hfree⟩
  · rwa [List.length_append]

/-- Only the cells from the address on matter. -/
theorem cstr_congr {nul : β} {m m' : Nat → β} {a : Nat} (n : Nat) (h : ∀ j, a ≤ j → m j = m' j) :
    cstr nul m a n = cstr nul m' a n := by
  induction n generalizing a with
  | zero => rfl
  | succ n ih => rw [cstr, cstr, h a (Nat.le_refl a), ih fun j hj => h j (Nat.le_of_succ_le hj)]

/-- A string ends before the cells do. -/
theorem length_lt_of_cstr {nul : β} {m : Nat → β} {a n : Nat} {bs : List β} (h : cstr nul m a n = some bs) :
    bs.length < n := by
  induction n generalizing a bs with
  | zero => cases h
  | succ n ih =>
    rw [cstr] at h
    split_ifs at h with hnul
    · cases h
      exact Nat.zero_lt_succ n
    · obtain ⟨rest, hrest, rfl⟩ := Option.map_eq_some_iff.mp h
      exact Nat.succ_lt_succ (ih hrest)

end LtlFuzzer.Foundation.Memory
