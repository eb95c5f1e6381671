import Mathlib.Data.List.Basic
import Mathlib.Data.List.Destutter

/-! Runs of a deterministic partial step, seen through the positions where the state moves. -/
namespace LtlFuzzer.Foundation
variable {σ α : Type} [DecidableEq σ]

/-- The positions that change the state, each with the state entered, up to the first
event without a step. -/
def changes (step : σ → α → Option σ) : σ → Nat → List α → List (Nat × σ)
  | _, _, [] => []
  | q, i, a :: l => match step q a with
    | none => []
    | some s => if s = q then changes step s (i + 1) l else (i, s) :: changes step s (i + 1) l

/-- The events at kept positions. -/
def keptEvents (keep : Nat → Bool) : Nat → List α → List α
  | _, [] => []
  | i, a :: l => if keep i then a :: keptEvents keep (i + 1) l else keptEvents keep (i + 1) l

omit [DecidableEq σ] in
theorem keptEvents_eq_nil {keep : Nat → Bool} {i : Nat} {l : List α} (h : ∀ j, i ≤ j → keep j = false) :
    keptEvents keep i l = [] := by
  induction l generalizing i with
  | nil => rfl
  | cons a l ih =>
    rw [keptEvents, if_neg (by simp [h i (Nat.le_refl i)])]
    exact ih fun j hj => h j (Nat.le_of_succ_le hj)

/-- More events add changes. -/
theorem changes_append_isPrefix {step : σ → α → Option σ} (q : σ) (i : Nat) (l m : List α) :
    changes step q i l <+: changes step q i (l ++ m) := by
  induction l generalizing q i with
  | nil => exact List.nil_prefix
  | cons a l ih =>
    rw [List.cons_append, changes, changes]
    cases step q a with
    | none => exact List.prefix_rfl
    | some s =>
      dsimp only
      split_ifs
      · exact ih s (i + 1)
      · exact (List.prefix_cons_inj _).mpr (ih s (i + 1))

/-- Dropping events that do not move the state, and all events after the last change but the one right behind it,
leaves the states entered as they are. -/
theorem changes_keptEvents_next {step : σ → α → Option σ} {keep : Nat → Bool} (q : σ) (i k : Nat) (l : List α)
    (hmove : ∀ p ∈ changes step q i l, keep p.1 = true)
    (hlast : ∀ j, i < j → keep j = true → ∃ p ∈ changes step q i l, j ≤ p.1 + 1) :
    (changes step q k (keptEvents keep i l)).map Prod.snd = (changes step q i l).map Prod.snd := by
  induction l generalizing q i k with
  | nil => rfl
  | cons a l ih =>
    cases hs : step q a with
    | none =>
      have hnil : changes step q i (a :: l) = [] := by simp [changes, hs]
      rw [hnil] at hlast ⊢
      have hrest : keptEvents keep (i + 1) l = [] :=
        keptEvents_eq_nil fun j hj => Bool.eq_false_iff.mpr fun hk => by simpa using hlast j hj hk
      rw [keptEvents, hrest]
      split_ifs
      · simp [changes, hs]
      · rfl
    | some s =>
      by_cases hq : s = q
      · subst hq
        have hstay (j : Nat) (l : List α) : changes step s j (a :: l) = changes step s (j + 1) l := by
          simp [changes, hs]
        rw [hstay] at hmove hlast ⊢
        have hrest (k : Nat) := ih s (i + 1) k hmove fun j hj => hlast j (by omega)
        rw [keptEvents]
        split_ifs with hk
        · rw [hstay, hrest]
        · exact hrest k
      · have hgo (j : Nat) (l : List α) : changes step q j (a :: l) = (j, s) :: changes step s (j + 1) l := by
          simp [changes, hs, hq]
        rw [hgo] at hmove hlast ⊢
        obtain ⟨hi, hmove⟩ := List.forall_mem_cons.mp hmove
        rw [keptEvents, if_pos hi, hgo, List.map_cons, List.map_cons, ih s (i + 1) (k + 1) hmove]
        intro j hj hkeep
        obtain ⟨p, hp, hle⟩ := hlast j (by omega) hkeep
        rcases List.mem_cons.mp hp with rfl | hp
        · simp only at hle
          omega
        · exact ⟨p, hp, hle⟩

/-- Dropping events that do not move the state, and all events after the last change,
leaves the states entered as they are. -/
theorem changes_keptEvents {step : σ → α → Option σ} {keep : Nat → Bool} (q : σ) (i k : Nat) (l : List α)
    (hmove : ∀ p ∈ changes step q i l, keep p.1 = true)
    (hlast : ∀ j, i ≤ j → keep j = true → ∃ p ∈ changes step q i l, j ≤ p.1) :
    (changes step q k (keptEvents keep i l)).map Prod.snd = (changes step q i l).map Prod.snd :=
  changes_keptEvents_next q i k l hmove fun j hj hk =>
    (hlast j hj.le hk).imp fun _ hp => ⟨hp.1, Nat.le_succ_of_le hp.2⟩

section
variable {β : Type} [DecidableEq β] {R : β → β → Prop}

private theorem exists_destutter'_eq_cons (b : β) (l : List β) : ∃ t, l.destutter' (· ≠ ·) b = b :: t := by
  induction l with
  | nil => exact ⟨[], rfl⟩
  | cons c l ih =>
    by_cases hne : b ≠ c
    · exact ⟨_, List.destutter'_cons_pos _ hne⟩
    · rwa [List.destutter'_cons_neg _ hne]

/-- Steps remain steps when a state in a row with itself is kept once. -/
theorem isChain_destutter_ne {l : List β} (h : l.IsChain R) : (l.destutter (· ≠ ·)).IsChain R := by
  cases l with
  | nil => exact h
  | cons b l =>
    rw [List.destutter_cons']
    induction l generalizing b with
    | nil => exact h
    | cons c l ih =>
      obtain ⟨hstep, hrest⟩ := List.isChain_cons_cons.mp h
      by_cases hne : b ≠ c
      · rw [List.destutter'_cons_pos _ hne]
        have hchain := ih c hrest
        obtain ⟨t, ht⟩ := exists_destutter'_eq_cons c l
        rw [ht] at hchain ⊢
        exact List.isChain_cons_cons.mpr ⟨hstep, hchain⟩
      · rw [List.destutter'_cons_neg _ hne, not_not.mp hne]
        exact ih c hrest

/-- The last state is kept. -/
theorem getLast?_destutter_ne (l : List β) : (l.destutter (· ≠ ·)).getLast? = l.getLast? := by
  cases l with
  | nil => rfl
  | cons b l =>
    rw [List.destutter_cons']
    induction l generalizing b with
    | nil => rfl
    | cons c l ih =>
      rw [List.getLast?_cons_cons]
      by_cases hne : b ≠ c
      · obtain ⟨t, ht⟩ := exists_destutter'_eq_cons c l
        rw [List.destutter'_cons_pos _ hne, ← ih c, ht, List.getLast?_cons_cons]
      · rw [List.destutter'_cons_neg _ hne, not_not.mp hne]
        exact ih c

end

section
variable {ι ο : Type} {step : σ → ι → σ × ο}

omit [DecidableEq σ] in
/-- Each input with the answer of a machine to it. -/
def answers (step : σ → ι → σ × ο) : σ → List ι → List (ι × ο)
  | _, [] => []
  | s, i :: is => (i, (step s i).2) :: answers step (step s i).1 is

omit [DecidableEq σ] in
theorem answers_append_isPrefix (s : σ) (is js : List ι) : answers step s is <+: answers step s (is ++ js) := by
  induction is generalizing s with
  | nil => exact List.nil_prefix
  | cons i is ih => exact (List.prefix_cons_inj _).mpr (ih _)

omit [DecidableEq σ] in
theorem map_fst_answers (s : σ) (is : List ι) : (answers step s is).map Prod.fst = is := by
  induction is generalizing s with
  | nil => rfl
  | cons i is ih => rw [answers, List.map_cons, ih]

omit [DecidableEq σ] in
/-- Where every input that is left out was answered without a change of the state, or all after it are left out too,
the others are answered as before. -/
theorem answers_keptEvents {quiet : ο → Prop} (hquiet : ∀ s i, quiet (step s i).2 → (step s i).1 = s) {keep : Nat → Bool}
    {k : Nat} {s : σ} {is : List ι}
    (h : ∀ j p, (answers step s is)[j]? = some p → keep (k + j) = false → quiet p.2 ∨ ∀ j', k + j < j' → keep j' = false) :
    answers step s ((keptEvents keep k (answers step s is)).map Prod.fst) = keptEvents keep k (answers step s is) := by
  induction is generalizing k s with
  | nil => rfl
  | cons i is ih =>
    rw [answers] at h ⊢
    have hrest : ∀ j p, (answers step (step s i).1 is)[j]? = some p → keep (k + 1 + j) = false →
        quiet p.2 ∨ ∀ j', k + 1 + j < j' → keep j' = false := fun j p hj => by
      rw [Nat.add_right_comm, Nat.add_assoc k j 1]
      exact h (j + 1) p hj
    rw [keptEvents]
    split_ifs with hk
    · rw [List.map_cons, answers, ih hrest]
    · rcases h 0 _ rfl (Bool.eq_false_iff.mpr hk) with hq | hall
      · have hsame := ih hrest
        rwa [hquiet s i hq] at hsame ⊢
      · rw [keptEvents_eq_nil fun j hj => hall j (by omega)]
        rfl

end

end LtlFuzzer.Foundation
