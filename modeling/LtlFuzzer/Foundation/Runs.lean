import Mathlib.Data.List.Basic
import Mathlib.Data.List.Induction

/-! Runs of a state machine, and what holds after every one of them. -/
namespace LtlFuzzer.Foundation.Runs
variable {σ α : Type}

/-- A relation between the steps so far and the state they lead to. -/
theorem foldl_history {step : σ → α → σ} {s : σ} (R : List α → σ → Prop) (h0 : R [] s)
    (hstep : ∀ past s a, R past s → R (past ++ [a]) (step s a)) (l : List α) : R l (l.foldl step s) := by
  induction l using List.reverseRecOn with
  | nil => exact h0
  | append_singleton l a ih =>
    rw [List.foldl_append]
    exact hstep l _ a ih

/-- The same for steps that can stop: where the relation holds none of them does. -/
theorem foldlM_history {step : σ → α → Option σ} {s : σ} (R : List α → σ → Prop) (h0 : R [] s)
    (hstep : ∀ past s a, R past s → ∃ s', step s a = some s' ∧ R (past ++ [a]) s') (l : List α) :
    ∃ s', l.foldlM step s = some s' ∧ R l s' := by
  induction l using List.reverseRecOn with
  | nil => exact ⟨s, rfl, h0⟩
  | append_singleton l a ih =>
    obtain ⟨s₁, hl, h₁⟩ := ih
    obtain ⟨s₂, hs, h₂⟩ := hstep l s₁ a h₁
    refine ⟨s₂, ?_, h₂⟩
    rw [List.foldlM_append, hl]
    simpa using hs

/-- What every step that completes keeps, a run that completes keeps. -/
theorem foldlM_inv {step : σ → α → Option σ} (Inv : σ → Prop)
    (hstep : ∀ s a s', Inv s → step s a = some s' → Inv s') (l : List α) {s s' : σ} (h : Inv s)
    (hr : l.foldlM step s = some s') : Inv s' := by
  induction l generalizing s with
  | nil =>
    cases hr
    exact h
  | cons a l ih =>
    rw [List.foldlM_cons] at hr
    obtain ⟨s₁, hs, hr⟩ := Option.bind_eq_some_iff.mp hr
    exact ih (hstep s a s₁ h hs) hr

/-- A relation to the steps so far that each step of a run completes under and extends: the run completes. -/
theorem exists_foldlM_history {step : σ → α → Option σ} (R : List α → σ → Prop) {l : List α}
    (hstep : ∀ past a, past ++ [a] <+: l → ∀ s, R past s → ∃ s', step s a = some s' ∧ R (past ++ [a]) s') {s : σ}
    (h0 : R [] s) : ∃ s', l.foldlM step s = some s' ∧ R l s' := by
  have hprefix (past : List α) : past <+: l → ∃ s', past.foldlM step s = some s' ∧ R past s' := by
    induction past using List.reverseRecOn with
    | nil => exact fun _ => ⟨s, rfl, h0⟩
    | append_singleton past a ih =>
      intro hl
      obtain ⟨s₁, hr, h₁⟩ := ih ((List.prefix_append past [a]).trans hl)
      obtain ⟨s', hs, h'⟩ := hstep past a hl s₁ h₁
      refine ⟨s', ?_, h'⟩
      rw [List.foldlM_append, hr]
      simpa using hs
  exact hprefix l (List.prefix_refl l)

/-- Steps that read an entry each: where all of the entries can be read, the run is over them. -/
theorem foldlM_eq_foldl {β : Type} {entry : α → Option β} {read : α → β} {l : List α} (h : ∀ a ∈ l, entry a = some (read a))
    (step : σ → β → σ) (s : σ) : l.foldlM (fun s a => (entry a).map (step s)) s = some ((l.map read).foldl step s) := by
  induction l generalizing s with
  | nil => rfl
  | cons a l ih =>
    obtain ⟨ha, hl⟩ := List.forall_mem_cons.mp h
    rw [List.foldlM_cons, ha]
    exact ih hl _

/-- Every step of the schedule meets the condition in the state where it is taken. -/
def AllMeet (step : σ → α → Option σ) (C : σ → α → Prop) : σ → List α → Prop
  | _, [] => True
  | s, a :: l => C s a ∧ match step s a with
    | none => True
    | some s' => AllMeet step C s' l

theorem allMeet_append {step : σ → α → Option σ} {C : σ → α → Prop} {l₁ l₂ : List α} {s : σ} :
    AllMeet step C s (l₁ ++ l₂) ↔ AllMeet step C s l₁ ∧ ∀ s', l₁.foldlM step s = some s' → AllMeet step C s' l₂ := by
  induction l₁ generalizing s with
  | nil => simp [AllMeet]
  | cons a l₁ ih =>
    rw [List.cons_append, AllMeet, AllMeet, List.foldlM_cons]
    cases step s a with
    | none => simp
    | some s₁ => simp [ih, and_assoc]

theorem allMeet_singleton {step : σ → α → Option σ} {C : σ → α → Prop} {s : σ} {a : α} : AllMeet step C s [a] ↔ C s a := by
  rw [AllMeet]
  cases step s a <;> exact and_iff_left trivial

instance instDecidableAllMeet (step : σ → α → Option σ) (C : σ → α → Prop) [∀ s a, Decidable (C s a)] :
    (s : σ) → (l : List α) → Decidable (AllMeet step C s l)
  | _, [] => isTrue trivial
  | s, a :: l =>
    have : Decidable (match step s a with | none => True | some s' => AllMeet step C s' l) :=
      match step s a with
      | none => isTrue trivial
      | some s' => instDecidableAllMeet step C s' l
    inferInstanceAs (Decidable (C s a ∧ _))

/-- Where every such step completes, so does every such run. -/
theorem exists_foldlM_of_allMeet {step : σ → α → Option σ} {C : σ → α → Prop}
    (hstep : ∀ s a, C s a → ∃ s', step s a = some s') (l : List α) {s : σ} (hl : AllMeet step C s l) :
    ∃ s', l.foldlM step s = some s' := by
  induction l generalizing s with
  | nil => exact ⟨s, rfl⟩
  | cons a l ih =>
    obtain ⟨hc, hrest⟩ := hl
    obtain ⟨s₁, hs⟩ := hstep s a hc
    rw [hs] at hrest
    obtain ⟨s', hr⟩ := ih hrest
    exact ⟨s', by rw [List.foldlM_cons, hs]; exact hr⟩

/-- Where every such step also keeps an invariant it relies on, the run completes and keeps it. -/
theorem exists_foldlM_inv_of_allMeet {step : σ → α → Option σ} {C : σ → α → Prop} (Inv : σ → Prop)
    (hstep : ∀ s a, Inv s → C s a → ∃ s', step s a = some s' ∧ Inv s') (l : List α) {s : σ} (h : Inv s)
    (hl : AllMeet step C s l) : ∃ s', l.foldlM step s = some s' ∧ Inv s' := by
  induction l generalizing s with
  | nil => exact ⟨s, rfl, h⟩
  | cons a l ih =>
    obtain ⟨hc, hrest⟩ := hl
    obtain ⟨s₁, hs, h₁⟩ := hstep s a h hc
    rw [hs] at hrest
    obtain ⟨s', hr, h'⟩ := ih h₁ hrest
    exact ⟨s', by rw [List.foldlM_cons, hs]; exact hr, h'⟩

/-- The same for a relation to the steps so far. -/
theorem exists_foldlM_history_of_allMeet {step : σ → α → Option σ} {C : σ → α → Prop} {s₀ : σ} (R : List α → σ → Prop)
    (hstep : ∀ past s a, past.foldlM step s₀ = some s → R past s → C s a → ∃ s', step s a = some s' ∧ R (past ++ [a]) s')
    (h0 : R [] s₀) (l : List α) (hl : AllMeet step C s₀ l) : ∃ s', l.foldlM step s₀ = some s' ∧ R l s' := by
  induction l using List.reverseRecOn with
  | nil => exact ⟨s₀, rfl, h0⟩
  | append_singleton l a ih =>
    obtain ⟨hpast, hlast⟩ := allMeet_append.mp hl
    obtain ⟨s, hr, hs⟩ := ih hpast
    obtain ⟨s', hs', h'⟩ := hstep l s a hr hs (allMeet_singleton.mp (hlast s hr))
    refine ⟨s', ?_, h'⟩
    rw [List.foldlM_append, hr]
    simpa using hs'

/-- What such a step keeps, such a run keeps. -/
theorem foldlM_of_allMeet {step : σ → α → Option σ} {C : σ → α → Prop} (Inv : σ → Prop)
    (hstep : ∀ s a s', Inv s → C s a → step s a = some s' → Inv s') (l : List α) {s s' : σ} (h : Inv s)
    (hl : AllMeet step C s l) (hr : l.foldlM step s = some s') : Inv s' := by
  induction l generalizing s with
  | nil =>
    cases hr
    exact h
  | cons a l ih =>
    obtain ⟨hc, hrest⟩ := hl
    rw [List.foldlM_cons] at hr
    obtain ⟨s₁, hs, hr⟩ := Option.bind_eq_some_iff.mp hr
    rw [hs] at hrest
    exact ih (hstep s a s₁ h hc hs) hrest hr

/-- A condition on a machine from a condition on one that it follows. -/
theorem allMeet_of_followed {τ : Type} {step : σ → α → Option σ} {step' : τ → α → Option τ} {C : σ → α → Prop} {C' : τ → α → Prop}
    (R : τ → σ → Prop)
    (hstep : ∀ t s a, R t s → C' t a → C s a ∧ ∀ s', step s a = some s' → ∃ t', step' t a = some t' ∧ R t' s') (l : List α) {s : σ}
    {t : τ} (h : R t s) (hl : AllMeet step' C' t l) : AllMeet step C s l := by
  induction l generalizing s t with
  | nil => trivial
  | cons a l ih =>
    obtain ⟨hc', hrest⟩ := hl
    obtain ⟨hc, hfollow⟩ := hstep t s a h hc'
    refine ⟨hc, ?_⟩
    cases hs : step s a with
    | none => trivial
    | some s' =>
      obtain ⟨t', ht, h'⟩ := hfollow s' hs
      rw [ht] at hrest
      exact ih h' hrest

/-- Where every such step of one machine can be taken by another too, and this keeps a relation between the two, the
machines run through together. -/
theorem exists_foldlM_simulated {τ : Type} {step : σ → α → Option σ} {step' : τ → α → Option τ} {C : τ → α → Prop}
    (R : σ → τ → Prop)
    (hstep : ∀ s t a, R s t → C t a → ∃ s' t', step s a = some s' ∧ step' t a = some t' ∧ R s' t') (l : List α) {s : σ} {t : τ}
    (h : R s t) (hl : AllMeet step' C t l) : ∃ s' t', l.foldlM step s = some s' ∧ l.foldlM step' t = some t' ∧ R s' t' := by
  induction l generalizing s t with
  | nil => exact ⟨s, t, rfl, rfl, h⟩
  | cons a l ih =>
    obtain ⟨hc, hrest⟩ := hl
    obtain ⟨s₁, t₁, hs, ht, h₁⟩ := hstep s t a h hc
    rw [ht] at hrest
    obtain ⟨s', t', hsr, htr, h'⟩ := ih h₁ hrest
    exact ⟨s', t', by rw [List.foldlM_cons, hs]; exact hsr, by rw [List.foldlM_cons, ht]; exact htr, h'⟩

end LtlFuzzer.Foundation.Runs
