import LtlFuzzer.Instrumentation.AutomataPath

/-! The inputs that a stored prefix of a common program consists of. -/
namespace LtlFuzzer.Instrumentation
open Foundation Automata Numerals Delimiters

def numberAt (common : List Int) (i : Nat) : Int := (common[i]?).getD 0

/-- The positions of the inputs appended at one change. -/
def contributions (common : List Int) (loc i : Nat) : List Nat :=
  ((List.range' (loc + 1) (i - (loc + 1))).filter fun j => j % 2 = 0 ∧ 0 < numberAt common (j + 1)) ++
    (if i % 2 = 0 then [i] else [])

/-- The positions of the inputs appended at all changes. -/
def contributors (common : List Int) : Nat → List (Nat × Int) → List Nat
  | _, [] => []
  | loc, p :: pts => contributions common loc p.1 ++ contributors common p.1 pts

/-- The positions of the inputs in the prefix. -/
def inputsUsed (common : List Int) (states : List MCState) : List Nat :=
  contributors common 0 (changePoints (-2) 0 (genuine states))

def ChangedAt (states : List MCState) (i : Nat) : Prop := ∃ p ∈ changePoints (-2) 0 (genuine states), p.1 = i

private theorem readAt_numberAt {common : List Int} {i : Nat} (h : i < common.length) :
    readAt common i = .ok (numberAt common i) := by
  rw [readAt_of_lt h, numberAt, List.getElem?_eq_getElem h, Option.getD_some]

private theorem inputText_eq {common : List Int} {j : Nat} (h : j < common.length) :
    inputText common j = .ok (showInt (numberAt common j) ++ [',']) := by
  rw [inputText, readAt_numberAt h, Faults.map_ok]

private theorem skippedInputs_eq {common : List Int} (js : List Nat) (h : ∀ j ∈ js, j + 1 < common.length) :
    skippedInputs common js = .ok (terminated [','] ((js.filter fun j =>
      j % 2 = 0 ∧ 0 < numberAt common (j + 1)).map fun j => showInt (numberAt common j))) := by
  induction js with
  | nil => rfl
  | cons j js ih =>
    obtain ⟨hj, hjs⟩ := List.forall_mem_cons.mp h
    rw [skippedInputs, ih hjs]
    by_cases heven : j % 2 = 0
    · by_cases hpos : 0 < numberAt common (j + 1)
      · rw [if_pos heven, readAt_numberAt hj, Faults.ok_bind, if_pos hpos, inputText_eq (by omega),
          List.filter_cons_of_pos (by simp [heven, hpos])]
        simp [pure, Except.pure]
      · rw [if_pos heven, readAt_numberAt hj, Faults.ok_bind, if_neg hpos, List.filter_cons_of_neg (by simp [hpos])]
        simp [pure, Except.pure]
    · rw [if_neg heven, List.filter_cons_of_neg (by simp [heven])]
      simp [pure, Except.pure]

private theorem changeText_eq {common : List Int} (loc : Nat) {i : Nat} (h : i < common.length) :
    changeText common loc i =
      .ok (terminated [','] ((contributions common loc i).map fun j => showInt (numberAt common j))) := by
  have hskip : ∀ j ∈ List.range' (loc + 1) (i - (loc + 1)), j + 1 < common.length := by
    intro j hj
    have := List.mem_range'_1.mp hj
    omega
  rw [changeText, skippedInputs_eq _ hskip, Faults.ok_bind, contributions]
  by_cases heven : i % 2 = 0
  · rw [if_pos heven, inputText_eq h, if_pos heven]
    simp [pure, Except.pure]
  · rw [if_neg heven, if_neg heven]
    simp [pure, Except.pure]

/-- The prefix lists the inputs used. -/
private theorem advance_prefix {common : List Int} (pts : List (Nat × Int)) (x : Cursor)
    (h : ∀ p ∈ pts, p.1 < common.length) :
    ∃ y, pts.foldlM (extractChange common false) x = .ok y ∧
      y.pfx = x.pfx ++ terminated [','] ((contributors common x.loc pts).map fun j => showInt (numberAt common j)) := by
  induction pts generalizing x with
  | nil => exact ⟨x, rfl, by simp [contributors]⟩
  | cons p pts ih =>
    obtain ⟨hp, hpts⟩ := List.forall_mem_cons.mp h
    rw [List.foldlM_cons, extractChange, if_neg (by simp), changeText_eq _ hp, Faults.map_ok, Faults.ok_bind]
    obtain ⟨y, hy, hpfx⟩ := ih _ hpts
    exact ⟨y, hy, by simp [hpfx, contributors]⟩

private theorem mem_contributions {common : List Int} {loc i j : Nat} (h : loc < i) :
    j ∈ contributions common loc i ↔
      j % 2 = 0 ∧ loc < j ∧ (j = i ∨ (j < i ∧ 0 < numberAt common (j + 1))) := by
  have hown : j ∈ (if i % 2 = 0 then [i] else []) ↔ j % 2 = 0 ∧ j = i := by
    split_ifs with heven
    · rw [List.mem_singleton]
      exact ⟨fun hj => ⟨hj ▸ heven, hj⟩, And.right⟩
    · simp only [List.not_mem_nil, false_iff]
      rintro ⟨hj, rfl⟩
      exact heven hj
  rw [contributions, List.mem_append, hown, List.mem_filter, List.mem_range'_1, decide_eq_true_eq]
  constructor
  · rintro (⟨hr, heven, hpos⟩ | ⟨heven, rfl⟩)
    · exact ⟨heven, by omega, .inr ⟨by omega, hpos⟩⟩
    · exact ⟨heven, h, .inl rfl⟩
  · rintro ⟨heven, hlt, rfl | ⟨hji, hpos⟩⟩
    · exact .inr ⟨heven, rfl⟩
    · exact .inl ⟨by omega, heven, hpos⟩

/-- An input is used where it changes the state itself, or before a later change if its
output is positive. -/
private theorem mem_contributors {common : List Int} {loc j : Nat} {pts : List (Nat × Int)}
    (hs : pts.Pairwise (·.1 < ·.1)) (hloc : ∀ p ∈ pts, loc < p.1) :
    j ∈ contributors common loc pts ↔ j % 2 = 0 ∧ loc < j ∧
      ((∃ p ∈ pts, p.1 = j) ∨ ((∃ p ∈ pts, j < p.1) ∧ 0 < numberAt common (j + 1))) := by
  induction pts generalizing loc with
  | nil => simp [contributors]
  | cons p pts ih =>
    obtain ⟨hp, hs⟩ := List.pairwise_cons.mp hs
    have hlt := hloc p List.mem_cons_self
    rw [contributors, List.mem_append, mem_contributions hlt, ih hs hp]
    simp only [List.exists_mem_cons_iff]
    rcases Nat.lt_trichotomy j p.1 with hj | rfl | hj
    · have hno : ¬ ∃ p' ∈ pts, p'.1 = j := by
        rintro ⟨p', hp', rfl⟩
        exact absurd (hp p' hp') (by omega)
      simp only [hno, hj, hj.ne, hj.ne', Nat.lt_asymm hj]
      tauto
    · simp
    · simp only [hj.ne, hj.ne', Nat.lt_asymm hj, hlt.trans hj, hj, false_and, and_false, false_or]

private theorem contributors_sorted {common : List Int} {loc : Nat} {pts : List (Nat × Int)}
    (hs : pts.Pairwise (·.1 < ·.1)) (hloc : ∀ p ∈ pts, loc < p.1) :
    (contributors common loc pts).Pairwise (· < ·) := by
  induction pts generalizing loc with
  | nil => exact List.Pairwise.nil
  | cons p pts ih =>
    obtain ⟨hp, hs⟩ := List.pairwise_cons.mp hs
    have hlt := hloc p List.mem_cons_self
    rw [contributors]
    refine List.pairwise_append.mpr ⟨?_, ih hs hp, fun j hj j' hj' => ?_⟩
    · refine List.pairwise_append.mpr ⟨(List.pairwise_lt_range' _ Nat.one_pos).filter _, ?_, fun j hj j' hj' => ?_⟩
      · split_ifs <;> simp
      · have hj := List.mem_range'_1.mp (List.mem_filter.mp hj).1
        split_ifs at hj'
        · have := List.mem_singleton.mp hj'
          omega
        · cases hj'
    · have hj := (mem_contributions hlt).mp hj
      have hj' := (mem_contributors hs hp).mp hj'
      omega

private theorem inputsUsed_eq (common : List Int) {states : List MCState} {s : Int} {ss : List Int}
    (hg : genuine states = s :: ss) (hs : 0 ≤ s) :
    changePoints (-2) 0 (genuine states) = (0, s) :: changePoints s 1 ss ∧
      inputsUsed common states = 0 :: contributors common 0 (changePoints s 1 ss) := by
  have hp : changePoints (-2) 0 (genuine states) = (0, s) :: changePoints s 1 ss := by
    rw [hg, changePoints, if_neg (by omega)]
  exact ⟨hp, by simp [inputsUsed, hp, contributors, contributions]⟩

theorem mem_inputsUsed {common : List Int} {states : List MCState} (h : ∀ s ∈ genuine states, 0 ≤ s) {j : Nat} :
    j ∈ inputsUsed common states ↔ j % 2 = 0 ∧ (ChangedAt states j ∨
      ((∃ p ∈ changePoints (-2) 0 (genuine states), j < p.1) ∧ 0 < numberAt common (j + 1))) := by
  cases hg : genuine states with
  | nil => simp [inputsUsed, ChangedAt, hg, changePoints, contributors]
  | cons s ss =>
    rw [hg, List.forall_mem_cons] at h
    obtain ⟨hp, hu⟩ := inputsUsed_eq common hg h.1
    have hpos : ∀ p ∈ changePoints s 1 ss, 0 < p.1 := fun p hp => (changePoints_range hp).1
    rw [hu, ChangedAt, ← hg, hp, List.mem_cons, mem_contributors (changePoints_sorted s 1 ss) hpos]
    simp only [List.exists_mem_cons_iff]
    rcases Nat.eq_zero_or_pos j with rfl | hj
    · simp
    · simp only [hj.ne, hj.ne', hj, Nat.not_lt_zero, true_and, false_or]

theorem inputsUsed_sorted {common : List Int} {states : List MCState} (h : ∀ s ∈ genuine states, 0 ≤ s) :
    (inputsUsed common states).Pairwise (· < ·) := by
  cases hg : genuine states with
  | nil => simp [inputsUsed, hg, changePoints, contributors]
  | cons s ss =>
    rw [hg, List.forall_mem_cons] at h
    have hpos : ∀ p ∈ changePoints s 1 ss, 0 < p.1 := fun p hp => (changePoints_range hp).1
    have hs := changePoints_sorted s 1 ss
    rw [(inputsUsed_eq common hg h.1).2, List.pairwise_cons]
    exact ⟨fun j hj => ((mem_contributors hs hpos).mp hj).2.1, contributors_sorted hs hpos⟩

theorem inputsUsed_nodup {common : List Int} {states : List MCState} (h : ∀ s ∈ genuine states, 0 ≤ s) :
    (inputsUsed common states).Nodup := (inputsUsed_sorted h).imp fun h => h.ne

/-- The path and the prefix of a common program. -/
theorem extract_common {b : CodeBean} {states : List MCState} (h : (genuine states).length ≤ b.traceCommon.length) :
    extractPrefixAutomataPath b states false = .ok (automataPath states,
      terminated [','] ((inputsUsed b.traceCommon states).map fun j => showInt (numberAt b.traceCommon j))) := by
  have hlt : ∀ p ∈ changePoints (-2) 0 (genuine states), p.1 < b.traceCommon.length := by
    intro p hp
    have := (changePoints_range hp).2
    omega
  obtain ⟨y, hy, hpfx⟩ := advance_prefix (changePoints (-2) 0 (genuine states)) {} hlt
  have hx : extractPrefixAutomataPath b states false = .ok (y.aPath, y.pfx) := by
    have hcur : ({} : Cursor).curState = -2 := rfl
    rw [extractPrefixAutomataPath, extractLoop_eq, hcur, hy]
    rfl
  rw [hx, hpfx, extract_aPath hx]
  rfl

end LtlFuzzer.Instrumentation
