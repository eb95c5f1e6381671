import LtlFuzzer.Instrumentation.Acceptance

/-! The test of a window of events against the guard's meaning at each event. -/
namespace LtlFuzzer.Instrumentation
open Foundation Faults Automata

/-- A single event passes every literal of a cube. -/
def CubeAllows (cube : StrSet) (event : Str) : Prop := ∀ lit ∈ cube, literalAllows lit event = true

instance (cube : StrSet) (event : Str) : Decidable (CubeAllows cube event) :=
  decidable_of_iff (∀ lit ∈ cube.toList, literalAllows lit event = true) (by simp [CubeAllows, Std.TreeSet.mem_toList])

/-- Every event from the first position to the last satisfies the guard, each through some cube. -/
def WindowSatisfies (word : List Str) (events : List StrSet) (beginLoc endLoc : Nat) : Prop :=
  ∀ i e, beginLoc ≤ i → i ≤ endLoc → word[i]? = some e → ∃ c ∈ events, CubeAllows c e

/-- The test reports a window exactly when its events satisfy the guard. -/
def Decides (b : CodeBean) (flag : Bool) (events : List StrSet) (beginLoc endLoc : Nat) : Prop :=
  checkConditions (b.trace flag) events beginLoc endLoc = .error .counterexample ↔
    WindowSatisfies (b.trace flag) events beginLoc endLoc

/-- Some cube allows every event that any of them allows. -/
def HasWidest (events : List StrSet) : Prop :=
  ∃ c ∈ events, ∀ c' ∈ events, ∀ e, CubeAllows c' e → CubeAllows c e

variable {word : List Str} {events : List StrSet} {beginLoc endLoc : Nat}

private theorem cubeCovers_iff {c : StrSet} :
    CubeCovers word beginLoc endLoc c ↔
      ∀ i e, beginLoc ≤ i → i ≤ endLoc → word[i]? = some e → CubeAllows c e :=
  ⟨fun h i e h₁ h₂ he lit hl => h lit hl i e h₁ h₂ he, fun h lit hl i e h₁ h₂ he => h i e h₁ h₂ he lit hl⟩

private theorem windowSatisfies_of_covers {c : StrSet} (hc : c ∈ events) (h : CubeCovers word beginLoc endLoc c) :
    WindowSatisfies word events beginLoc endLoc :=
  fun i e h₁ h₂ he => ⟨c, hc, cubeCovers_iff.mp h i e h₁ h₂ he⟩

private theorem decides_iff {b : CodeBean} {flag : Bool} (hend : endLoc < (b.trace flag).length) :
    Decides b flag events beginLoc endLoc ↔
      (WindowSatisfies (b.trace flag) events beginLoc endLoc →
        ∃ c ∈ events, CubeCovers (b.trace flag) beginLoc endLoc c) := by
  rw [Decides, (checkConditions_stops events hend).error_iff]
  constructor
  · intro h
    exact h.mpr
  · intro h
    refine ⟨fun hcovered => ?_, h⟩
    obtain ⟨c, hc, hcover⟩ := hcovered
    exact windowSatisfies_of_covers hc hcover

private theorem covers_of_widest (h : HasWidest events) (hw : WindowSatisfies word events beginLoc endLoc) :
    ∃ c ∈ events, CubeCovers word beginLoc endLoc c := by
  obtain ⟨c, hc, hwide⟩ := h
  refine ⟨c, hc, cubeCovers_iff.mpr fun i e h₁ h₂ he => ?_⟩
  obtain ⟨c', hc', hallow⟩ := hw i e h₁ h₂ he
  exact hwide c' hc' e hallow

/-- Without a widest cube, a window that meets for each cube an event it does not allow. -/
private theorem exists_missed (hne : events ≠ []) (h : ¬ HasWidest events) :
    ∃ word : List Str, word ≠ [] ∧ (∀ e ∈ word, ∃ c ∈ events, CubeAllows c e) ∧
      ∀ c ∈ events, ∃ e ∈ word, ¬ CubeAllows c e := by
  have hmissed : ∀ c, ∃ e, c ∈ events → (∃ c' ∈ events, CubeAllows c' e) ∧ ¬ CubeAllows c e := by
    intro c
    by_contra hno
    push Not at hno
    refine h ⟨c, (hno []).1, fun c' hc' e hallow => ?_⟩
    exact (hno e).2 ⟨c', hc', hallow⟩
  choose missed hspec using hmissed
  refine ⟨events.map missed, by simpa using hne, fun e he => ?_, fun c hc => ?_⟩
  · obtain ⟨c, hc, rfl⟩ := List.mem_map.mp he
    exact (hspec c hc).1
  · exact ⟨missed c, List.mem_map_of_mem hc, (hspec c hc).2⟩

/-- A window is decided rightly exactly when one cube allows all its events if each is
allowed by some; and all windows are exactly when the guard has no cube, or one that allows
every event any of them allows. -/
theorem window_test_iff (events : List StrSet) :
    (∀ (b : CodeBean) (flag : Bool) (beginLoc endLoc : Nat), beginLoc ≤ endLoc → endLoc < (b.trace flag).length →
      (Decides b flag events beginLoc endLoc ↔ (WindowSatisfies (b.trace flag) events beginLoc endLoc →
        ∃ c ∈ events, CubeCovers (b.trace flag) beginLoc endLoc c))) ∧
    ((∀ (b : CodeBean) (flag : Bool) (beginLoc endLoc : Nat), beginLoc ≤ endLoc → endLoc < (b.trace flag).length →
      Decides b flag events beginLoc endLoc) ↔ events = [] ∨ HasWidest events) := by
  refine ⟨fun b flag beginLoc endLoc _ hend => decides_iff hend, ?_⟩
  constructor
  · intro hall
    by_contra hno
    obtain ⟨hne, hwide⟩ := not_or.mp hno
    obtain ⟨word, hword, hsome, hmiss⟩ := exists_missed hne hwide
    have hlen : word.length - 1 < word.length := Nat.sub_lt (List.length_pos_of_ne_nil hword) Nat.one_pos
    have hdecides := hall { traceProtocol := word } true 0 (word.length - 1) (Nat.zero_le _) hlen
    obtain ⟨c, hc, hcover⟩ := (decides_iff hlen).mp hdecides fun i e _ _ he => hsome e (List.mem_of_getElem? he)
    obtain ⟨e, he, hnot⟩ := hmiss c hc
    obtain ⟨i, hi⟩ := List.mem_iff_getElem?.mp he
    have hlt := (List.getElem?_eq_some_iff.mp hi).1
    exact hnot (cubeCovers_iff.mp hcover i e (Nat.zero_le i) (by omega) hi)
  · rintro (rfl | hwide) b flag beginLoc endLoc hle hend
    · refine (decides_iff hend).mpr fun hw => ?_
      obtain ⟨c, hc, -⟩ := hw beginLoc _ (Nat.le_refl _) hle
        (List.getElem?_eq_getElem (Nat.lt_of_le_of_lt hle hend))
      cases hc
    · exact (decides_iff hend).mpr (covers_of_widest hwide)

def cubeA : StrSet := (∅ : StrSet).insert ['a']
def cubeB : StrSet := (∅ : StrSet).insert ['b']

/-- The guard a | b holds at each event of a window a, b, and the test passes over it. -/
theorem window_test_misses_ab :
    WindowSatisfies [['a'], ['b']] [cubeA, cubeB] 0 1 ∧
      checkConditions [['a'], ['b']] [cubeA, cubeB] 0 1 = .ok () ∧
      ¬ Decides { traceProtocol := [['a'], ['b']] } true [cubeA, cubeB] 0 1 := by
  have hsat : WindowSatisfies [['a'], ['b']] [cubeA, cubeB] 0 1 := by
    intro i e _ hi he
    match i, hi with
    | 0, _ => cases he; exact ⟨cubeA, .head _, by decide⟩
    | 1, _ => cases he; exact ⟨cubeB, .tail _ (.head _), by decide⟩
  have hpass : checkConditions [['a'], ['b']] [cubeA, cubeB] 0 1 = .ok () := by decide
  refine ⟨hsat, hpass, fun h => ?_⟩
  have hstop := h.mpr hsat
  change checkConditions [['a'], ['b']] [cubeA, cubeB] 0 1 = .error .counterexample at hstop
  rw [hpass] at hstop
  cases hstop

end LtlFuzzer.Instrumentation
