import LtlFuzzer.Automata.ModelChecker

/-! What the single preferred run accepts, against all paths of the graph. -/
namespace LtlFuzzer.Automata.TwaGraph
variable {A : TwaGraph}

/-- The preferred run ends in an accepting state. -/
def PreferredAccepts (A : TwaGraph) : Fin A.numStates → List Str → Prop
  | q, [] => A.accepting q = true
  | q, e :: es => ∃ s, A.preferred q e = some s ∧ A.PreferredAccepts s es

/-- While the rest of the events can be accepted, the preferred edge keeps it so. -/
def KeepsAlive (A : TwaGraph) : Fin A.numStates → List Str → Prop
  | _, [] => True
  | q, e :: es => A.Accepts q (e :: es) →
      ∃ s, A.preferred q e = some s ∧ A.Accepts s es ∧ A.KeepsAlive s es

theorem PreferredAccepts.accepts {q : Fin A.numStates} {es : List Str} (h : A.PreferredAccepts q es) :
    A.Accepts q es := by
  induction es generalizing q with
  | nil => exact accepts_nil.mpr h
  | cons e es ih =>
    obtain ⟨s, hs, h⟩ := h
    exact accepts_cons.mpr ⟨s, preferred_step hs, ih h⟩

/-- The greedy choice loses an accepted word at the first edge that strays. -/
theorem preferredAccepts_iff (q : Fin A.numStates) (es : List Str) :
    A.PreferredAccepts q es ↔ A.Accepts q es ∧ A.KeepsAlive q es := by
  induction es generalizing q with
  | nil => simp [PreferredAccepts, KeepsAlive, accepts_nil]
  | cons e es ih =>
    constructor
    · intro h
      refine ⟨h.accepts, fun _ => ?_⟩
      obtain ⟨s, hs, h⟩ := h
      exact ⟨s, hs, (ih s).mp h⟩
    · rintro ⟨ha, hk⟩
      obtain ⟨s, hs, h⟩ := hk ha
      exact ⟨s, hs, (ih s).mpr h⟩

/-- The last reported state of a nonempty run. -/
theorem follow_getLast (q : Fin A.numStates) {es : List Str} (hne : es ≠ []) :
    ∃ m, (A.follow q es).getLast? = some m ∧
      (m.acceptance = true ↔ A.PreferredAccepts q es) ∧ (m.state = -1 → m.acceptance = false) := by
  induction es generalizing q with
  | nil => exact absurd rfl hne
  | cons e es ih =>
    cases hp : A.preferred q e with
    | none =>
      exact ⟨deadEnd, by simp [follow_of_none hp], by simp [deadEnd, PreferredAccepts, hp], fun _ => rfl⟩
    | some s =>
      cases es with
      | nil =>
        refine ⟨A.entry s, by rw [follow_of_preferred hp]; rfl, by simp [entry, PreferredAccepts, hp], fun h => ?_⟩
        simp only [entry] at h
        omega
      | cons e' es =>
        obtain ⟨m, hm, hacc, hdead⟩ := ih s (List.cons_ne_nil _ _)
        refine ⟨m, ?_, ?_, hdead⟩
        · rw [follow_of_preferred hp, List.getLast?_cons, hm]
          rfl
        · rw [hacc]
          simp [PreferredAccepts, hp]

end LtlFuzzer.Automata.TwaGraph
