import LtlFuzzer.Automata.Transitions

/-! The transition table against the edges it is made from. -/
namespace LtlFuzzer.Automata
open Foundation

/-- All plain names of the set are true and all negated ones are false. -/
def SetHolds (ν : Str → Bool) (s : StrSet) : Prop :=
  (∀ a ∈ s, a.head? ≠ some '!' → ν a = true) ∧ ∀ a : Str, ('!' :: a) ∈ s → ν a = false

/-- A name stands plain in one of the sets and negated in the other. -/
def Contradict (s s' : StrSet) : Prop :=
  ∃ a : Str, a.head? ≠ some '!' ∧ (a ∈ s ∧ ('!' :: a) ∈ s' ∨ ('!' :: a) ∈ s ∧ a ∈ s')

namespace TwaGraph
variable {A : TwaGraph} {q : Fin A.numStates} {t : Edge A.numStates}

/-- Literals of plain names have the text of a name or of a negated name, never both. -/
private theorem literal_of_mem (hplain : A.PlainNames) (ht : t ∈ A.out q) {p : List (Nat × Bool)}
    (hp : p ∈ t.cond.diagram.paths) {v : Nat} {b : Bool} (hl : (v, b) ∈ p) :
    ∃ a, (a, v) ∈ A.dict.varMap ∧ a.head? ≠ some '!' ∧ literalText A.dict (v, b) = if b then a else '!' :: a := by
  obtain ⟨a, hm, htext⟩ := exists_name_of_mem ht hp hl
  exact ⟨a, hm, hplain a (List.mem_map_of_mem hm), htext⟩

/-- The set made of a path holds under a valuation that takes the path. -/
private theorem setHolds_iff (hplain : A.PlainNames) (ht : t ∈ A.out q) {p : List (Nat × Bool)}
    (hp : p ∈ t.cond.diagram.paths) {s : StrSet} (hs : ∀ x, x ∈ s ↔ ∃ l ∈ p, literalText A.dict l = x) (ν : Str → Bool) :
    SetHolds ν s ↔ Bdd.Agrees (A.dict.valuation ν) p := by
  constructor
  · rintro ⟨htrue, hfalse⟩ ⟨v, b⟩ hl
    obtain ⟨a, hm, ha, htext⟩ := literal_of_mem hplain ht hp hl
    rw [Dict.valuation_of_mem hm]
    cases b with
    | true => exact htrue a ((hs a).mpr ⟨_, hl, htext⟩) ha
    | false => exact hfalse a ((hs _).mpr ⟨_, hl, htext⟩)
  · intro hagrees
    refine ⟨fun a ha hhead => ?_, fun a ha => ?_⟩
    · obtain ⟨⟨v, b⟩, hl, hla⟩ := (hs a).mp ha
      obtain ⟨n, hm, -, htext⟩ := literal_of_mem hplain ht hp hl
      rw [hla] at htext
      cases b with
      | true =>
        obtain rfl : a = n := htext
        exact (Dict.valuation_of_mem hm ν).symm.trans (hagrees _ hl)
      | false => exact absurd (by rw [htext]; rfl) hhead
    · obtain ⟨⟨v, b⟩, hl, hla⟩ := (hs _).mp ha
      obtain ⟨n, hm, hn, htext⟩ := literal_of_mem hplain ht hp hl
      rw [hla] at htext
      cases b with
      | true =>
        obtain rfl : '!' :: a = n := htext
        exact absurd rfl hn
      | false =>
        obtain rfl : a = n := List.tail_eq_of_cons_eq htext
        exact (Dict.valuation_of_mem hm ν).symm.trans (hagrees _ hl)

/-- An edge's guard holds exactly when one of its sets does. -/
private theorem sat_iff_exists_set (hplain : A.PlainNames) (ht : t ∈ A.out q) (ν : Str → Bool) :
    A.Sat t.cond ν ↔ ∃ s ∈ getCond A.bddvarnum A.dict t.cond, SetHolds ν s := by
  rw [Sat, Bdd.eval_iff_exists_path, getCond_eq]
  simp only [List.mem_map, exists_exists_and_eq_and]
  apply exists_congr
  intro p
  apply and_congr_right
  intro hp
  exact (setHolds_iff hplain ht hp (mem_pathTexts ht hp) ν).symm

private theorem getCond_contradict (hplain : A.PlainNames) (ht : t ∈ A.out q) :
    (getCond A.bddvarnum A.dict t.cond).Pairwise Contradict := by
  rw [getCond_eq, List.pairwise_map]
  apply (Bdd.paths_contradict t.cond.diagram).imp_of_mem
  intro p p' hp hp' hpart
  obtain ⟨v, b, hl, hl'⟩ := hpart
  obtain ⟨a, hm, ha, htext⟩ := literal_of_mem hplain ht hp hl
  obtain ⟨a', hm', -, htext'⟩ := literal_of_mem hplain ht hp' hl'
  obtain rfl : a = a' := Dict.name_unique hm hm'
  have hin := (mem_pathTexts ht hp _).mpr ⟨_, hl, htext⟩
  have hin' := (mem_pathTexts ht hp' _).mpr ⟨_, hl', htext'⟩
  cases b with
  | true => exact ⟨a, ha, .inl ⟨hin, hin'⟩⟩
  | false => exact ⟨a, ha, .inr ⟨hin, hin'⟩⟩

/-- The table has, for each edge, sets that hold together with its guard and contradict
each other. -/
theorem state_transitions_faithful (A : TwaGraph) (hplain : A.PlainNames) (q : Fin A.numStates) :
    (∀ (ν : Str → Bool) (d : Fin A.numStates), (∃ t ∈ A.out q, t.dst = d ∧ A.Sat t.cond ν) ↔
      ∃ entry ∈ A.getStateTransitions q, entry.2 = (d.val : Int) ∧ ∃ s ∈ entry.1, SetHolds ν s) ∧
    ∀ entry ∈ A.getStateTransitions q, entry.1.Pairwise Contradict := by
  constructor
  · intro ν d
    simp only [getStateTransitions, List.mem_map, exists_exists_and_eq_and]
    apply exists_congr
    intro t
    apply and_congr_right
    intro ht
    rw [sat_iff_exists_set hplain ht, Int.natCast_inj, Fin.val_inj]
  · intro entry hentry
    obtain ⟨t, ht, rfl⟩ := List.mem_map.mp hentry
    exact getCond_contradict hplain ht

end TwaGraph

private theorem recurrent_plainNames : recurrent.PlainNames := by
  unfold TwaGraph.PlainNames
  decide

theorem state_transitions_faithful_recurrent :
    (∀ (ν : Str → Bool) (d : Fin 2), (∃ t ∈ recurrent.out (0 : Fin 2), t.dst = d ∧ recurrent.Sat t.cond ν) ↔
      ∃ entry ∈ recurrent.getStateTransitions (0 : Fin 2), entry.2 = (d.val : Int) ∧ ∃ s ∈ entry.1, SetHolds ν s) ∧
    ∀ entry ∈ recurrent.getStateTransitions (0 : Fin 2), entry.1.Pairwise Contradict :=
  TwaGraph.state_transitions_faithful recurrent recurrent_plainNames (0 : Fin 2)

end LtlFuzzer.Automata
