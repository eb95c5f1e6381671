import LtlFuzzer.Automata.ModelChecker

/-! The event test of a guard against the guard's Boolean meaning. -/
namespace LtlFuzzer.Automata
open Foundation

namespace TwaGraph
variable {A : TwaGraph} {q : Fin A.numStates} {t : Edge A.numStates}

/-- A guard holds through its last cube or through one of those before it, never both. -/
private theorem sat_iff_last_or_early {g : Robdd Nat} (ν : Str → Bool) :
    A.Sat g ν ↔ A.LastCubeSat g ν ∨ ∃ p ∈ g.diagram.paths.dropLast, Bdd.Agrees (A.dict.valuation ν) p := by
  rw [Sat, Bdd.eval_iff_exists_path, LastCubeSat, lastPath]
  rcases List.eq_nil_or_concat g.diagram.paths with h | ⟨ps, p, h⟩
  · simp [h]
  · simp [h, or_comm]

private theorem not_early_of_last {g : Robdd Nat} {ν : Str → Bool} (h : A.LastCubeSat g ν) :
    ∀ p ∈ g.diagram.paths.dropLast, ¬ Bdd.Agrees (A.dict.valuation ν) p := by
  obtain ⟨p, hp, hlast⟩ := h
  have hdisj := Bdd.paths_disjoint (A.dict.valuation ν) g.diagram
  rw [← List.dropLast_append_getLast? p hp, List.pairwise_append] at hdisj
  intro p' hp' hearly
  exact hdisj.2.2 p' hp' p (List.mem_singleton.mpr rfl) hearly hlast

/-- The names that a path wants true. -/
private def wanted (d : Dict) (p : List (Nat × Bool)) : StrSet :=
  Std.TreeSet.ofList (p.filterMap fun l => if l.2 then d.nameOf l.1 else none)

private theorem agrees_wanted (ht : t ∈ A.out q) {p : List (Nat × Bool)} (hp : p ∈ t.cond.diagram.paths) :
    Bdd.Agrees (A.dict.valuation fun a => decide (a ∈ wanted A.dict p)) p := by
  rintro ⟨v, b⟩ hl
  obtain ⟨⟨a, w⟩, hm, hw⟩ := List.mem_map.mp (path_registered ht hp _ hl)
  obtain rfl : w = v := hw
  rw [Dict.valuation_of_mem hm]
  have hmem : a ∈ wanted A.dict p ↔ (w, true) ∈ p := by
    simp only [wanted, Std.TreeSet.mem_ofList, List.contains_iff_mem, List.mem_filterMap, Prod.exists]
    constructor
    · rintro ⟨v, b, hvb, hname⟩
      cases b with
      | false => cases hname
      | true =>
        exact Dict.var_unique (Dict.nameOf_eq_some.mp hname) hm ▸ hvb
    · exact fun h => ⟨w, true, h, Dict.nameOf_eq_some.mpr hm⟩
  cases b with
  | true => exact decide_eq_true (hmem.mpr hl)
  | false =>
    apply decide_eq_false
    intro ha
    cases t.cond.literal_unique hp (hmem.mp ha) hl

/-- One event set is tested rightly exactly when none of the cubes before the last holds. -/
private theorem checkCond_exact_iff (ht : t ∈ A.out q) (h0 : t.cond.diagram ≠ .zero) (events : StrSet) (st : Statics) :
    ((checkCond A.bddvarnum A.dict t.cond events st).1 = true ↔ A.Sat t.cond fun a => decide (a ∈ events)) ↔
      ∀ p ∈ t.cond.diagram.paths.dropLast, ¬ Bdd.Agrees (A.dict.valuation fun a => decide (a ∈ events)) p := by
  rw [checkCond_iff ht h0, sat_iff_last_or_early]
  constructor
  · intro h p hp hearly
    exact not_early_of_last (h.mpr (.inr ⟨p, hp, hearly⟩)) p hp hearly
  · intro h
    refine ⟨.inl, fun hsat => ?_⟩
    rcases hsat with hlast | ⟨p, hp, hearly⟩
    · exact hlast
    · exact absurd hearly (h p hp)

/-- The test of an event set gives the guard's meaning exactly when no cube before the last
holds; it does so for every event set exactly when there is one cube only. -/
theorem check_cond_meaning_iff (A : TwaGraph) (q : Fin A.numStates) (t : Edge A.numStates) (ht : t ∈ A.out q)
    (h0 : t.cond.diagram ≠ .zero) :
    (∀ events st, ((checkCond A.bddvarnum A.dict t.cond events st).1 = true ↔
        A.Sat t.cond fun a => decide (a ∈ events)) ↔
      ∀ p ∈ t.cond.diagram.paths.dropLast, ¬ Bdd.Agrees (A.dict.valuation fun a => decide (a ∈ events)) p) ∧
    ((∀ events st, (checkCond A.bddvarnum A.dict t.cond events st).1 = true ↔
        A.Sat t.cond fun a => decide (a ∈ events)) ↔ t.cond.diagram.paths.length = 1) := by
  have hexact := checkCond_exact_iff ht h0
  have hpos := List.length_pos_of_ne_nil (t.cond.paths_ne_nil h0)
  refine ⟨hexact, ?_⟩
  constructor
  · intro h
    by_contra hne
    have hearly : 0 < t.cond.diagram.paths.dropLast.length := by
      rw [List.length_dropLast]
      omega
    obtain ⟨p, hp⟩ := List.exists_mem_of_length_pos hearly
    apply (hexact (wanted A.dict p) {}).mp (h _ _) p hp
    exact agrees_wanted ht (List.mem_of_mem_dropLast hp)
  · intro h1 events st
    have hnil : t.cond.diagram.paths.dropLast = [] := by
      apply List.eq_nil_of_length_eq_zero
      rw [List.length_dropLast, h1]
    apply (hexact events st).mpr
    simp [hnil]

end TwaGraph

/-- The event b satisfies a | b through its first cube, which the test forgets. -/
theorem check_cond_misses_b :
    (⟨1, either⟩ : Edge 2) ∈ eitherGraph.out (0 : Fin 2) ∧ either.diagram ≠ .zero ∧
      (checkCond 2 dictAB either ((∅ : StrSet).insert ['b']) {}).1 = false ∧
      eitherGraph.Sat either fun a => decide (a ∈ (∅ : StrSet).insert ['b']) :=
  ⟨.tail _ (.head _), by decide, by decide, by decide⟩

theorem check_cond_meaning_iff_either :
    (∀ events st, ((checkCond 2 dictAB either events st).1 = true ↔
        eitherGraph.Sat either fun a => decide (a ∈ events)) ↔
      ∀ p ∈ either.diagram.paths.dropLast, ¬ Bdd.Agrees (dictAB.valuation fun a => decide (a ∈ events)) p) ∧
    ((∀ events st, (checkCond 2 dictAB either events st).1 = true ↔
        eitherGraph.Sat either fun a => decide (a ∈ events)) ↔ either.diagram.paths.length = 1) :=
  TwaGraph.check_cond_meaning_iff eitherGraph (0 : Fin 2) ⟨(1 : Fin 2), either⟩ (.tail _ (.head _)) (by decide)

end LtlFuzzer.Automata
