import LtlFuzzer.Automata.Copies
import LtlFuzzer.Service.Preparations

/-! What a call of set_formula that throws leaves of the object it is called on. -/
namespace LtlFuzzer.Service
open Foundation Automata

variable {φ : Type} {spot : Spot φ}

/-- The object that holds a graph, the names of its dictionary, and a formula. -/
def holding (A : TwaGraph) (formula : Str) : AutomataObject := ⟨some A, A.dict, A.dict, some formula⟩

/-- The two tests of the graph's acceptance. -/
def Spot.rejection (spot : Spot φ) (automata : SpotGraph) : Option Str :=
  if !spot.propStateAcc automata then some (automataException "Automaton is not using state-based acceptance!".toList)
  else if !spot.isBuchi automata then some (automataException "Automaton is not Büchi!".toList)
  else none

/-- The object after the call, and the text of the exception thrown. The parsed formula is
stored before its errors are looked at, the graph and the maps before its acceptance is. -/
def Spot.updated (spot : Spot φ) (a : AutomataObject) (formula exclusive : Str) : AutomataObject × Option Str :=
  match spot.parseInfixPsl formula with
  | (f, some errors) =>
    ({ a with pf := some (spot.str f) },
      some (automataException ("Failed to parse formula ".toList ++ formula ++ ['\n'] ++ errors)))
  | (f, none) =>
    let automata := spot.constrained f exclusive
    (holding automata.1 (spot.str f), spot.rejection automata)

/-- The library as the objects are built with it. -/
def Spot.translator (spot : Spot φ) : Translator := fun formula exclusive =>
  match spot.setFormula formula exclusive with
  | .ok atm => some (atm.graph, atm.formula)
  | .error _ => none

/-- Two graphs give the same states on all events and the same transitions. -/
structure SameAnswers (A B : TwaGraph) : Prop where
  modelCheck : ∀ events st, (A.modelCheckEvents events st).1 = (B.modelCheckEvents events st).1
  transitions : ∀ state : Int,
    (A.stateFromNumber state).map A.getStateTransitions = (B.stateFromNumber state).map B.getStateTransitions

variable {a : AutomataObject} {formula : Str}

/-- A text with errors. -/
private theorem updated_of_errors {f : φ} {errors : Str} (h : spot.parseInfixPsl formula = (f, some errors)) (exclusive : Str) :
    spot.updated a formula exclusive = ({ a with pf := some (spot.str f) },
      some (automataException ("Failed to parse formula ".toList ++ formula ++ ['\n'] ++ errors))) := by
  rw [Spot.updated, h]

private theorem updated_of_parsed {f : φ} (h : spot.parseInfixPsl formula = (f, none)) (exclusive : Str) :
    spot.updated a formula exclusive =
      (holding (spot.constrained f exclusive).1 (spot.str f), spot.rejection (spot.constrained f exclusive)) := by
  rw [Spot.updated, h]

/-- A new object is set in the same way, and nothing is kept of it after an exception. -/
private theorem setFormula_of_parsed {f : φ} (h : spot.parseInfixPsl formula = (f, none)) (exclusive : Str) :
    match spot.rejection (spot.constrained f exclusive) with
    | some what => spot.setFormula formula exclusive = .error what
    | none => ∃ atm, spot.setFormula formula exclusive = .ok atm ∧ atm.graph = (spot.constrained f exclusive).1 ∧
        atm.formula = spot.str f := by
  rw [Spot.rejection, Spot.setFormula, h]
  dsimp only
  split_ifs
  · rfl
  · rfl
  · exact ⟨_, rfl, rfl, rfl⟩

/-- The exception is the one that a new object reports. -/
theorem updated_rejects_iff (a : AutomataObject) (formula exclusive what : Str) :
    (spot.updated a formula exclusive).2 = some what ↔ spot.setFormula formula exclusive = .error what := by
  cases hparse : spot.parseInfixPsl formula with
  | mk f failure => cases failure with
    | some errors => simp [updated_of_errors hparse, Spot.setFormula, hparse]
    | none =>
      have hset := setFormula_of_parsed hparse exclusive
      rw [updated_of_parsed hparse]
      cases hr : spot.rejection (spot.constrained f exclusive) with
      | some what' =>
        rw [hr] at hset
        simp [hset]
      | none =>
        rw [hr] at hset
        obtain ⟨atm, hatm, -, -⟩ := hset
        simp [hatm]

/-- A call that is accepted leaves what a new object would have. -/
theorem updated_accepts {exclusive : Str} (h : (spot.updated a formula exclusive).2 = none) :
    AutomataObject.setFormula spot.translator formula exclusive = some (spot.updated a formula exclusive).1 ∧
      (spot.updated a formula exclusive).1 =
        holding (spot.constrained (spot.parseInfixPsl formula).1 exclusive).1 (spot.str (spot.parseInfixPsl formula).1) := by
  cases hparse : spot.parseInfixPsl formula with
  | mk f failure => cases failure with
    | some errors =>
      rw [updated_of_errors hparse] at h
      cases h
    | none =>
      have hset := setFormula_of_parsed hparse exclusive
      rw [updated_of_parsed hparse] at h ⊢
      dsimp only at h
      rw [h] at hset
      obtain ⟨atm, hatm, hgraph, hformula⟩ := hset
      refine ⟨?_, rfl⟩
      rw [AutomataObject.setFormula, Spot.translator, hatm, ← hgraph, ← hformula]
      rfl

theorem getStateTransitions_holding (A : TwaGraph) (formula : Str) (state : Int) :
    (holding A formula).getStateTransitions state = (A.stateFromNumber state).map A.getStateTransitions := by
  cases hs : A.stateFromNumber state with
  | none =>
    rw [AutomataObject.getStateTransitions, holding, Option.bind_eq_bind, Option.bind_some, hs]
    rfl
  | some q =>
    obtain rfl : state = q.val := by
      rw [TwaGraph.stateFromNumber] at hs
      split_ifs at hs with hrange
      cases hs
      exact (Int.toNat_of_nonneg hrange.1).symm
    exact getStateTransitions_of_dict A (some formula) q

private theorem holding_behavesLike_iff (A B : TwaGraph) (formula formula' : Str) :
    BehavesLike (holding B formula') (holding A formula) ↔ formula' = formula ∧ SameAnswers B A := by
  have hcheck (A : TwaGraph) (formula : Str) (events : List Str) (st : Statics) :
      ((holding A formula).modelCheckEvents events st).map Prod.fst = some (A.modelCheckEvents events st).1 := rfl
  constructor
  · rintro ⟨hmodel, htrans, hformula⟩
    refine ⟨Option.some.inj hformula, fun events st => ?_, fun state => ?_⟩
    · have := hmodel events st
      rw [hcheck, hcheck] at this
      exact Option.some.inj this
    · rw [← getStateTransitions_holding, ← getStateTransitions_holding]
      exact htrans state
  · rintro ⟨rfl, hmodel, htrans⟩
    refine ⟨fun events st => ?_, fun state => ?_, rfl⟩
    · rw [hcheck, hcheck, hmodel]
    · rw [getStateTransitions_holding, getStateTransitions_holding, htrans]

/-- A rejected call changes nothing that can be observed exactly when its text gives, errors or
not, the formula held already, and if it parses the graph rejected answers as the one held. -/
theorem rejected_formula_harmless_iff (spot : Spot φ) {new a : AutomataObject} {formula exclusive formula' exclusive' : Str}
    {what : Str} (haccepted : spot.updated new formula exclusive = (a, none))
    (hrejected : (spot.updated a formula' exclusive').2 = some what) :
    BehavesLike (spot.updated a formula' exclusive').1 a ↔
      spot.str (spot.parseInfixPsl formula').1 = spot.str (spot.parseInfixPsl formula).1 ∧
        (spot.Parses formula' → SameAnswers (spot.constrained (spot.parseInfixPsl formula').1 exclusive').1
          (spot.constrained (spot.parseInfixPsl formula).1 exclusive).1) := by
  have hheld := (updated_accepts (congrArg Prod.snd haccepted)).2
  rw [haccepted] at hheld
  dsimp only at hheld
  subst hheld
  unfold Spot.Parses
  cases hparse : spot.parseInfixPsl formula' with
  | mk f failure => cases failure with
    | some errors =>
      -- only the formula is new
      rw [updated_of_errors hparse]
      refine ⟨fun h => ⟨Option.some.inj h.formula, fun hparses => by cases hparses⟩, fun h => ?_⟩
      exact ⟨fun _ _ => rfl, fun _ => rfl, congrArg some h.1⟩
    | none =>
      -- the graph and its maps are those of the new text
      rw [updated_of_parsed hparse, holding_behavesLike_iff]
      simp only [true_imp_iff]

/-- As the library documents its graphs, only texts that do not parse are rejected. -/
theorem not_parses_of_rejected (h : spot.Documented) {a : AutomataObject} {formula exclusive what : Str}
    (hrejected : (spot.updated a formula exclusive).2 = some what) : ¬ spot.Parses formula := by
  intro hparses
  obtain ⟨atm, hatm⟩ := Spot.setFormula_of_parses h hparses exclusive
  rw [updated_rejects_iff, hatm] at hrejected
  cases hrejected

private theorem recurrent_updated :
    recurrentSpot.updated {} "GFa".toList [] = (recurrentObject, none) ∧
      (recurrentSpot.updated recurrentObject ['('] []).2 = some "[Automata Error] Failed to parse formula (\nsyntax error".toList :=
  ⟨rfl, rfl⟩

/-- The object still checks GFa and goes by the name of the text rejected. -/
theorem rejected_formula_stays :
    recurrentSpot.updated {} "GFa".toList [] = (recurrentObject, none) ∧
      (recurrentSpot.updated recurrentObject ['('] []).2 = some "[Automata Error] Failed to parse formula (\nsyntax error".toList ∧
      (recurrentSpot.updated recurrentObject ['('] []).1.formula = some ['('] ∧
      recurrentObject.formula = some "GFa".toList ∧
      ¬ BehavesLike (recurrentSpot.updated recurrentObject ['('] []).1 recurrentObject := by
  refine ⟨recurrent_updated.1, recurrent_updated.2, rfl, rfl, fun h => ?_⟩
  have hformula : (some ['('] : Option Str) = some "GFa".toList := h.formula
  cases hformula

theorem rejected_formula_harmless_iff_recurrent :
    recurrentSpot.updated {} "GFa".toList [] = (recurrentObject, none) ∧
      (recurrentSpot.updated recurrentObject ['('] []).2 = some "[Automata Error] Failed to parse formula (\nsyntax error".toList ∧
      (BehavesLike (recurrentSpot.updated recurrentObject ['('] []).1 recurrentObject ↔
        recurrentSpot.str (recurrentSpot.parseInfixPsl ['(']).1 = recurrentSpot.str (recurrentSpot.parseInfixPsl "GFa".toList).1 ∧
          (recurrentSpot.Parses ['('] →
            SameAnswers (recurrentSpot.constrained (recurrentSpot.parseInfixPsl ['(']).1 []).1
              (recurrentSpot.constrained (recurrentSpot.parseInfixPsl "GFa".toList).1 []).1)) :=
  ⟨recurrent_updated.1, recurrent_updated.2,
    rejected_formula_harmless_iff recurrentSpot recurrent_updated.1 recurrent_updated.2⟩

end LtlFuzzer.Service
