import LtlFuzzer.Automata.Transitions
import LtlFuzzer.Foundation.Runs
import LtlFuzzer.Instrumentation.AutomataPath

/-! The acceptance check of the recorder: which traces it reports as counterexamples. -/
namespace LtlFuzzer.Instrumentation
open Foundation Faults Automata

/-- The comparison of a literal's text with an event. -/
def literalAllows (lit event : Str) : Bool :=
  match lit with
  | '!' :: name => name ≠ event
  | name => name = event

@[simp] theorem literalAllows_negated (name event : Str) :
    literalAllows ('!' :: name) event = decide (name ≠ event) := rfl

theorem literalAllows_plain {lit : Str} (h : lit.head? ≠ some '!') (event : Str) :
    literalAllows lit event = decide (lit = event) := by
  unfold literalAllows
  split
  · exact absurd rfl h
  · rfl

/-- The loop over a window for one literal; false is the jump out of its cube. -/
def literalHolds (word : List Str) (lit : Str) : List Nat → Except Stop Bool
  | [] => .ok true
  | i :: is => do
    let event ← readAt word i
    if literalAllows lit event then literalHolds word lit is else .ok false

def cubeHolds (word : List Str) (window : List Nat) : List Str → Except Stop Bool
  | [] => .ok true
  | lit :: lits => do
    if ← literalHolds word lit window then cubeHolds word window lits else .ok false

/-- Both ends of the window are included. -/
def checkConditions (word : List Str) (events : List StrSet) (beginLoc endLoc : Nat) : Except Stop Unit :=
  events.forM fun cube => do
    if ← cubeHolds word (List.range' beginLoc (endLoc + 1 - beginLoc)) cube.toList then
      .error .counterexample
    else .ok ()

/-- The cubes kept for a state's self-loop: those of the last edge back to it. -/
def selfLoop (trans : Transitions) (lastState : Int) : List StrSet :=
  trans.foldl (fun events e => if e.2 = lastState then e.1 else events) []

/-- The hash index of a trace position. -/
def programLoc (flag : Bool) (loc : Nat) : Nat := if flag then loc else loc / 2

/-- The last trace position of a hash index. -/
def windowEnd (flag : Bool) (i : Nat) : Nat := if flag then i else 2 * i + 1

def stateAt (A : TwaGraph) (n : Int) : Except Stop (Fin A.numStates) :=
  match A.stateFromNumber n with
  | some q => .ok q
  | none => .error .outOfRange

/-- The body run for an accepting state at a position. -/
def checkAccepting (A : TwaGraph) (b : CodeBean) (aPath : Str) (flag : Bool) (loc : Nat) : Except Stop Unit := do
  let lastState ← getLastState aPath
  let q ← stateAt A lastState
  let events := selfLoop (A.getStateTransitions q) lastState
  if events = [] then .error .counterexample
  else do
    let sloc := programLoc flag loc
    let pstate ← readAt b.stateVector sloc
    (List.range' (sloc + 1) (b.stateVector.length - (sloc + 1))).forM fun i => do
      let hash ← readAt b.stateVector i
      if pstate = hash then checkConditions (b.trace flag) events loc (windowEnd flag i) else .ok ()

def checkAcceptance (A : TwaGraph) (b : CodeBean) (states : List MCState) (aPath : Str) (flag : Bool) :
    Except Stop Unit :=
  states.zipIdx.forM fun (m, loc) => if m.acceptance then checkAccepting A b aPath flag loc else .ok ()

/-- One hash per proposition, or one per pair of input and output. -/
def CodeBean.Recorded (b : CodeBean) (flag : Bool) : Prop :=
  if flag then b.stateVector.length = b.traceProtocol.length
  else b.traceString.length = b.traceCommon.length ∧ b.traceCommon.length = 2 * b.stateVector.length

/-- Every event from the first position to the last passes every literal. -/
def CubeCovers (word : List Str) (beginLoc endLoc : Nat) (cube : StrSet) : Prop :=
  ∀ lit ∈ cube, ∀ i e, beginLoc ≤ i → i ≤ endLoc → word[i]? = some e → literalAllows lit e = true

/-- A repeated program state after a position, with one cube over the whole window. -/
def CoveredRepeat (b : CodeBean) (flag : Bool) (cubes : List StrSet) (loc i : Nat) : Prop :=
  programLoc flag loc < i ∧ i < b.stateVector.length ∧
    b.stateVector[programLoc flag loc]? = b.stateVector[i]? ∧
    ∃ c ∈ cubes, CubeCovers (b.trace flag) loc (windowEnd flag i) c

def AcceptingAt (states : List MCState) (loc : Nat) : Prop :=
  ∃ m, states[loc]? = some m ∧ m.acceptance = true

/-- The cubes that the check uses for a last state. -/
def loopCubes (A : TwaGraph) (q : Fin A.numStates) : List StrSet := selfLoop (A.getStateTransitions q) q.val

@[simp] theorem programLoc_windowEnd (flag : Bool) (i : Nat) : programLoc flag (windowEnd flag i) = i := by
  cases flag <;> simp [programLoc, windowEnd]
  omega

private theorem literalHolds_eq {word : List Str} (lit : Str) {window : List Nat}
    (hw : ∀ i ∈ window, i < word.length) :
    ∃ r, literalHolds word lit window = .ok r ∧
      (r = true ↔ ∀ i ∈ window, ∀ e, word[i]? = some e → literalAllows lit e = true) := by
  induction window with
  | nil => exact ⟨true, rfl, by simp⟩
  | cons i is ih =>
    obtain ⟨hi, his⟩ := List.forall_mem_cons.mp hw
    obtain ⟨r, hr, hiff⟩ := ih his
    have hget : word[i]? = some word[i] := List.getElem?_eq_getElem hi
    rw [literalHolds, readAt_of_lt hi, ok_bind, hr]
    simp only [List.forall_mem_cons, hget, Option.some.injEq, forall_eq', ← hiff]
    cases literalAllows lit word[i] with
    | false => exact ⟨false, rfl, by simp⟩
    | true => exact ⟨r, rfl, by simp⟩

private theorem cubeHolds_eq {word : List Str} {window : List Nat} (hw : ∀ i ∈ window, i < word.length)
    (lits : List Str) :
    ∃ r, cubeHolds word window lits = .ok r ∧
      (r = true ↔ ∀ lit ∈ lits, ∀ i ∈ window, ∀ e, word[i]? = some e → literalAllows lit e = true) := by
  induction lits with
  | nil => exact ⟨true, rfl, by simp⟩
  | cons lit lits ih =>
    obtain ⟨r, hr, hiff⟩ := ih
    obtain ⟨r', hr', hiff'⟩ := literalHolds_eq lit hw
    rw [cubeHolds, hr', ok_bind]
    simp only [List.forall_mem_cons, ← hiff, ← hiff']
    cases r' with
    | false => exact ⟨false, rfl, by simp⟩
    | true => exact ⟨r, by simpa using hr, by simp⟩

theorem checkConditions_stops {word : List Str} (events : List StrSet) {beginLoc endLoc : Nat}
    (h : endLoc < word.length) :
    StopsWith .counterexample (∃ c ∈ events, CubeCovers word beginLoc endLoc c)
      (checkConditions word events beginLoc endLoc) := by
  refine StopsWith.forM fun c _ => ?_
  have hw : ∀ i ∈ List.range' beginLoc (endLoc + 1 - beginLoc), i < word.length := by
    intro i hi
    have := List.mem_range'_1.mp hi
    omega
  obtain ⟨r, hr, hiff⟩ := cubeHolds_eq hw c.toList
  have hcover : CubeCovers word beginLoc endLoc c ↔ r = true := by
    rw [hiff]
    refine forall_congr' fun lit => ?_
    rw [Std.TreeSet.mem_toList]
    refine imp_congr_right fun _ => forall_congr' fun i => ?_
    rw [List.mem_range'_1]
    exact ⟨fun h hi e => h e hi.1 (by omega), fun h e h1 h2 => h ⟨h1, by omega⟩ e⟩
  rw [hr, ok_bind]
  cases r with
  | false => exact (StopsWith.passes _).congr (by simp [hcover])
  | true => exact (StopsWith.stops _).congr (by simp [hcover])

/-- An instrumented loop that ends every round with a hash of the program state. -/
def recordRounds {ρ : Type} (collect : CodeBean → ρ → CodeBean) (b : CodeBean) (rounds : List (ρ × Nat)) : CodeBean :=
  rounds.foldl (fun (b : CodeBean) r => (collect b r.1).collectState r.2) b

theorem recorded_propositions (rounds : List (Str × Nat)) :
    (recordRounds CodeBean.collectProposition {} rounds).Recorded true := by
  apply Runs.foldl_history (fun (_ : List (Str × Nat)) (b : CodeBean) => b.Recorded true)
  · rfl
  · intro _ b r h
    simpa [CodeBean.Recorded, CodeBean.collectState, CodeBean.collectProposition] using h

theorem recorded_pairs (names : Std.TreeMap Int Str) (rounds : List ((Int × Int) × Nat)) :
    (recordRounds (fun b p => b.collectTrace p.1 p.2) { eventReverseMap := names } rounds).normalizeTrace.Recorded
      false := by
  have hb : ∀ b : CodeBean, b.traceString = [] ∧ b.traceCommon.length = 2 * b.stateVector.length →
      b.normalizeTrace.Recorded false := by
    intro b ⟨hs, hc⟩
    simp [CodeBean.Recorded, CodeBean.normalizeTrace, hs, hc]
  apply hb
  apply Runs.foldl_history (fun (_ : List ((Int × Int) × Nat)) (b : CodeBean) =>
    b.traceString = [] ∧ b.traceCommon.length = 2 * b.stateVector.length)
  · exact ⟨rfl, rfl⟩
  · intro _ b r ⟨hs, hc⟩
    refine ⟨hs, ?_⟩
    simp only [CodeBean.collectState, CodeBean.collectTrace, List.length_append, List.length_cons,
      List.length_nil, hc]
    omega

/-- The hash of a trace position, and the events up to the last position of a hash. -/
theorem recorded_bounds {b : CodeBean} {flag : Bool} (hb : b.Recorded flag) :
    (∀ loc < (b.trace flag).length, programLoc flag loc < b.stateVector.length) ∧
      ∀ i < b.stateVector.length, windowEnd flag i < (b.trace flag).length := by
  cases flag with
  | false =>
    obtain ⟨hs, hc⟩ : b.traceString.length = b.traceCommon.length ∧
      b.traceCommon.length = 2 * b.stateVector.length := by simpa [CodeBean.Recorded] using hb
    simp only [CodeBean.trace, programLoc, windowEnd, Bool.false_eq_true, if_false]
    exact ⟨fun _ _ => by omega, fun _ _ => by omega⟩
  | true =>
    have hl : b.stateVector.length = b.traceProtocol.length := by simpa [CodeBean.Recorded] using hb
    simp only [CodeBean.trace, programLoc, windowEnd, if_true]
    exact ⟨fun _ _ => by omega, fun _ _ => by omega⟩

private theorem checkAccepting_stops {A : TwaGraph} {b : CodeBean} {flag : Bool} (hb : b.Recorded flag)
    {aPath : Str} {q : Fin A.numStates} (hq : getLastState aPath = .ok (q.val : Int)) {loc : Nat}
    (hloc : loc < (b.trace flag).length) :
    StopsWith .counterexample (loopCubes A q = [] ∨ ∃ i, CoveredRepeat b flag (loopCubes A q) loc i)
      (checkAccepting A b aPath flag loc) := by
  obtain ⟨hhash, hwin⟩ := recorded_bounds hb
  have hs := hhash loc hloc
  have hstate : stateAt A (q.val : Int) = .ok q := by simp [stateAt]
  have hcubes : selfLoop (A.getStateTransitions q) q.val = loopCubes A q := rfl
  rw [checkAccepting, hq, ok_bind, hstate, ok_bind]
  simp only [hcubes]
  by_cases hc : loopCubes A q = []
  · rw [if_pos hc]
    exact (StopsWith.stops _).congr (by simp [hc])
  · rw [if_neg hc, readAt_of_lt hs, ok_bind]
    refine (StopsWith.forM (P := CoveredRepeat b flag (loopCubes A q) loc) fun i hi => ?_).congr ?_
    · have hi := List.mem_range'_1.mp hi
      have hlt : i < b.stateVector.length := by omega
      rw [readAt_of_lt hlt, ok_bind]
      refine (StopsWith.ite fun _ => checkConditions_stops (loopCubes A q) (hwin i hlt)).congr ?_
      simp [CoveredRepeat, hs, hlt, show programLoc flag loc < i by omega]
    · simp only [hc, false_or, List.mem_range'_1]
      exact exists_congr fun i => ⟨And.right, fun h => ⟨⟨by have := h.1; omega, by have := h.2.1; omega⟩, h⟩⟩

/-- The accepting positions are those of genuine accepting states. -/
theorem acceptingAt_iff {A : TwaGraph} {ss : List (Fin A.numStates)} {states : List MCState} (dead : Bool)
    (h : states = ss.map A.entry ++ (if dead then [deadEnd] else [])) (loc : Nat) :
    AcceptingAt states loc ↔ ∃ q, ss[loc]? = some q ∧ A.accepting q = true := by
  rw [AcceptingAt, h]
  by_cases hlt : loc < ss.length
  · simp [List.getElem?_append_left, hlt, TwaGraph.entry]
  · have hnone : ss[loc]? = none := List.getElem?_eq_none (by omega)
    rw [List.getElem?_append_right (by simpa using hlt), hnone]
    simp only [reduceCtorEq, false_and, exists_false, iff_false]
    rintro ⟨m, hm, hacc⟩
    have hd : m = deadEnd := by
      cases dead with
      | false => simp at hm
      | true => simpa using List.mem_of_getElem? hm
    subst hd
    cases hacc

theorem exists_lastState {A : TwaGraph} {events : List Str} {st : Statics} {loc : Nat}
    (h : AcceptingAt (A.modelCheckEvents events st).1 loc) :
    loc < events.length ∧
      ∃ q : Fin A.numStates, (genuine (A.modelCheckEvents events st).1).getLast? = some (q.val : Int) := by
  obtain ⟨ss, dead, he, hg, hle⟩ := exists_genuine A events st
  obtain ⟨q, hq, _⟩ := (acceptingAt_iff dead he loc).mp h
  have hlt := (List.getElem?_eq_some_iff.mp hq).1
  have hne : ss ≠ [] := List.ne_nil_of_length_pos (by omega)
  refine ⟨by omega, ss.getLast hne, ?_⟩
  rw [hg, List.getLast?_map, List.getLast?_eq_some_getLast hne, Option.map_some]

/-- The check reports a counterexample at an accepting state exactly when the last state
has no self-loop, or one of its cubes covers a repeated program state. -/
theorem checkAcceptance_stops {A : TwaGraph} {b : CodeBean} {flag : Bool} (hb : b.Recorded flag)
    {st : Statics} {aPath pfx : Str}
    (hx : extractPrefixAutomataPath b (A.modelCheckEvents (b.trace flag) st).1 flag = .ok (aPath, pfx)) :
    StopsWith .counterexample
      (∃ loc, AcceptingAt (A.modelCheckEvents (b.trace flag) st).1 loc ∧
        ∃ q : Fin A.numStates, (genuine (A.modelCheckEvents (b.trace flag) st).1).getLast? = some (q.val : Int) ∧
          (loopCubes A q = [] ∨ ∃ i, CoveredRepeat b flag (loopCubes A q) loc i))
      (checkAcceptance A b (A.modelCheckEvents (b.trace flag) st).1 aPath flag) := by
  let states := (A.modelCheckEvents (b.trace flag) st).1
  let Alarm (loc : Nat) : Prop := ∃ q : Fin A.numStates, (genuine states).getLast? = some (q.val : Int) ∧
    (loopCubes A q = [] ∨ ∃ i, CoveredRepeat b flag (loopCubes A q) loc i)
  have hstep : ∀ p ∈ states.zipIdx, StopsWith .counterexample (p.1.acceptance = true ∧ Alarm p.2)
      (if p.1.acceptance then checkAccepting A b aPath flag p.2 else .ok ()) := by
    rintro ⟨m, loc⟩ hp
    have hm : states[loc]? = some m := List.mem_zipIdx_iff_getElem?.mp hp
    refine StopsWith.ite fun hacc => ?_
    have hat : AcceptingAt states loc := ⟨m, hm, hacc⟩
    obtain ⟨hlt, q, hq⟩ := exists_lastState hat
    have hlast := extract_getLastState hx hq (by omega) (stateNumber_range q).2
    refine (checkAccepting_stops hb hlast hlt).congr ?_
    constructor
    · exact fun h => ⟨q, hq, h⟩
    · rintro ⟨q', hq', h⟩
      have he : q' = q := by
        rw [hq, Option.some_inj] at hq'
        omega
      exact he ▸ h
  refine (StopsWith.forM hstep).congr ?_
  constructor
  · rintro ⟨⟨m, loc⟩, hp, hacc, h⟩
    exact ⟨loc, ⟨m, List.mem_zipIdx_iff_getElem?.mp hp, hacc⟩, h⟩
  · rintro ⟨loc, ⟨m, hm, hacc⟩, h⟩
    exact ⟨(m, loc), List.mem_zipIdx_iff_getElem?.mpr hm, hacc, h⟩

end LtlFuzzer.Instrumentation
