import LtlFuzzer.Instrumentation.Acceptance

/-! Reported counterexamples against the accepting lassos of the recorded trace. -/
namespace LtlFuzzer.Automata.TwaGraph
variable {A : TwaGraph} {q : Fin A.numStates}

theorem evalFrom_self {es : List Str} (h : ∀ e ∈ es, q ∈ A.nfa.step q e) : q ∈ A.nfa.evalFrom {q} es := by
  induction es with
  | nil => exact Set.mem_singleton q
  | cons e es ih =>
    obtain ⟨he, hes⟩ := List.forall_mem_cons.mp h
    rw [NFA.evalFrom_cons, NFA.stepSet_singleton]
    exact NFA.mem_evalFrom_iff_exists.mpr ⟨q, he, ih hes⟩

/-- An event that passes every literal of a cube takes its edge, unless a name begins
like a negation. -/
theorem step_of_literalsAllow (hn : A.PlainNames) {t : Edge A.numStates} (ht : t ∈ A.out q) {c : StrSet}
    (hc : c ∈ getCond A.bddvarnum A.dict t.cond) {e : Str}
    (h : ∀ lit ∈ c, Instrumentation.literalAllows lit e = true) : t.dst ∈ A.nfa.step q e := by
  obtain ⟨p, hp, hlits⟩ := mem_getCond ht hc
  refine ⟨t, ht, rfl, Foundation.Bdd.eval_of_path hp ?_⟩
  rintro ⟨v, value⟩ hl
  obtain ⟨a, hm, htext⟩ := exists_name_of_mem ht hp hl
  have hlit := h _ ((hlits _).mpr ⟨(v, value), hl, rfl⟩)
  rw [htext] at hlit
  rw [Dict.valuation_of_mem hm]
  cases value with
  | false => simpa [exactly] using hlit
  | true =>
    rw [if_pos rfl, Instrumentation.literalAllows_plain (hn a (List.mem_map_of_mem hm))] at hlit
    exact hlit

end LtlFuzzer.Automata.TwaGraph

namespace LtlFuzzer.Instrumentation
open Foundation Faults Automata
variable {A : TwaGraph} {b : CodeBean} {flag : Bool}

/-- An accepting state, a later position with the same program state, and a way for the
automaton to read the events between them and be back. -/
def RealLasso (A : TwaGraph) (b : CodeBean) (flag : Bool) (states : List MCState) : Prop :=
  ∃ (loc fin : Nat) (q : Fin A.numStates), loc < fin ∧ fin < (b.trace flag).length ∧
    states[loc]? = some (A.entry q) ∧ A.accepting q = true ∧
    b.stateVector[programLoc flag loc]? = b.stateVector[programLoc flag fin]? ∧
    q ∈ A.nfa.evalFrom {q} (((b.trace flag).drop (loc + 1)).take (fin - loc))

/-- Two positions of a protocol trace with one accepting state and one program state. -/
def Witnessed (A : TwaGraph) (b : CodeBean) (states : List MCState) : Prop :=
  ∃ (loc i : Nat) (q : Fin A.numStates), loc < i ∧ states[loc]? = some (A.entry q) ∧
    states[i]? = some (A.entry q) ∧ A.accepting q = true ∧ b.stateVector[loc]? = b.stateVector[i]?

def LastState (A : TwaGraph) (states : List MCState) (q : Fin A.numStates) : Prop :=
  (genuine states).getLast? = some (q.val : Int)

private theorem lastState_unique {states : List MCState} {q q' : Fin A.numStates}
    (h : LastState A states q) (h' : LastState A states q') : q = q' := by
  rw [LastState, h, Option.some_inj] at h'
  omega

private theorem mem_selfLoop {c : StrSet} (trans : Transitions) (lastState : Int) (events : List StrSet)
    (h : c ∈ trans.foldl (fun events e => if e.2 = lastState then e.1 else events) events) :
    c ∈ events ∨ ∃ e ∈ trans, e.2 = lastState ∧ c ∈ e.1 := by
  induction trans generalizing events with
  | nil => exact .inl h
  | cons e trans ih =>
    rw [List.foldl_cons] at h
    rcases ih _ h with h | ⟨e', he', h⟩
    · split_ifs at h with hd
      · exact .inr ⟨e, List.mem_cons_self, hd, h⟩
      · exact .inl h
    · exact .inr ⟨e', List.mem_cons_of_mem e he', h⟩

private theorem mem_loopCubes {c : StrSet} {q : Fin A.numStates} (h : c ∈ loopCubes A q) :
    ∃ t ∈ A.out q, t.dst = q ∧ c ∈ getCond A.bddvarnum A.dict t.cond := by
  obtain ⟨_, he, hdst, hc⟩ := (mem_selfLoop _ _ _ h).resolve_left List.not_mem_nil
  obtain ⟨t, ht, rfl⟩ := List.mem_map.mp he
  have hdst : (t.dst.val : Int) = q.val := hdst
  exact ⟨t, ht, by omega, hc⟩

/-- A covered repeat that starts in the last state is a lasso. -/
private theorem realLasso_of_covered (hb : b.Recorded flag) {states : List MCState} {q : Fin A.numStates}
    {loc i : Nat} (hn : A.PlainNames) (hloc : states[loc]? = some (A.entry q)) (hacc : A.accepting q = true)
    (h : CoveredRepeat b flag (loopCubes A q) loc i) : RealLasso A b flag states := by
  obtain ⟨hlt, hi, hhash, c, hc, hcover⟩ := h
  obtain ⟨t, ht, hdst, hc⟩ := mem_loopCubes hc
  have hend : loc < windowEnd flag i := by
    cases flag
    · simp only [programLoc, windowEnd, Bool.false_eq_true, if_false] at hlt ⊢
      omega
    · exact hlt
  refine ⟨loc, windowEnd flag i, q, hend, (recorded_bounds hb).2 i hi, hloc, hacc, ?_, ?_⟩
  · rw [programLoc_windowEnd, hhash]
  · refine TwaGraph.evalFrom_self fun e he => ?_
    obtain ⟨k, hk⟩ := List.mem_iff_getElem?.mp he
    rw [List.getElem?_take] at hk
    split_ifs at hk with hlt
    rw [List.getElem?_drop] at hk
    have hstep := TwaGraph.step_of_literalsAllow hn ht hc
      fun lit hlit => hcover lit hlit _ e (by omega) (by omega) hk
    exact hdst ▸ hstep

/-- A reported counterexample is real exactly when the trace has a lasso anyway, or nothing
is accepting, or the last state has a self-loop and every repeat it covers starts there. -/
theorem check_acceptance_real_iff (A : TwaGraph) (b : CodeBean) (flag : Bool) (st : Statics) (aPath pfx : Str)
    (hb : b.Recorded flag)
    (hx : extractPrefixAutomataPath b (A.modelCheckEvents (b.trace flag) st).1 flag = .ok (aPath, pfx)) :
    (checkAcceptance A b (A.modelCheckEvents (b.trace flag) st).1 aPath flag = .error .counterexample →
        RealLasso A b flag (A.modelCheckEvents (b.trace flag) st).1) ↔
      RealLasso A b flag (A.modelCheckEvents (b.trace flag) st).1 ∨
      (∀ loc, ¬ AcceptingAt (A.modelCheckEvents (b.trace flag) st).1 loc) ∨
      ∃ q, LastState A (A.modelCheckEvents (b.trace flag) st).1 q ∧ loopCubes A q ≠ [] ∧
        ∀ loc i, AcceptingAt (A.modelCheckEvents (b.trace flag) st).1 loc →
          CoveredRepeat b flag (loopCubes A q) loc i →
          (A.modelCheckEvents (b.trace flag) st).1[loc]? = some (A.entry q) ∧ A.PlainNames := by
  rw [(checkAcceptance_stops hb hx).error_iff]
  constructor
  · intro h
    by_cases hreal : RealLasso A b flag (A.modelCheckEvents (b.trace flag) st).1
    · exact .inl hreal
    · refine .inr ?_
      by_cases hnone : ∀ loc, ¬ AcceptingAt (A.modelCheckEvents (b.trace flag) st).1 loc
      · exact .inl hnone
      · obtain ⟨loc, hloc⟩ := not_forall_not.mp hnone
        obtain ⟨_, q, hq⟩ := exists_lastState hloc
        refine .inr ⟨q, hq, fun hc => hreal (h ⟨loc, hloc, q, hq, .inl hc⟩), ?_⟩
        intro loc i hloc hi
        exact absurd (h ⟨loc, hloc, q, hq, .inr ⟨i, hi⟩⟩) hreal
  · rintro (hreal | hnone | ⟨q, hq, hc, hstart⟩) ⟨loc, hloc, q', hq', hcover⟩
    · exact hreal
    · exact absurd hloc (hnone loc)
    · obtain rfl : q = q' := lastState_unique hq hq'
      obtain ⟨i, hi⟩ := hcover.resolve_left hc
      obtain ⟨hat, hn⟩ := hstart loc i hloc hi
      obtain ⟨m, hm, hacc⟩ := hloc
      rw [hat, Option.some_inj] at hm
      exact realLasso_of_covered hb hn hat (by rw [← hm] at hacc; exact hacc) hi

def onceA : CodeBean := { traceProtocol := [['a']], stateVector := [0], propLocVec := [(['a'], 0)] }

theorem check_acceptance_real_iff_alternating :
    (checkAcceptance alternating onceA (alternating.modelCheckEvents (onceA.trace true) {}).1 ['1', ','] true =
          .error .counterexample →
        RealLasso alternating onceA true (alternating.modelCheckEvents (onceA.trace true) {}).1) ↔
      RealLasso alternating onceA true (alternating.modelCheckEvents (onceA.trace true) {}).1 ∨
      (∀ loc, ¬ AcceptingAt (alternating.modelCheckEvents (onceA.trace true) {}).1 loc) ∨
      ∃ q, LastState alternating (alternating.modelCheckEvents (onceA.trace true) {}).1 q ∧
        loopCubes alternating q ≠ [] ∧
        ∀ loc i, AcceptingAt (alternating.modelCheckEvents (onceA.trace true) {}).1 loc →
          CoveredRepeat onceA true (loopCubes alternating q) loc i →
          (alternating.modelCheckEvents (onceA.trace true) {}).1[loc]? = some (alternating.entry q) ∧
            alternating.PlainNames :=
  check_acceptance_real_iff alternating onceA true {} ['1', ','] [] rfl rfl

/-- One event with one program state is reported, though nothing was repeated. -/
theorem check_acceptance_unreal_alternating :
    onceA.Recorded true ∧
      extractPrefixAutomataPath onceA (alternating.modelCheckEvents (onceA.trace true) {}).1 true =
        .ok (['1', ','], []) ∧
      checkAcceptance alternating onceA (alternating.modelCheckEvents (onceA.trace true) {}).1 ['1', ','] true =
        .error .counterexample ∧
      ¬ RealLasso alternating onceA true (alternating.modelCheckEvents (onceA.trace true) {}).1 := by
  refine ⟨rfl, rfl, rfl, ?_⟩
  rintro ⟨loc, fin, _, hlt, hfin, _⟩
  have hfin : fin < 1 := hfin
  omega

/-- A witnessed repeat is reported exactly when the last state has no self-loop, or one
cube of it covers the window of some repeat. -/
theorem check_acceptance_reports_iff (A : TwaGraph) (b : CodeBean) (st : Statics) (aPath pfx : Str)
    (hb : b.Recorded true)
    (hx : extractPrefixAutomataPath b (A.modelCheckEvents b.traceProtocol st).1 true = .ok (aPath, pfx)) :
    (Witnessed A b (A.modelCheckEvents b.traceProtocol st).1 →
        checkAcceptance A b (A.modelCheckEvents b.traceProtocol st).1 aPath true = .error .counterexample) ↔
      ¬ Witnessed A b (A.modelCheckEvents b.traceProtocol st).1 ∨
      ∃ q, LastState A (A.modelCheckEvents b.traceProtocol st).1 q ∧
        (loopCubes A q = [] ∨ ∃ loc i, AcceptingAt (A.modelCheckEvents b.traceProtocol st).1 loc ∧
          CoveredRepeat b true (loopCubes A q) loc i) := by
  have hstops := (checkAcceptance_stops hb hx).error_iff
  simp only [CodeBean.trace, if_true] at hstops
  rw [hstops, ← imp_iff_not_or]
  refine imp_congr_right fun hw => ?_
  constructor
  · rintro ⟨loc, hloc, q, hq, hc | ⟨i, hi⟩⟩
    · exact ⟨q, hq, .inl hc⟩
    · exact ⟨q, hq, .inr ⟨loc, i, hloc, hi⟩⟩
  · rintro ⟨q, hq, hc | ⟨loc, i, hloc, hi⟩⟩
    · obtain ⟨loc, _, q', _, hm, _, hacc, _⟩ := hw
      exact ⟨loc, ⟨A.entry q', hm, hacc⟩, q, hq, .inl hc⟩
    · exact ⟨loc, hloc, q, hq, .inr ⟨i, hi⟩⟩

/-- The events a, b, a in program states 0, 1, 0. -/
def aroundB : CodeBean where
  traceProtocol := [['a'], ['b'], ['a']]
  stateVector := [0, 1, 0]
  propLocVec := [(['a'], 0), (['b'], 0), (['a'], 0)]

theorem check_acceptance_reports_iff_recurrent :
    (Witnessed recurrent aroundB (recurrent.modelCheckEvents aroundB.traceProtocol {}).1 →
        checkAcceptance recurrent aroundB (recurrent.modelCheckEvents aroundB.traceProtocol {}).1
          ['0', ',', '1', ',', '0', ','] true = .error .counterexample) ↔
      ¬ Witnessed recurrent aroundB (recurrent.modelCheckEvents aroundB.traceProtocol {}).1 ∨
      ∃ q, LastState recurrent (recurrent.modelCheckEvents aroundB.traceProtocol {}).1 q ∧
        (loopCubes recurrent q = [] ∨
          ∃ loc i, AcceptingAt (recurrent.modelCheckEvents aroundB.traceProtocol {}).1 loc ∧
            CoveredRepeat aroundB true (loopCubes recurrent q) loc i) :=
  check_acceptance_reports_iff recurrent aroundB {} ['0', ',', '1', ',', '0', ','] [] rfl rfl

/-- The repeat around b is witnessed and not reported: the self-loop cannot read b. -/
theorem check_acceptance_silent_recurrent :
    aroundB.Recorded true ∧ Witnessed recurrent aroundB (recurrent.modelCheckEvents aroundB.traceProtocol {}).1 ∧
      (∀ m ∈ (recurrent.modelCheckEvents aroundB.traceProtocol {}).1, m.state ≠ -1) ∧
      extractPrefixAutomataPath aroundB (recurrent.modelCheckEvents aroundB.traceProtocol {}).1 true =
        .ok (['0', ',', '1', ',', '0', ','], []) ∧
      checkAcceptance recurrent aroundB (recurrent.modelCheckEvents aroundB.traceProtocol {}).1
        ['0', ',', '1', ',', '0', ','] true = .ok () :=
  ⟨rfl, ⟨0, 2, (0 : Fin 2), by decide, rfl, rfl, rfl, rfl⟩, by decide, rfl, rfl⟩

end LtlFuzzer.Instrumentation
