import LtlFuzzer.Automata.GreedyAcceptance
import LtlFuzzer.Foundation.Delimiters
import Std.Data.TreeMap.Lemmas

/-! Evaluating a submitted trace against the automata of a session. -/
namespace LtlFuzzer.Service
open Foundation Automata

/-- What a successful set_formula leaves behind. The library drops every edge whose
guard becomes false. -/
structure SessionAutomaton where
  graph : TwaGraph
  formula : Str
  nonFalse : graph.NonFalse

abbrev Storage := Std.TreeMap Str (List SessionAutomaton)

inductive StatusCode where
  | ok
  | invalidArgument
  deriving DecidableEq, Repr

structure Status where
  code : StatusCode
  message : Str
  deriving DecidableEq, Repr

structure TraceInput where
  trace : Str
  uuid : Str

structure CheckResult where
  satisfied : Bool
  violations : List Str
  deriving DecidableEq, Repr

/-- The events of a trace, as getline cuts them off at commas. -/
def traceEvents (trace : Str) : List Str := Delimiters.getlines ',' trace

/-- One automaton's verdict on its states; none stands for back() of an empty vector. -/
def verdict (states : List MCState) : Option Bool :=
  let seenAccepting := states.any MCState.acceptance
  match states.getLast? with
  | none => none
  | some last => some (if last.state = -1 then false else seenAccepting && last.acceptance)

def violation (a : SessionAutomaton) : Str := a.formula ++ [',', ' ']

/-- The loop over the session's automata. -/
def checkSession (events : List Str) :
    List SessionAutomaton → CheckResult → Statics → Option (CheckResult × Statics)
  | [], result, st => some (result, st)
  | a :: as, result, st =>
    let checked := a.graph.modelCheckEvents events st
    match verdict checked.1 with
    | none => none
    | some accepted =>
      checkSession events as
        (if accepted then ⟨true, result.violations ++ [violation a]⟩ else result) checked.2

/-- The status and reply, or none where the code reads past an empty list. -/
def submitTrace (storage : Storage) (request : TraceInput) (st : Statics) :
    Option ((Status × CheckResult) × Statics) :=
  match storage[request.uuid]? with
  | none => some ((⟨.invalidArgument, "UUID Not found".toList⟩, ⟨false, []⟩), st)
  | some session =>
    (checkSession (traceEvents request.trace) session ⟨false, []⟩ st).map fun r =>
      ((⟨.ok, []⟩, r.1), r.2)

/-- The reply reports the automaton's property as violated. -/
def Reports (result : CheckResult) (a : SessionAutomaton) : Prop :=
  result.satisfied = true ∧ violation a ∈ result.violations

private theorem verdict_eq {a : SessionAutomaton} {events : List Str} (hne : events ≠ []) (st : Statics) :
    ∃ b, verdict (a.graph.modelCheckEvents events st).1 = some b ∧
      (b = true ↔ a.graph.PreferredAccepts a.graph.initState events) := by
  rw [TwaGraph.modelCheckEvents_eq_follow a.nonFalse]
  obtain ⟨m, hm, hacc, hdead⟩ := TwaGraph.follow_getLast (A := a.graph) a.graph.initState hne
  refine ⟨if m.state = -1 then false
    else (a.graph.follow a.graph.initState events).any MCState.acceptance && m.acceptance,
    by simp only [verdict, hm], ?_⟩
  have hseen : m.acceptance = true → (a.graph.follow a.graph.initState events).any MCState.acceptance = true :=
    fun h => List.any_eq_true.mpr ⟨m, List.mem_of_getLast? hm, h⟩
  by_cases h1 : m.state = -1
  · simp [h1, ← hacc, hdead h1]
  · simp only [h1, if_false, Bool.and_eq_true, ← hacc]
    exact ⟨And.right, fun h => ⟨hseen h, h⟩⟩

/-- A session's reply lists exactly the automata whose preferred run accepts. -/
theorem checkSession_spec {events : List Str} (hne : events ≠ []) (session : List SessionAutomaton)
    (result : CheckResult) (st : Statics) :
    ∃ r st', checkSession events session result st = some (r, st') ∧
      (∀ f, f ∈ r.violations ↔ f ∈ result.violations ∨
        ∃ a ∈ session, a.graph.PreferredAccepts a.graph.initState events ∧ violation a = f) ∧
      (r.satisfied = true ↔ result.satisfied = true ∨
        ∃ a ∈ session, a.graph.PreferredAccepts a.graph.initState events) := by
  induction session generalizing result st with
  | nil => exact ⟨result, st, rfl, by simp, by simp⟩
  | cons a as ih =>
    obtain ⟨b, hv, hb⟩ := verdict_eq (a := a) hne st
    obtain ⟨r, st', hr, hviol, hsat⟩ := ih (if b then ⟨true, result.violations ++ [violation a]⟩ else result)
      (a.graph.modelCheckEvents events st).2
    refine ⟨r, st', by simp only [checkSession, hv, hr], fun f => ?_, ?_⟩
    · rw [hviol]
      cases b with
      | false => simp [← hb]
      | true => simp [← hb, or_assoc, eq_comm]
    · rw [hsat]
      cases b with
      | false => simp [← hb]
      | true => simp [← hb]

/-- No violation is missed on a trace exactly when, for each automaton with an accepting
path, some automaton of the same formula accepts and is never led astray by the
edge the checker prefers. -/
theorem submit_trace_misses_nothing_iff (storage : Storage) (request : TraceInput)
    (session : List SessionAutomaton) (st : Statics) (hs : storage[request.uuid]? = some session)
    (hne : traceEvents request.trace ≠ []) :
    ∃ reply st', submitTrace storage request st = some (reply, st') ∧
      ((∀ a ∈ session, a.graph.Accepts a.graph.initState (traceEvents request.trace) →
          Reports reply.2 a) ↔
        ∀ a ∈ session, a.graph.Accepts a.graph.initState (traceEvents request.trace) →
          ∃ b ∈ session, b.formula = a.formula ∧
            b.graph.Accepts b.graph.initState (traceEvents request.trace) ∧
            b.graph.KeepsAlive b.graph.initState (traceEvents request.trace)) := by
  obtain ⟨r, st', hr, hviol, hsat⟩ := checkSession_spec hne session ⟨false, []⟩ st
  refine ⟨(⟨.ok, []⟩, r), st', by simp [submitTrace, hs, hr], ?_⟩
  refine forall₂_congr fun a _ => imp_congr_right fun _ => ?_
  have heq (b : SessionAutomaton) : violation b = violation a ↔ b.formula = a.formula := by
    simp [violation]
  simp only [Reports, hviol, hsat, heq, ← TwaGraph.preferredAccepts_iff]
  constructor
  · rintro ⟨_, h | ⟨b, hb, hp, hf⟩⟩
    · cases h
    · exact ⟨b, hb, hf, hp⟩
  · rintro ⟨b, hb, hf, hp⟩
    exact ⟨.inr ⟨b, hb, hp⟩, .inr ⟨b, hb, hp, hf⟩⟩

/-- The session of F(a | b). -/
def eitherSession : List SessionAutomaton :=
  [⟨eitherGraph, "F(a | b)".toList, eitherGraph_nonFalse⟩]

def eitherStorage : Storage := (∅ : Storage).insert ['7'] eitherSession

/-- The trace b satisfies F(a | b), yet the reply reports nothing. -/
theorem submit_trace_misses_either :
    eitherGraph.Accepts eitherGraph.initState (traceEvents ['b']) ∧
      (submitTrace eitherStorage ⟨['b'], ['7']⟩ {}).map Prod.fst = some (⟨.ok, []⟩, ⟨false, []⟩) := by
  refine ⟨?_, by decide⟩
  have he : traceEvents ['b'] = [['b']] := by decide
  rw [he, TwaGraph.accepts_cons]
  refine ⟨(1 : Fin 2), ?_, TwaGraph.accepts_nil.mpr rfl⟩
  exact ⟨⟨(1 : Fin 2), either⟩, .tail _ (.head _), rfl, by decide⟩

theorem submit_trace_misses_nothing_iff_either :
    ∃ reply st', submitTrace eitherStorage ⟨['c', ',', 'a'], ['7']⟩ {} = some (reply, st') ∧
      ((∀ a ∈ eitherSession, a.graph.Accepts a.graph.initState (traceEvents ['c', ',', 'a']) →
          Reports reply.2 a) ↔
        ∀ a ∈ eitherSession, a.graph.Accepts a.graph.initState (traceEvents ['c', ',', 'a']) →
          ∃ b ∈ eitherSession, b.formula = a.formula ∧
            b.graph.Accepts b.graph.initState (traceEvents ['c', ',', 'a']) ∧
            b.graph.KeepsAlive b.graph.initState (traceEvents ['c', ',', 'a'])) :=
  submit_trace_misses_nothing_iff eitherStorage ⟨['c', ',', 'a'], ['7']⟩ eitherSession {}
    (by simp [eitherStorage]) (by decide)

/-- A status comes back, and an OK reply is satisfied exactly when it lists violations. -/
def GetsVerdict (storage : Storage) (request : TraceInput) (st : Statics) : Prop :=
  ∃ reply st', submitTrace storage request st = some (reply, st') ∧
    (reply.1.code = .ok → (reply.2.satisfied = true ↔ reply.2.violations ≠ []))

private theorem satisfied_iff_violations {events : List Str} (hne : events ≠ []) (session : List SessionAutomaton) (st : Statics) :
    ∃ r st', checkSession events session ⟨false, []⟩ st = some (r, st') ∧ (r.satisfied = true ↔ r.violations ≠ []) := by
  obtain ⟨r, st', hr, hviol, hsat⟩ := checkSession_spec hne session ⟨false, []⟩ st
  refine ⟨r, st', hr, ?_⟩
  rw [hsat]
  constructor
  · rintro (h | ⟨a, ha, haccepts⟩)
    · cases h
    · exact List.ne_nil_of_mem ((hviol (violation a)).mpr (.inr ⟨a, ha, haccepts, rfl⟩))
  · intro hviolations
    obtain ⟨f, hf⟩ := List.exists_mem_of_ne_nil _ hviolations
    rcases (hviol f).mp hf with h | ⟨a, ha, haccepts, -⟩
    · cases h
    · exact .inr ⟨a, ha, haccepts⟩

/-- Without events the first automaton leaves no states to look at. -/
private theorem checkSession_no_events (a : SessionAutomaton) (as : List SessionAutomaton) (result : CheckResult) (st : Statics) :
    checkSession [] (a :: as) result st = none := by
  have hstates : (a.graph.modelCheckEvents [] st).1 = [] := rfl
  rw [checkSession, hstates]
  rfl

/-- A submitted trace gets a verdict exactly when it is not the empty text, or the session
has no automata. -/
theorem gets_verdict_iff {storage : Storage} {uuid : Str} {session : List SessionAutomaton}
    (h : storage[uuid]? = some session) (trace : Str) (st : Statics) :
    GetsVerdict storage ⟨trace, uuid⟩ st ↔ trace ≠ [] ∨ session = [] := by
  have hsubmit : submitTrace storage ⟨trace, uuid⟩ st = (checkSession (traceEvents trace) session ⟨false, []⟩ st).map
      fun r => ((⟨.ok, []⟩, r.1), r.2) := by
    rw [submitTrace, h]
  rw [GetsVerdict, hsubmit]
  constructor
  · rintro ⟨reply, st', hreply, -⟩
    by_contra hno
    obtain ⟨htrace, hsession⟩ := not_or.mp hno
    obtain ⟨a, as, rfl⟩ := List.exists_cons_of_ne_nil hsession
    have hevents : traceEvents trace = [] := by
      rw [not_not.mp htrace]
      rfl
    rw [hevents, checkSession_no_events] at hreply
    cases hreply
  · rintro (htrace | rfl)
    · obtain ⟨r, st', hr, hviol⟩ := satisfied_iff_violations (Delimiters.getlines_ne_nil htrace) session st
      have hr' : checkSession (traceEvents trace) session ⟨false, []⟩ st = some (r, st') := hr
      rw [hr']
      exact ⟨_, st', rfl, fun _ => hviol⟩
    · exact ⟨_, st, rfl, fun _ => by simp⟩

/-- The empty trace reads past the end for a session with an automaton. -/
theorem no_verdict_either : submitTrace eitherStorage ⟨[], ['7']⟩ {} = none ∧ ¬ GetsVerdict eitherStorage ⟨[], ['7']⟩ {} := by
  have hnone : submitTrace eitherStorage ⟨[], ['7']⟩ {} = none := by decide
  refine ⟨hnone, ?_⟩
  rintro ⟨reply, st', hreply, -⟩
  rw [hnone] at hreply
  cases hreply

theorem gets_verdict_iff_either :
    GetsVerdict eitherStorage ⟨[','], ['7']⟩ {} ↔ [','] ≠ [] ∨ eitherSession = [] :=
  gets_verdict_iff (by simp [eitherStorage]) [','] {}

end LtlFuzzer.Service
