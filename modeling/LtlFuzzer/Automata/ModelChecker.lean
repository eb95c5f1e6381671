import LtlFuzzer.Automata.GuardTests
import Mathlib.Data.Fin.VecNotation

/-! Checking a list of events against a graph: one run, chosen edge by edge. -/
namespace LtlFuzzer.Automata
open Foundation

structure MCState where
  state : Int
  distance : Int
  acceptance : Bool
  deriving DecidableEq, Repr

/-- Reported when no edge of the current state is taken. -/
def deadEnd : MCState := ⟨-1, 0, false⟩

namespace TwaGraph

def entry (A : TwaGraph) (s : Fin A.numStates) : MCState := ⟨s.val, 0, A.accepting s⟩

theorem entry_state_ne (A : TwaGraph) (s : Fin A.numStates) : (A.entry s).state ≠ -1 := by
  simp only [entry]
  omega

/-- The loop over one state's edges. A TRUE guard moves on provisionally and keeps
looking; the first other guard that passes its test ends the loop. -/
def tryEdges (A : TwaGraph) (bddMap : Dict) (e : Str) :
    List (Edge A.numStates) → Option (Fin A.numStates) → Statics → Option (Fin A.numStates) × Statics
  | [], moved, st => (moved, st)
  | t :: ts, moved, st =>
    let isTrue := isTrueCond A.bddvarnum t.cond st
    if isTrue.1 then A.tryEdges bddMap e ts (some t.dst) isTrue.2
    else
      let sat := checkCond A.bddvarnum bddMap t.cond ((∅ : StrSet).insert e) isTrue.2
      if sat.1 then (some t.dst, sat.2) else A.tryEdges bddMap e ts moved sat.2

/-- The loop over the events, from a current state. -/
def checkFrom (A : TwaGraph) (bddMap : Dict) :
    Fin A.numStates → List Str → Statics → List MCState × Statics
  | _, [], st => ([], st)
  | s, e :: es, st =>
    match A.tryEdges bddMap e (A.out s) none st with
    | (some s', st) =>
      let rest := A.checkFrom bddMap s' es st
      (A.entry s' :: rest.1, rest.2)
    | (none, st) => ([deadEnd], st)

def modelCheckEvents (A : TwaGraph) (events : List Str) (st : Statics) : List MCState × Statics :=
  A.checkFrom A.dict A.initState events st

def trueGuard {n : Nat} (t : Edge n) : Bool := t.cond.diagram = .one

def lastCubePasses (A : TwaGraph) (e : Str) (t : Edge A.numStates) : Bool :=
  t.cond.diagram ≠ .one ∧ A.LastCubeSat t.cond (exactly e)

/-- The first edge whose guard is not TRUE and whose last cube holds, else the last TRUE one. -/
def preferredAmong (A : TwaGraph) (e : Str) (ts : List (Edge A.numStates)) : Option (Edge A.numStates) :=
  (ts.find? (A.lastCubePasses e)).or (ts.filter trueGuard).getLast?

def preferred (A : TwaGraph) (q : Fin A.numStates) (e : Str) : Option (Fin A.numStates) :=
  (A.preferredAmong e (A.out q)).map Edge.dst

/-- The run along preferred edges. -/
def follow (A : TwaGraph) : Fin A.numStates → List Str → List MCState
  | _, [] => []
  | q, e :: es => match A.preferred q e with
    | some s => A.entry s :: A.follow s es
    | none => [deadEnd]

theorem follow_of_preferred {A : TwaGraph} {q s : Fin A.numStates} {e : Str} (h : A.preferred q e = some s)
    (es : List Str) : A.follow q (e :: es) = A.entry s :: A.follow s es := by
  rw [follow, h]

theorem follow_of_none {A : TwaGraph} {q : Fin A.numStates} {e : Str} (h : A.preferred q e = none)
    (es : List Str) : A.follow q (e :: es) = [deadEnd] := by
  rw [follow, h]

private theorem mem_singleton_event (e a : Str) : (decide (a ∈ (∅ : StrSet).insert e)) = exactly e a := by
  simp [exactly, eq_comm]

/-- One state's loop, from any provisional successor and any result cells. -/
theorem tryEdges_eq {A : TwaGraph} (hA : A.NonFalse) {q : Fin A.numStates} (e : Str)
    (ts : List (Edge A.numStates)) (hts : ts ⊆ A.out q) (moved : Option (Fin A.numStates)) (st : Statics) :
    (A.tryEdges A.dict e ts moved st).1 = ((A.preferredAmong e ts).map Edge.dst).or moved := by
  induction ts generalizing moved st with
  | nil => rfl
  | cons t ts ih =>
    have ht : t ∈ A.out q := hts List.mem_cons_self
    have hts' : ts ⊆ A.out q := fun _ h => hts (List.mem_cons_of_mem t h)
    have h0 := hA q t ht
    simp only [tryEdges]
    by_cases h1 : t.cond.diagram = .one
    · rw [if_pos ((isTrueCond_iff ht h0 st).mpr h1), ih hts']
      have hpass : A.lastCubePasses e t = false := by simp [lastCubePasses, h1]
      have htrue : trueGuard t = true := by simp [trueGuard, h1]
      rw [preferredAmong, preferredAmong, List.find?_cons_of_neg (by simp [hpass]),
        List.filter_cons_of_pos htrue, List.getLast?_cons]
      cases ts.find? (A.lastCubePasses e) <;> cases (ts.filter trueGuard).getLast? <;> rfl
    · rw [if_neg (fun h => h1 ((isTrueCond_iff ht h0 st).mp h))]
      have hc := checkCond_iff ht h0 ((∅ : StrSet).insert e) (isTrueCond A.bddvarnum t.cond st).2
      simp only [mem_singleton_event] at hc
      have htrue : trueGuard t = false := by simp [trueGuard, h1]
      by_cases h2 : A.LastCubeSat t.cond (exactly e)
      · have hpass : A.lastCubePasses e t = true := by simp [lastCubePasses, h1, h2]
        rw [if_pos (hc.mpr h2), preferredAmong, List.find?_cons_of_pos hpass]
        rfl
      · have hpass : A.lastCubePasses e t = false := by simp [lastCubePasses, h2]
        rw [if_neg (fun h => h2 (hc.mp h)), ih hts', preferredAmong, preferredAmong,
          List.find?_cons_of_neg (by simp [hpass]), List.filter_cons_of_neg (by simp [htrue])]

/-- Without false guards the checker follows preferred edges, whatever ran before it. -/
theorem checkFrom_eq_follow {A : TwaGraph} (hA : A.NonFalse) (q : Fin A.numStates) (es : List Str)
    (st : Statics) : (A.checkFrom A.dict q es st).1 = A.follow q es := by
  induction es generalizing q st with
  | nil => rfl
  | cons e es ih =>
    have he := tryEdges_eq hA e (A.out q) (List.Subset.refl _) none st
    rw [Option.or_none] at he
    simp only [checkFrom, follow, preferred, ← he]
    generalize A.tryEdges A.dict e (A.out q) none st = r
    obtain ⟨_ | s, st'⟩ := r
    · rfl
    · simp only [ih]

theorem modelCheckEvents_eq_follow {A : TwaGraph} (hA : A.NonFalse) (es : List Str) (st : Statics) :
    (A.modelCheckEvents es st).1 = A.follow A.initState es :=
  checkFrom_eq_follow hA A.initState es st

/-- The shape of every reported list, false guards or not. -/
theorem checkFrom_shape (A : TwaGraph) (bddMap : Dict) (q : Fin A.numStates) (es : List Str) (st : Statics) :
    ∃ (ss : List (Fin A.numStates)) (dead : Bool),
      (A.checkFrom bddMap q es st).1 = ss.map A.entry ++ (if dead then [deadEnd] else []) ∧
      (A.checkFrom bddMap q es st).1.length ≤ es.length := by
  induction es generalizing q st with
  | nil => exact ⟨[], false, rfl, by simp [checkFrom]⟩
  | cons e es ih =>
    unfold checkFrom
    rcases A.tryEdges bddMap e (A.out q) none st with ⟨_ | s, st'⟩
    · exact ⟨[], true, rfl, by simp⟩
    · obtain ⟨ss, dead, he, hle⟩ := ih s st'
      exact ⟨s :: ss, dead, by simp [he], by simpa using hle⟩

private theorem sat_of_one {A : TwaGraph} {g : Robdd Nat} (h : g.diagram = .one) (ν : Str → Bool) :
    A.Sat g ν := by
  simp [Sat, h, Bdd.eval]

/-- A preferred edge can read the event. -/
theorem preferred_step {A : TwaGraph} {q s : Fin A.numStates} {e : Str} (h : A.preferred q e = some s) :
    s ∈ A.nfa.step q e := by
  obtain ⟨t, ht, rfl⟩ := Option.map_eq_some_iff.mp h
  rw [preferredAmong, Option.or_eq_some_iff] at ht
  rcases ht with hf | ⟨_, hl⟩
  · have hp := List.find?_some hf
    exact ⟨t, List.mem_of_find?_eq_some hf, rfl, (of_decide_eq_true hp).2.sat⟩
  · obtain ⟨hm, h1⟩ := List.mem_filter.mp (List.mem_of_getLast? hl)
    exact ⟨t, hm, rfl, sat_of_one (of_decide_eq_true h1) _⟩

/-- The shape of a followed run: genuine states, then at most one dead end. -/
theorem follow_shape (A : TwaGraph) (q : Fin A.numStates) (es : List Str) :
    ∃ (ss : List (Fin A.numStates)) (dead : Bool),
      A.follow q es = ss.map A.entry ++ (if dead then [deadEnd] else []) ∧
      (dead = false → ss.length = es.length) ∧ (A.follow q es).length ≤ es.length ∧
      A.Visits q (es.take ss.length) ss := by
  induction es generalizing q with
  | nil => exact ⟨[], false, rfl, by simp, by simp [follow], trivial⟩
  | cons e es ih =>
    cases hp : A.preferred q e with
    | none =>
      rw [follow_of_none hp]
      exact ⟨[], true, rfl, by simp, by simp, trivial⟩
    | some s =>
      rw [follow_of_preferred hp]
      obtain ⟨ss, dead, he, hlen, hle, hv⟩ := ih s
      refine ⟨s :: ss, dead, by simp [he], fun hd => by simp [hlen hd], ?_, ?_⟩
      · simpa using hle
      · exact ⟨preferred_step hp, hv⟩

/-- Every reported list is a genuine run, cut short by at most one final dead end.
Guards labelled false are excluded, since a test of one reads an older result. -/
theorem model_check_events_genuine (A : TwaGraph) (hA : A.NonFalse) (events : List Str) (st : Statics) :
    ∃ (ss : List (Fin A.numStates)) (dead : Bool),
      (A.modelCheckEvents events st).1 = ss.map A.entry ++ (if dead then [deadEnd] else []) ∧
      (∀ m ∈ ss.map A.entry, m.state ≠ -1) ∧
      (dead = false → ss.length = events.length) ∧
      (A.modelCheckEvents events st).1.length ≤ events.length ∧
      A.Visits A.initState (events.take ss.length) ss := by
  obtain ⟨ss, dead, he, hlen, hle, hv⟩ := A.follow_shape A.initState events
  rw [modelCheckEvents_eq_follow hA]
  refine ⟨ss, dead, he, ?_, hlen, hle, hv⟩
  intro m hm
  obtain ⟨s, _, rfl⟩ := List.mem_map.mp hm
  exact A.entry_state_ne s

end TwaGraph

/-- The guard a | b over variables 0 and 1. -/
def either : Robdd Nat :=
  ⟨.node 0 (.node 1 .zero .one) .one, ⟨id, by simp [Bdd.OrderedFrom]⟩, by simp [Bdd.Reduced]⟩

/-- The guard !a & !b over variables 0 and 1. -/
def neither : Robdd Nat :=
  ⟨.node 0 (.node 1 .one .zero) .zero, ⟨id, by simp [Bdd.OrderedFrom]⟩, by simp [Bdd.Reduced]⟩

def dictAB : Dict := { varMap := [(['a'], 0), (['b'], 1)] }

/-- The graph of F(a | b). -/
def eitherGraph : TwaGraph where
  numStates := 2
  initState := 0
  out := ![[⟨0, neither⟩, ⟨1, either⟩], [⟨1, .one⟩]]
  accepting := ![false, true]
  dict := dictAB
  bddvarnum := 2

theorem eitherGraph_nonFalse : eitherGraph.NonFalse := by
  unfold TwaGraph.NonFalse
  decide

theorem model_check_events_genuine_either :
    eitherGraph.NonFalse ∧ ∃ (ss : List (Fin 2)) (dead : Bool),
      (eitherGraph.modelCheckEvents [['c'], ['a'], ['b']] {}).1 =
        ss.map eitherGraph.entry ++ (if dead then [deadEnd] else []) ∧
      (∀ m ∈ ss.map eitherGraph.entry, m.state ≠ -1) ∧
      (dead = false → ss.length = 3) ∧
      (eitherGraph.modelCheckEvents [['c'], ['a'], ['b']] {}).1.length ≤ 3 ∧
      eitherGraph.Visits (0 : Fin 2) ([['c'], ['a'], ['b']].take ss.length) ss :=
  ⟨eitherGraph_nonFalse,
    TwaGraph.model_check_events_genuine eitherGraph eitherGraph_nonFalse [['c'], ['a'], ['b']] {}⟩

/-- The last cube of a | b is a, so an event b meets no edge. -/
example : (eitherGraph.modelCheckEvents [['c'], ['b'], ['a']] {}).1 = [⟨0, 0, false⟩, deadEnd] := by decide

def dictA : Dict := { varMap := [(['a'], 0)] }

/-- The graph of GFa. -/
def recurrent : TwaGraph where
  numStates := 2
  initState := 0
  out := ![[⟨0, .var 0⟩, ⟨1, .negVar 0⟩], [⟨0, .var 0⟩, ⟨1, .negVar 0⟩]]
  accepting := ![true, false]
  dict := dictA
  bddvarnum := 1

theorem recurrent_nonFalse : recurrent.NonFalse := by
  unfold TwaGraph.NonFalse
  decide

end LtlFuzzer.Automata

namespace LtlFuzzer.Instrumentation
open Automata

/-- The graph of a & G(a xor Xa): both states accept, neither has a self-loop. -/
def alternating : TwaGraph where
  numStates := 2
  initState := 0
  out := ![[⟨1, .var 0⟩], [⟨0, .negVar 0⟩]]
  accepting := ![true, true]
  dict := dictA
  bddvarnum := 1

/-- The graph of F oinvalid. -/
def reachesInvalid : TwaGraph where
  numStates := 2
  initState := 0
  out := ![[⟨0, .negVar 0⟩, ⟨1, .var 0⟩], [⟨1, .one⟩]]
  accepting := ![false, true]
  dict := { varMap := [("oinvalid".toList, 0)] }
  bddvarnum := 1

theorem reachesInvalid_nonFalse : reachesInvalid.NonFalse := by
  unfold TwaGraph.NonFalse
  decide

end LtlFuzzer.Instrumentation
