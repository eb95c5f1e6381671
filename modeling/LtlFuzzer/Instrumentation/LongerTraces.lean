import LtlFuzzer.Instrumentation.ProtocolPrefix
import Mathlib.Data.List.Infix

/-! Evaluating a protocol trace again after more calls: what was reported stays. -/
namespace LtlFuzzer.Automata.TwaGraph
variable {A : TwaGraph}

theorem follow_isPrefix (q : Fin A.numStates) (es fs : List Str) : A.follow q es <+: A.follow q (es ++ fs) := by
  induction es generalizing q with
  | nil => exact List.nil_prefix
  | cons e es ih =>
    cases hs : A.preferred q e with
    | none => rw [List.cons_append, follow_of_none hs, follow_of_none hs]
    | some s =>
      rw [List.cons_append, follow_of_preferred hs, follow_of_preferred hs]
      exact (List.prefix_cons_inj _).mpr (ih s)

/-- No event is read after a dead end. -/
theorem follow_of_dead (q : Fin A.numStates) (es fs : List Str) {m : MCState}
    (hlast : (A.follow q es).getLast? = some m) (hm : m.state = -1) : A.follow q (es ++ fs) = A.follow q es := by
  induction es generalizing q with
  | nil => cases hlast
  | cons e es ih =>
    cases hs : A.preferred q e with
    | none => rw [List.cons_append, follow_of_none hs, follow_of_none hs]
    | some s =>
      rw [follow_of_preferred hs, List.getLast?_cons, Option.some_inj] at hlast
      rw [List.cons_append, follow_of_preferred hs, follow_of_preferred hs]
      cases hr : (A.follow s es).getLast? with
      | none =>
        rw [hr, Option.getD_none] at hlast
        exact absurd (hlast ▸ hm) (A.entry_state_ne s)
      | some m' =>
        rw [hr, Option.getD_some] at hlast
        rw [ih s (hr.trans (congrArg some hlast))]

end LtlFuzzer.Automata.TwaGraph

namespace LtlFuzzer.Instrumentation
open Foundation Faults Automata Delimiters

private theorem genuine_prefix {states states' : List MCState} (h : states <+: states') :
    genuine states <+: genuine states' := by
  obtain ⟨more, rfl⟩ := h
  apply List.IsPrefix.map
  induction states with
  | nil => exact List.nil_prefix
  | cons m ms ih =>
    rw [List.cons_append, List.takeWhile_cons, List.takeWhile_cons]
    split
    · exact (List.prefix_cons_inj m).mpr ih
    · exact List.prefix_rfl

theorem changePoints_append (cur : Int) (i : Nat) (ss tt : List Int) :
    changePoints cur i (ss ++ tt) = changePoints cur i ss ++ changePoints (ss.getLastD cur) (i + ss.length) tt := by
  induction ss generalizing cur i with
  | nil => rfl
  | cons s ss ih =>
    have hlen : i + 1 + ss.length = i + (s :: ss).length := by
      rw [List.length_cons]
      omega
    rw [List.cons_append, changePoints, changePoints, ih, ih, List.getLastD_cons, hlen]
    split_ifs with h
    · rw [h]
    · rfl

private theorem changePoints_isPrefix {states states' : List MCState} (h : states <+: states') :
    changePoints (-2) 0 (genuine states) <+: changePoints (-2) 0 (genuine states') := by
  obtain ⟨more, hmore⟩ := genuine_prefix h
  rw [← hmore, changePoints_append]
  exact List.prefix_append _ _

theorem terminated_prefix (mark : Str) {rs rs' : List Str} (h : rs <+: rs') :
    terminated mark rs <+: terminated mark rs' := by
  obtain ⟨more, rfl⟩ := h
  rw [terminated_append]
  exact List.prefix_append _ _

private theorem automataPath_prefix {states states' : List MCState} (h : states <+: states') :
    automataPath states <+: automataPath states' :=
  terminated_prefix _ ((changePoints_isPrefix h).map _)

/-- The last change only moves on. -/
private theorem lastChange_le {states states' : List MCState} (h : states <+: states') {k : Nat}
    (hk : lastChange states = some k) : ∃ k', lastChange states' = some k' ∧ k ≤ k' := by
  obtain ⟨p, hp, rfl⟩ := Option.map_eq_some_iff.mp hk
  have hmem := (changePoints_isPrefix h).subset (List.mem_of_getLast? hp)
  obtain ⟨p', hp'⟩ := Option.ne_none_iff_exists'.mp
    (mt List.getLast?_eq_none_iff.mp (List.ne_nil_of_mem hmem))
  refine ⟨p'.1, by rw [lastChange, hp', Option.map_some], ?_⟩
  have hsorted := changePoints_sorted (-2) 0 (genuine states')
  rw [← List.dropLast_append_getLast? p' hp', List.pairwise_append] at hsorted
  rw [← List.dropLast_append_getLast? p' hp', List.mem_append, List.mem_singleton] at hmem
  rcases hmem with hmem | rfl
  · exact (hsorted.2.2 p hmem p' (List.mem_singleton.mpr rfl)).le
  · exact le_rfl

private theorem inputsBefore_mono (calls : List Call) {k k' : Nat} (h : k ≤ k') :
    inputsBefore calls k <+: inputsBefore calls k' := by
  induction calls generalizing k k' with
  | nil => exact List.prefix_rfl
  | cons c cs ih =>
    cases c with
    | inputHandler m => exact (List.prefix_cons_inj m).mpr (ih h)
    | propositionHandler p =>
      cases k with
      | zero => exact List.nil_prefix
      | succ k =>
        obtain ⟨k', rfl⟩ : ∃ j, k' = j + 1 := ⟨k' - 1, by omega⟩
        exact ih (by omega)

/-- Without any change nothing is stored. -/
private theorem extract_unchanged {b : CodeBean} {states : List MCState} (h : automataPath states = []) :
    extractPrefixAutomataPath b states true = .ok ([], []) := by
  have hcur : ({} : Cursor).curState = -2 := rfl
  rw [extractPrefixAutomataPath, extractLoop_eq, hcur, automataPath_eq_nil_iff.mp h]
  rfl

def Call.proposition : Call → Option Str
  | .inputHandler _ => none
  | .propositionHandler prop => some prop

theorem traceProtocol_recordCalls (calls : List Call) :
    (recordCalls calls).traceProtocol = calls.filterMap Call.proposition := by
  apply Runs.foldl_history fun (past : List Call) (b : CodeBean) => b.traceProtocol = past.filterMap Call.proposition
  · rfl
  · intro past b c h
    rw [List.filterMap_append, ← h]
    cases c with
    | inputHandler input => exact (List.append_nil _).symm
    | propositionHandler prop => rfl

/-- What the recorder makes of its calls so far, as a protocol. -/
def evaluated (A : TwaGraph) (calls : List Call) (st : Statics) : List MCState × Except Stop (Str × Str) :=
  let states := (A.modelCheckEvents ((recordCalls calls).trace true) st).1
  (states, extractPrefixAutomataPath (recordCalls calls) states true)

/-- The path, with the messages before the last change or with none. -/
theorem evaluated_eq (A : TwaGraph) (calls : List Call) (st : Statics) :
    let states := (evaluated A calls st).1
    (lastChange states = none ∧ (evaluated A calls st).2 = .ok ([], [])) ∨
      ∃ k, lastChange states = some k ∧ k < propositionCount calls ∧
        (evaluated A calls st).2 = .ok (automataPath states, terminated messageMark (inputsBefore calls k)) := by
  intro states
  have hlen : (genuine states).length ≤ propositionCount calls := length_genuine_recordCalls A calls st
  cases hk : lastChange states with
  | none =>
    have hnil := List.getLast?_eq_none_iff.mp (Option.map_eq_none_iff.mp hk)
    exact .inl ⟨rfl, extract_unchanged (automataPath_eq_nil_iff.mpr hnil)⟩
  | some k =>
    obtain ⟨p, hp, rfl⟩ := Option.map_eq_some_iff.mp hk
    have hrange := (changePoints_range (List.mem_of_getLast? hp)).2
    exact .inr ⟨p.1, rfl, by omega, extract_protocol hlen hk⟩

private theorem evaluated_states {A : TwaGraph} (hA : A.NonFalse) (calls : List Call) (st : Statics) :
    (evaluated A calls st).1 = A.follow A.initState (calls.filterMap Call.proposition) := by
  rw [← traceProtocol_recordCalls]
  exact TwaGraph.modelCheckEvents_eq_follow hA _ st

/-- Where the states extend, the path and the stored messages do. -/
private theorem evaluated_stored_prefix {A : TwaGraph} {calls more : List Call} {st st' : Statics}
    (h : (evaluated A calls st).1 <+: (evaluated A (calls ++ more) st').1) :
    ∃ aPath pfx aPath' pfx', (evaluated A calls st).2 = .ok (aPath, pfx) ∧
      (evaluated A (calls ++ more) st').2 = .ok (aPath', pfx') ∧ aPath <+: aPath' ∧ pfx <+: pfx' := by
  rcases evaluated_eq A calls st with ⟨_, he⟩ | ⟨k, hk, hlt, he⟩
  · rcases evaluated_eq A (calls ++ more) st' with ⟨_, he'⟩ | ⟨k', _, _, he'⟩
    · exact ⟨_, _, _, _, he, he', List.nil_prefix, List.nil_prefix⟩
    · exact ⟨_, _, _, _, he, he', List.nil_prefix, List.nil_prefix⟩
  · obtain ⟨k', hk', hle⟩ := lastChange_le h hk
    rcases evaluated_eq A (calls ++ more) st' with ⟨hnone, _⟩ | ⟨k'', hk'', _, he'⟩
    · rw [hk'] at hnone
      cases hnone
    · rw [hk', Option.some_inj] at hk''
      subst hk''
      refine ⟨_, _, _, _, he, he', automataPath_prefix h, terminated_prefix _ ?_⟩
      rw [← inputsBefore_append_left more hlt]
      exact inputsBefore_mono _ hle

/-- More calls only extend the states, the path and the stored messages. -/
theorem longer_trace_extends (A : TwaGraph) (hA : A.NonFalse) (calls more : List Call) (st st' : Statics) :
    (evaluated A calls st).1 <+: (evaluated A (calls ++ more) st').1 ∧
    (((evaluated A calls st).1.getLast?.map MCState.state = some (-1)) →
      (evaluated A (calls ++ more) st').1 = (evaluated A calls st).1) ∧
    ∃ aPath pfx aPath' pfx', (evaluated A calls st).2 = .ok (aPath, pfx) ∧
      (evaluated A (calls ++ more) st').2 = .ok (aPath', pfx') ∧ aPath <+: aPath' ∧ pfx <+: pfx' := by
  have hfirst := evaluated_states hA calls st
  have hlonger := evaluated_states hA (calls ++ more) st'
  rw [List.filterMap_append] at hlonger
  have hpfx : (evaluated A calls st).1 <+: (evaluated A (calls ++ more) st').1 := by
    rw [hlonger, hfirst]
    exact TwaGraph.follow_isPrefix _ _ _
  refine ⟨hpfx, fun hdead => ?_, evaluated_stored_prefix hpfx⟩
  obtain ⟨m, hm, hstate⟩ := Option.map_eq_some_iff.mp hdead
  rw [hlonger, hfirst]
  exact TwaGraph.follow_of_dead _ _ _ (hfirst ▸ hm) hstate

def sendA : List Call := [.inputHandler ['h'], .propositionHandler ['a']]
def sendB : List Call := [.inputHandler ['i'], .propositionHandler ['b']]

theorem longer_trace_extends_recurrent :
    recurrent.NonFalse ∧
    (evaluated recurrent sendA {}).1 <+: (evaluated recurrent (sendA ++ sendB) {}).1 ∧
    (((evaluated recurrent sendA {}).1.getLast?.map MCState.state = some (-1)) →
      (evaluated recurrent (sendA ++ sendB) {}).1 = (evaluated recurrent sendA {}).1) ∧
    ∃ aPath pfx aPath' pfx', (evaluated recurrent sendA {}).2 = .ok (aPath, pfx) ∧
      (evaluated recurrent (sendA ++ sendB) {}).2 = .ok (aPath', pfx') ∧ aPath <+: aPath' ∧ pfx <+: pfx' :=
  ⟨recurrent_nonFalse, longer_trace_extends recurrent recurrent_nonFalse sendA sendB {} {}⟩

/-- The second proposition moves the automaton on, past the second message. -/
example : (evaluated recurrent (sendA ++ sendB) {}).2 =
    .ok (['0', ',', '1', ','], ['h', ';', ';', 'i', ';', ';']) := rfl

end LtlFuzzer.Instrumentation
