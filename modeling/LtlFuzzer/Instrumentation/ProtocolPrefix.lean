import LtlFuzzer.Automata.Transitions
import LtlFuzzer.Foundation.Runs
import LtlFuzzer.Instrumentation.AutomataPath

/-! The prefix stored for a protocol: the messages before the last state change. -/
namespace LtlFuzzer.Instrumentation
open Foundation Faults Automata Delimiters

/-- The calls an instrumented protocol program makes. -/
inductive Call where
  | inputHandler (input : Str)
  | propositionHandler (prop : Str)
  deriving DecidableEq, Repr

def CodeBean.handle (b : CodeBean) : Call → CodeBean
  | .inputHandler input => b.collectInput input
  | .propositionHandler prop => b.collectProposition prop

def recordCalls (calls : List Call) : CodeBean := calls.foldl CodeBean.handle {}

/-- The decoder on the fuzzer's side. -/
def stringToVector (p : Str) : List Str := cutRecords messageMark p

def inputs : List Call → List Str
  | [] => []
  | .inputHandler m :: cs => m :: inputs cs
  | .propositionHandler _ :: cs => inputs cs

def propositionCount : List Call → Nat
  | [] => 0
  | .inputHandler _ :: cs => propositionCount cs
  | .propositionHandler _ :: cs => propositionCount cs + 1

/-- The messages before a proposition, by its number. -/
def inputsBefore : List Call → Nat → List Str
  | [], _ => []
  | .inputHandler m :: cs, k => m :: inputsBefore cs k
  | .propositionHandler _ :: _, 0 => []
  | .propositionHandler _ :: cs, k + 1 => inputsBefore cs k

/-- The position where the automaton last changed state. -/
def lastChange (states : List MCState) : Option Nat := ((changePoints (-2) 0 (genuine states)).getLast?).map Prod.fst

/-- The three vectors of a protocol agree with the calls so far. -/
structure Aligned (calls : List Call) (b : CodeBean) : Prop where
  collected : b.inputProtocol = inputs calls
  propositions : b.traceProtocol.length = propositionCount calls
  locations : b.propLocVec.length = propositionCount calls
  located : ∀ k node, b.propLocVec[k]? = some node →
    node.2 ≤ b.inputProtocol.length ∧ b.inputProtocol.take node.2 = inputsBefore calls k

private theorem inputs_append (cs ds : List Call) : inputs (cs ++ ds) = inputs cs ++ inputs ds := by
  induction cs with
  | nil => rfl
  | cons c cs ih => cases c <;> simp [inputs, ih]

private theorem propositionCount_append (cs ds : List Call) :
    propositionCount (cs ++ ds) = propositionCount cs + propositionCount ds := by
  induction cs with
  | nil => simp [propositionCount]
  | cons c cs ih =>
    cases c with
    | inputHandler m => exact ih
    | propositionHandler p =>
      simp only [List.cons_append, propositionCount, ih]
      omega

theorem inputsBefore_append_left {cs : List Call} (ds : List Call) {k : Nat} (h : k < propositionCount cs) :
    inputsBefore (cs ++ ds) k = inputsBefore cs k := by
  induction cs generalizing k with
  | nil => cases h
  | cons c cs ih =>
    cases c with
    | inputHandler m => simp only [List.cons_append, inputsBefore, ih h]
    | propositionHandler p =>
      cases k with
      | zero => rfl
      | succ k => exact ih (Nat.lt_of_succ_lt_succ h)

private theorem inputsBefore_last (cs : List Call) (p : Str) :
    inputsBefore (cs ++ [.propositionHandler p]) (propositionCount cs) = inputs cs := by
  induction cs with
  | nil => rfl
  | cons c cs ih =>
    cases c with
    | inputHandler m => simp only [List.cons_append, inputsBefore, propositionCount, inputs, ih]
    | propositionHandler q => exact ih

private theorem Aligned.lt_of_location {calls : List Call} {b : CodeBean} (h : Aligned calls b) {k : Nat} {node : Str × Nat}
    (hk : b.propLocVec[k]? = some node) : k < propositionCount calls := by
  rw [← h.locations]
  exact (List.getElem?_eq_some_iff.mp hk).1

private theorem Aligned.collectInput {calls : List Call} {b : CodeBean} (h : Aligned calls b) (m : Str) :
    Aligned (calls ++ [.inputHandler m]) (b.handle (.inputHandler m)) := by
  refine ⟨?_, ?_, ?_, fun k node hk => ?_⟩
  · simp [CodeBean.handle, CodeBean.collectInput, h.collected, inputs_append, inputs]
  · simpa [CodeBean.handle, CodeBean.collectInput, propositionCount_append, propositionCount] using h.propositions
  · simpa [CodeBean.handle, CodeBean.collectInput, propositionCount_append, propositionCount] using h.locations
  · obtain ⟨hle, htake⟩ := h.located k node hk
    refine ⟨?_, ?_⟩
    · simp only [CodeBean.handle, CodeBean.collectInput, List.length_append]
      omega
    · rw [inputsBefore_append_left _ (h.lt_of_location hk), ← htake]
      exact List.take_append_of_le_length hle

private theorem Aligned.collectProposition {calls : List Call} {b : CodeBean} (h : Aligned calls b) (p : Str) :
    Aligned (calls ++ [.propositionHandler p]) (b.handle (.propositionHandler p)) := by
  refine ⟨?_, ?_, ?_, fun k node hk => ?_⟩
  · simp [CodeBean.handle, CodeBean.collectProposition, h.collected, inputs_append, inputs]
  · simp [CodeBean.handle, CodeBean.collectProposition, h.propositions, propositionCount_append, propositionCount]
  · simp [CodeBean.handle, CodeBean.collectProposition, h.locations, propositionCount_append, propositionCount]
  · change (b.propLocVec ++ [(p, b.inputProtocol.length)])[k]? = some node at hk
    by_cases hk' : k < b.propLocVec.length
    · rw [List.getElem?_append_left hk'] at hk
      rw [inputsBefore_append_left _ (h.lt_of_location hk)]
      exact h.located k node hk
    · have hlen := (List.getElem?_eq_some_iff.mp hk).1
      have he : k = b.propLocVec.length := by
        rw [List.length_append, List.length_singleton] at hlen
        omega
      subst he
      rw [List.getElem?_concat_length, Option.some_inj] at hk
      subst hk
      refine ⟨le_rfl, ?_⟩
      rw [h.locations, inputsBefore_last, ← h.collected]
      exact List.take_length

/-- One call keeps the vectors aligned. -/
private theorem Aligned.handle {calls : List Call} {b : CodeBean} (h : Aligned calls b) (c : Call) :
    Aligned (calls ++ [c]) (b.handle c) := by
  cases c with
  | inputHandler m => exact h.collectInput m
  | propositionHandler p => exact h.collectProposition p

theorem aligned_recordCalls (calls : List Call) : Aligned calls (recordCalls calls) :=
  Runs.foldl_history Aligned ⟨rfl, rfl, rfl, by simp⟩ (fun _ _ c h => h.handle c) calls

private theorem mapM_readAt {α : Type} (l : List α) {n : Nat} (h : n ≤ l.length) :
    (List.range n).mapM (readAt l) = .ok (l.take n) := by
  induction n with
  | zero => rfl
  | succ n ih =>
    have hone : [n].mapM (readAt l) = .ok [l[n]] := by
      rw [List.mapM_cons, readAt_of_lt h]
      rfl
    rw [List.range_succ, List.mapM_append, ih (by omega), ok_bind, hone, ok_bind,
      List.take_succ_eq_append_getElem h]
    rfl

/-- Without the inputs of common programs the loop only remembers its last change. -/
private theorem foldlM_protocol (common : List Int) (pts : List (Nat × Int)) (x : Cursor) :
    ∃ y, pts.foldlM (extractChange common true) x = .ok y ∧ y.pfx = x.pfx ∧
      y.loc = (pts.getLast?.map Prod.fst).getD x.loc := by
  induction pts generalizing x with
  | nil => exact ⟨x, rfl, rfl, rfl⟩
  | cons p pts ih =>
    rw [List.foldlM_cons, extractChange, if_pos rfl, map_ok, ok_bind]
    obtain ⟨y, hy, hpfx, hloc⟩ := ih ⟨p.1, p.2, x.aPath ++ (Numerals.showInt p.2 ++ [',']), x.pfx ++ []⟩
    refine ⟨y, hy, by simpa using hpfx, ?_⟩
    rw [hloc, List.getLast?_cons]
    cases pts.getLast? <;> rfl

/-- All reads are in range, and the prefix holds the messages before the last change. -/
theorem extract_protocol {calls : List Call} {states : List MCState}
    (hlen : (genuine states).length ≤ propositionCount calls) {k : Nat} (hk : lastChange states = some k) :
    extractPrefixAutomataPath (recordCalls calls) states true =
      .ok (automataPath states, terminated messageMark (inputsBefore calls k)) := by
  have hal := aligned_recordCalls calls
  obtain ⟨p, hp, rfl⟩ := Option.map_eq_some_iff.mp hk
  obtain ⟨y, hy, hpfx, hloc⟩ := foldlM_protocol (recordCalls calls).traceCommon
    (changePoints (-2) 0 (genuine states)) {}
  have hlast : y.loc = p.1 := by simp [hloc, hp]
  have hpath : y.aPath = automataPath states := advance_path _ hy
  have hne : y.aPath ≠ [] := by
    rw [hpath, Ne, automataPath_eq_nil_iff]
    exact List.ne_nil_of_mem (List.mem_of_getLast? hp)
  have hread : p.1 < (recordCalls calls).propLocVec.length := by
    have := (changePoints_range (List.mem_of_getLast? hp)).2
    rw [hal.locations]
    omega
  obtain ⟨hle, htake⟩ := hal.located p.1 _ (List.getElem?_eq_getElem hread)
  have hcur : ({} : Cursor).curState = -2 := rfl
  rw [extractPrefixAutomataPath, extractLoop_eq, hcur, hy, ok_bind, if_pos (by simp [hne]), hlast,
    readAt_of_lt hread, ok_bind, mapM_readAt _ hle, ok_bind, htake, hpfx, hpath]
  rfl

theorem length_genuine_recordCalls (A : TwaGraph) (calls : List Call) (st : Statics) :
    (genuine (A.modelCheckEvents ((recordCalls calls).trace true) st).1).length ≤ propositionCount calls := by
  rw [← (aligned_recordCalls calls).propositions]
  exact length_genuine_le A _ st

/-- A stored prefix decodes to the messages before the last change exactly when none of
them contains two semicolons in a row or ends in one. -/
theorem protocol_prefix_decodes_iff (A : TwaGraph) (calls : List Call) (st : Statics)
    (hne : automataPath (A.modelCheckEvents ((recordCalls calls).trace true) st).1 ≠ []) :
    ∃ states k pfx, states = (A.modelCheckEvents ((recordCalls calls).trace true) st).1 ∧
      lastChange states = some k ∧
      extractPrefixAutomataPath (recordCalls calls) states true = .ok (automataPath states, pfx) ∧
      (stringToVector pfx = inputsBefore calls k ↔
        ∀ m ∈ inputsBefore calls k, ¬ messageMark <:+: m ∧ m.getLast? ≠ some ';') := by
  obtain ⟨p, hp⟩ := Option.ne_none_iff_exists'.mp
    (mt List.getLast?_eq_none_iff.mp (mt automataPath_eq_nil_iff.mpr hne))
  have hk : lastChange (A.modelCheckEvents ((recordCalls calls).trace true) st).1 = some p.1 := by
    rw [lastChange, hp, Option.map_some]
  refine ⟨_, p.1, _, rfl, hk, extract_protocol (length_genuine_recordCalls A calls st) hk, ?_⟩
  rw [stringToVector, cutRecords_terminated_iff (by simp [messageMark])]
  exact forall₂_congr fun m _ => clean_pair_iff ';' m

/-- A message of one semicolon is decoded as an empty one. -/
theorem protocol_prefix_loses_semicolon :
    automataPath (recurrent.modelCheckEvents
        ((recordCalls [.inputHandler [';'], .propositionHandler ['a']]).trace true) {}).1 = ['0', ','] ∧
      lastChange (recurrent.modelCheckEvents
        ((recordCalls [.inputHandler [';'], .propositionHandler ['a']]).trace true) {}).1 = some 0 ∧
      extractPrefixAutomataPath (recordCalls [.inputHandler [';'], .propositionHandler ['a']])
          (recurrent.modelCheckEvents
            ((recordCalls [.inputHandler [';'], .propositionHandler ['a']]).trace true) {}).1 true =
        .ok (['0', ','], [';', ';', ';']) ∧
      stringToVector [';', ';', ';'] = [[]] ∧
      inputsBefore [.inputHandler [';'], .propositionHandler ['a']] 0 = [[';']] :=
  ⟨rfl, rfl, rfl, rfl, rfl⟩

theorem protocol_prefix_decodes_iff_plain :
    ∃ states k pfx,
      states = (recurrent.modelCheckEvents
        ((recordCalls [.inputHandler ['h'], .propositionHandler ['a']]).trace true) {}).1 ∧
      lastChange states = some k ∧
      extractPrefixAutomataPath (recordCalls [.inputHandler ['h'], .propositionHandler ['a']]) states true =
        .ok (automataPath states, pfx) ∧
      (stringToVector pfx = inputsBefore [.inputHandler ['h'], .propositionHandler ['a']] k ↔
        ∀ m ∈ inputsBefore [.inputHandler ['h'], .propositionHandler ['a']] k,
          ¬ messageMark <:+: m ∧ m.getLast? ≠ some ';') :=
  protocol_prefix_decodes_iff recurrent [.inputHandler ['h'], .propositionHandler ['a']] {} (by decide)

end LtlFuzzer.Instrumentation
