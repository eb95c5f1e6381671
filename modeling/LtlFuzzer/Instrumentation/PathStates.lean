import LtlFuzzer.Foundation.PartialRuns
import LtlFuzzer.Instrumentation.LongerTraces
import LtlFuzzer.Instrumentation.ReplayedInputs

/-! A path text against the run that it stands for, and the two readers of its last state. -/
namespace LtlFuzzer.Utils
open Foundation Delimiters

/-- The text between the last two commas, as the fuzzer reads it. -/
def getLastState (aPath : Str) : Str := afterLast ',' aPath.dropLast

end LtlFuzzer.Utils

namespace LtlFuzzer.Automata.TwaGraph
variable {A : TwaGraph}

/-- An edge leads from one state to the other. -/
def Joined (A : TwaGraph) (q r : Fin A.numStates) : Prop := ∃ t ∈ A.out q, t.dst = r

theorem isChain_of_visits {q : Fin A.numStates} {es : List Str} {ss : List (Fin A.numStates)} (h : A.Visits q es ss) :
    (q :: ss).IsChain A.Joined := by
  induction ss generalizing q es with
  | nil => exact List.isChain_singleton q
  | cons s ss ih =>
    cases es with
    | nil => cases h
    | cons e es =>
      obtain ⟨⟨t, ht, hdst, -⟩, hrest⟩ := h
      exact List.isChain_cons_cons.mpr ⟨⟨t, ht, hdst⟩, ih hrest⟩

end LtlFuzzer.Automata.TwaGraph

namespace LtlFuzzer.Instrumentation
open Foundation Automata Numerals Delimiters
variable {A : TwaGraph}

/-- The path text of a recorded trace: its numbers are the states before the first dead end
without repetitions, joined by edges, and both readers find the last of them. -/
def PathIsRun (A : TwaGraph) (b : CodeBean) (flag : Bool) (st : Statics) : Prop :=
  ∃ (ss : List (Fin A.numStates)) (aPath pfx : Str),
    genuine (A.modelCheckEvents (b.trace flag) st).1 = ss.map (fun q => (q.val : Int)) ∧
    extractPrefixAutomataPath b (A.modelCheckEvents (b.trace flag) st).1 flag = .ok (aPath, pfx) ∧
    (getlines ',' aPath).mapM stoi = some ((ss.map fun q => (q.val : Int)).destutter (· ≠ ·)) ∧
    (ss.destutter (· ≠ ·)).IsChain A.Joined ∧
    (aPath ≠ [] → ∃ q, ss.getLast? = some q ∧ Utils.getLastState aPath = showInt q.val ∧
      getLastState aPath = .ok (q.val : Int))

/-- The states of a run, joined by edges. -/
private theorem exists_genuine_chain (hA : A.NonFalse) (events : List Str) (st : Statics) :
    ∃ ss : List (Fin A.numStates), genuine (A.modelCheckEvents events st).1 = ss.map (fun q => (q.val : Int)) ∧
      ss.IsChain A.Joined := by
  obtain ⟨ss, dead, he, -, -, hvisits⟩ := A.follow_shape A.initState events
  refine ⟨ss, ?_, (TwaGraph.isChain_of_visits hvisits).tail⟩
  rw [TwaGraph.modelCheckEvents_eq_follow hA, he, genuine_entries]

private theorem stateNumber_destutter (ss : List (Fin A.numStates)) :
    ((ss.destutter (· ≠ ·)).map fun q => (q.val : Int)) = (ss.map fun q => (q.val : Int)).destutter (· ≠ ·) := by
  apply List.map_destutter_ne
  intro q r he
  exact Fin.ext (Int.ofNat.inj he)

/-- The path text is the states' numbers, each taken once in a row. -/
private theorem automataPath_eq {states : List MCState} {ss : List (Fin A.numStates)}
    (h : genuine states = ss.map fun q => (q.val : Int)) :
    automataPath states = terminated [','] (((ss.destutter (· ≠ ·)).map fun q => (q.val : Int)).map showInt) := by
  have hpoints : (changePoints (-2) 0 (genuine states)).map Prod.snd = (genuine states).destutter (· ≠ ·) := by
    have hall := changePoints_destutter (-2) 0 (genuine states)
    rw [h] at hall ⊢
    cases ss with
    | nil => rfl
    | cons s ss =>
      -- no state carries the number that the loop starts from
      have hne : (-2 : Int) ≠ s.val := by omega
      rw [List.map_cons, List.destutter'_cons_pos _ hne] at hall
      exact (List.cons.inj hall).2
  rw [automataPath, stateNumber_destutter, ← h, ← hpoints, List.map_map]
  rfl

/-- A path text that both readers agree on. -/
private theorem pathIsRun_of_extract (hA : A.NonFalse) {b : CodeBean} {flag : Bool} {st : Statics} {pfx : Str}
    (hx : extractPrefixAutomataPath b (A.modelCheckEvents (b.trace flag) st).1 flag =
      .ok (automataPath (A.modelCheckEvents (b.trace flag) st).1, pfx)) :
    PathIsRun A b flag st := by
  obtain ⟨ss, hg, hchain⟩ := exists_genuine_chain hA (b.trace flag) st
  have hpath := automataPath_eq hg
  refine ⟨ss, _, pfx, hg, hx, ?_, isChain_destutter_ne hchain, ?_⟩
  · have hrange : ∀ n ∈ (ss.destutter (· ≠ ·)).map (fun q => (q.val : Int)), -2 ^ 31 ≤ n ∧ n < 2 ^ 31 := by
      intro n hn
      obtain ⟨q, -, rfl⟩ := List.mem_map.mp hn
      exact stateNumber_range q
    rw [hpath, getlines_terminated (comma_not_mem_of_mem_map _), mapM_stoi_showInt hrange, stateNumber_destutter]
  · intro hne
    obtain ⟨q, hq⟩ : ∃ q, ss.getLast? = some q := by
      apply Option.ne_none_iff_exists'.mp
      intro hnone
      rw [List.getLast?_eq_none_iff.mp hnone] at hpath
      exact hne hpath
    obtain ⟨hlo, hhi⟩ := stateNumber_range q
    obtain ⟨before, hbefore⟩ : ∃ before, ss.destutter (· ≠ ·) = before ++ [q] := by
      apply List.getLast?_eq_some_iff.mp
      rw [getLast?_destutter_ne, hq]
    rw [hbefore, List.map_append, List.map_singleton] at hpath
    refine ⟨q, hq, ?_, ?_⟩
    · rw [hpath, Utils.getLastState, List.map_append, List.map_singleton, afterLast_terminated _ (comma_not_mem_showInt _)]
    · rw [hpath]
      exact getLastState_terminated _ hlo hhi

theorem pathIsRun_recordCalls (hA : A.NonFalse) (calls : List Call) (st : Statics) :
    PathIsRun A (recordCalls calls) true st := by
  rcases evaluated_eq A calls st with ⟨hnone, hx⟩ | ⟨k, -, -, hx⟩
  · have hpath : automataPath (A.modelCheckEvents ((recordCalls calls).trace true) st).1 = [] := by
      rw [automataPath_eq_nil_iff]
      exact List.getLast?_eq_none_iff.mp (Option.map_eq_none_iff.mp hnone)
    apply pathIsRun_of_extract hA
    rw [hpath]
    exact hx
  · exact pathIsRun_of_extract hA hx

theorem pathIsRun_recordPairs (hA : A.NonFalse) (names : Std.TreeMap Int Str) (pairs : List (Int × Int)) (st : Statics) :
    PathIsRun A (recordPairs names pairs) false st := by
  apply pathIsRun_of_extract hA
  exact extract_common (length_genuine_recordPairs A names pairs st)

/-- In both modes the path text is the run without repetitions, up to the first dead end. -/
theorem path_is_stutter_free_run (A : TwaGraph) (hA : A.NonFalse) (st : Statics) :
    (∀ calls : List Call, PathIsRun A (recordCalls calls) true st) ∧
      ∀ (names : Std.TreeMap Int Str) (pairs : List (Int × Int)), PathIsRun A (recordPairs names pairs) false st :=
  ⟨fun calls => pathIsRun_recordCalls hA calls st, fun names pairs => pathIsRun_recordPairs hA names pairs st⟩

theorem path_is_stutter_free_run_reachesInvalid :
    reachesInvalid.NonFalse ∧
      (∀ calls : List Call, PathIsRun reachesInvalid (recordCalls calls) true {}) ∧
      ∀ (names : Std.TreeMap Int Str) (pairs : List (Int × Int)),
        PathIsRun reachesInvalid (recordPairs names pairs) false {} :=
  ⟨reachesInvalid_nonFalse, path_is_stutter_free_run reachesInvalid reachesInvalid_nonFalse {}⟩

end LtlFuzzer.Instrumentation
