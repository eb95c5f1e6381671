import LtlFuzzer.Instrumentation.CodeBean
import Mathlib.Data.List.Destutter

/-! The extraction loop as a pass over the positions where the state changes. -/
namespace LtlFuzzer.Instrumentation
open Foundation Automata Numerals Delimiters

/-- The states before the first dead end. -/
def genuine (states : List MCState) : List Int := (states.takeWhile (·.state ≠ -1)).map MCState.state

/-- The genuine part of entries and at most one dead end behind them. -/
theorem genuine_entries {A : TwaGraph} (ss : List (Fin A.numStates)) (dead : Bool) :
    genuine (ss.map A.entry ++ (if dead then [deadEnd] else [])) = ss.map fun q => (q.val : Int) := by
  have hall : ∀ m ∈ ss.map A.entry, (decide (m.state ≠ -1)) = true := by
    intro m hm
    obtain ⟨s, _, rfl⟩ := List.mem_map.mp hm
    exact decide_eq_true (A.entry_state_ne s)
  rw [genuine, List.takeWhile_append_of_pos hall]
  cases dead <;> simp [deadEnd, TwaGraph.entry, Function.comp_def]

/-- A reported list is its genuine states, and a dead end after them or none. -/
theorem exists_genuine (A : TwaGraph) (events : List Str) (st : Statics) :
    ∃ (ss : List (Fin A.numStates)) (dead : Bool),
      (A.modelCheckEvents events st).1 = ss.map A.entry ++ (if dead then [deadEnd] else []) ∧
      genuine (A.modelCheckEvents events st).1 = ss.map (fun q => (q.val : Int)) ∧
      ss.length ≤ events.length := by
  obtain ⟨ss, dead, he, hle⟩ := A.checkFrom_shape A.dict A.initState events st
  have he : (A.modelCheckEvents events st).1 = ss.map A.entry ++ (if dead then [deadEnd] else []) := he
  have hle : (A.modelCheckEvents events st).1.length ≤ events.length := hle
  refine ⟨ss, dead, he, ?_, ?_⟩
  · rw [he, genuine_entries]
  · rw [he, List.length_append, List.length_map] at hle
    omega

theorem genuine_nonneg (A : TwaGraph) (events : List Str) (st : Statics) :
    ∀ s ∈ genuine (A.modelCheckEvents events st).1, 0 ≤ s := by
  obtain ⟨ss, -, -, hg, -⟩ := exists_genuine A events st
  intro s hs
  rw [hg] at hs
  obtain ⟨q, -, rfl⟩ := List.mem_map.mp hs
  exact Int.natCast_nonneg q.val

theorem length_genuine_le (A : TwaGraph) (events : List Str) (st : Statics) :
    (genuine (A.modelCheckEvents events st).1).length ≤ events.length := by
  obtain ⟨ss, -, -, hg, hle⟩ := exists_genuine A events st
  rw [hg, List.length_map]
  exact hle

/-- Positions and states that differ from the state before. -/
def changePoints : Int → Nat → List Int → List (Nat × Int)
  | _, _, [] => []
  | cur, i, s :: ss => if cur = s then changePoints cur (i + 1) ss else (i, s) :: changePoints s (i + 1) ss

/-- The path text of a list of states. -/
def automataPath (states : List MCState) : Str :=
  terminated [','] ((changePoints (-2) 0 (genuine states)).map fun p => showInt p.2)

theorem automataPath_eq_nil_iff {states : List MCState} :
    automataPath states = [] ↔ changePoints (-2) 0 (genuine states) = [] := by
  rw [automataPath]
  cases changePoints (-2) 0 (genuine states) <;> simp

theorem extractLoop_eq (common : List Int) (flag : Bool) (states : List MCState) (i : Nat) (x : Cursor) :
    extractLoop common flag states i x =
      (changePoints x.curState i (genuine states)).foldlM (extractChange common flag) x := by
  induction states generalizing i x with
  | nil => rfl
  | cons m ms ih =>
    by_cases hm : m.state = -1
    · simp [extractLoop, genuine, hm, changePoints]
    · have hg : genuine (m :: ms) = m.state :: genuine ms := by simp [genuine, hm]
      by_cases hc : x.curState = m.state
      · rw [extractLoop, if_neg hm, if_pos hc, ih, hg, changePoints, if_pos hc]
      · rw [extractLoop, if_neg hm, if_neg hc, hg, changePoints, if_neg hc, List.foldlM_cons]
        cases he : extractChange common flag x (i, m.state) with
        | error e => rfl
        | ok y =>
          obtain ⟨text, _, rfl⟩ := Faults.map_eq_ok.mp he
          rw [Faults.ok_bind, Faults.ok_bind, ih]

theorem changePoints_range {cur : Int} {i : Nat} {ss : List Int} {p : Nat × Int}
    (h : p ∈ changePoints cur i ss) : i ≤ p.1 ∧ p.1 < i + ss.length := by
  induction ss generalizing cur i with
  | nil => cases h
  | cons s ss ih =>
    rw [changePoints] at h
    rw [List.length_cons]
    split_ifs at h
    · have := ih h
      omega
    · rcases List.mem_cons.mp h with rfl | h
      · exact ⟨le_rfl, by omega⟩
      · have := ih h
        omega

theorem changePoints_sorted (cur : Int) (i : Nat) (ss : List Int) :
    (changePoints cur i ss).Pairwise (·.1 < ·.1) := by
  induction ss generalizing cur i with
  | nil => exact List.Pairwise.nil
  | cons s ss ih =>
    rw [changePoints]
    split_ifs
    · exact ih cur (i + 1)
    · exact List.pairwise_cons.mpr ⟨fun p hp => (changePoints_range hp).1, ih s (i + 1)⟩

/-- The last state is the last one recorded, if any change was. -/
theorem changePoints_getLastD (cur : Int) (i : Nat) (ss : List Int) :
    ((changePoints cur i ss).map Prod.snd).getLastD cur = ss.getLastD cur := by
  induction ss generalizing cur i with
  | nil => rfl
  | cons s ss ih =>
    rw [changePoints, List.getLastD_cons]
    split_ifs with h
    · rw [ih, h]
    · rw [List.map_cons, List.getLastD_cons, ih]

/-- The recorded states are the run without consecutive repetitions. -/
theorem changePoints_destutter (cur : Int) (i : Nat) (ss : List Int) :
    cur :: (changePoints cur i ss).map Prod.snd = ss.destutter' (· ≠ ·) cur := by
  induction ss generalizing cur i with
  | nil => rfl
  | cons s ss ih =>
    rw [changePoints]
    split_ifs with h
    · rw [ih, List.destutter'_cons_neg _ (by simpa using h)]
    · rw [List.destutter'_cons_pos _ h, List.map_cons, ih]

theorem advance_path {common : List Int} {flag : Bool} (pts : List (Nat × Int)) {x y : Cursor}
    (h : pts.foldlM (extractChange common flag) x = .ok y) :
    y.aPath = x.aPath ++ terminated [','] (pts.map fun p => showInt p.2) := by
  induction pts generalizing x with
  | nil =>
    cases h
    simp
  | cons p pts ih =>
    rw [List.foldlM_cons, Faults.bind_eq_ok] at h
    obtain ⟨z, hz, h⟩ := h
    obtain ⟨text, _, rfl⟩ := Faults.map_eq_ok.mp hz
    rw [ih h]
    simp

/-- The path is the run up to the first dead end, without repetitions. -/
theorem extract_aPath {b : CodeBean} {states : List MCState} {flag : Bool} {aPath pfx : Str}
    (h : extractPrefixAutomataPath b states flag = .ok (aPath, pfx)) :
    aPath = automataPath states := by
  obtain ⟨x, hx, h⟩ := Faults.bind_eq_ok.mp h
  rw [extractLoop_eq] at hx
  have hpath : x.aPath = aPath := by
    split_ifs at h
    · obtain ⟨node, _, h⟩ := Faults.bind_eq_ok.mp h
      obtain ⟨messages, _, h⟩ := Faults.bind_eq_ok.mp h
      cases h
      rfl
    · cases h
      rfl
  rw [← hpath, advance_path _ hx, automataPath]
  simp

/-- The last state read back from a path. -/
theorem getLastState_terminated (ts : List Int) {s : Int} (hlo : -2 ^ 31 ≤ s) (hhi : s < 2 ^ 31) :
    getLastState (terminated [','] ((ts ++ [s]).map showInt)) = .ok s := by
  rw [getLastState, List.map_append, List.map_singleton,
    afterLast_terminated _ (comma_not_mem_showInt s), stoi_showInt hlo hhi]

/-- What the recorder calls the last state: the state before the first dead end. -/
theorem extract_getLastState {b : CodeBean} {states : List MCState} {flag : Bool} {aPath pfx : Str}
    (h : extractPrefixAutomataPath b states flag = .ok (aPath, pfx)) {s : Int}
    (hs : (genuine states).getLast? = some s) (hlo : 0 ≤ s) (hhi : s < 2 ^ 31) :
    getLastState aPath = .ok s := by
  have hlast : ((changePoints (-2) 0 (genuine states)).map Prod.snd).getLastD (-2) = s := by
    rw [changePoints_getLastD, List.getLastD_eq_getLast?, hs]
    rfl
  rw [extract_aPath h, automataPath, show (fun p : Nat × Int => showInt p.2) = showInt ∘ Prod.snd from rfl, ← List.map_map]
  generalize (changePoints (-2) 0 (genuine states)).map Prod.snd = ts at hlast
  induction ts using List.reverseRecOn with
  | nil =>
    simp at hlast
    omega
  | append_singleton ts s' _ =>
    have he : s' = s := by simpa using hlast
    exact he ▸ getLastState_terminated ts (by omega) (by omega)

end LtlFuzzer.Instrumentation
