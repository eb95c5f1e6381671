import LtlFuzzer.Automata.PathSearch

/-! The paths from a state that are to keep clear of a path given. -/
namespace LtlFuzzer.Automata
open Foundation Faults SimplePaths

/-- The loop that marks; it goes by the places in the path. -/
def markPath (isVisited : List Int) (aPath : List Nat) : Except SearchStop (List Int) :=
  (List.range aPath.length).foldlM (fun isVisited i => setMark isVisited i 1) isVisited

namespace TwaGraph

def getStatePaths (A : TwaGraph) (fuel curState : Nat) (paths : List (List Nat)) (aPath : List Nat) :
    Except SearchStop (List (List Nat)) := do
  let isVisited ← markPath (List.replicate 10 0) aPath
  let s ← A.findPaths fuel ⟨[curState], paths, isVisited, []⟩
  .ok s.paths

/-- The search returns, whatever rounds beyond the array's size it is given, with each path
once whose states in between are not forbidden, and no others. -/
def ReturnsExactly (A : TwaGraph) (forbidden : Nat → Prop) (curState : Nat) (aPath : List Nat) : Prop :=
  ∀ fuel > 10, ∀ paths, ∃ found : List (List Nat),
    A.getStatePaths fuel curState paths aPath = .ok (paths ++ found.map fun l => (curState :: l).reverse) ∧
      found.Nodup ∧ ∀ l, l ∈ found ↔ A.PathTo forbidden curState l

/-- The states after a number of first ones, as far as the array goes, are the free ones. -/
def offFirst (size x : Nat) : Bool := x < size || 10 ≤ x

/-- The array has a place for the state, the path and each state that is looked at and does
not accept: what follows a way through states from the path's length on. -/
def StaysInArray (A : TwaGraph) (size curState : Nat) : Prop :=
  size ≤ 10 ∧ curState < 10 ∧ ∀ w x, Way A.successors A.stateIsAccepting (offFirst size) curState w →
    x ∈ A.successors (w.getLastD curState) → A.stateIsAccepting x = false → x < 10

/-- Each path to an accepting state avoids what is forbidden exactly when it avoids the
first states, as many as the given path is long, and the state it starts from. -/
def ForbidsFirst (A : TwaGraph) (forbidden : Nat → Prop) (size curState : Nat) : Prop :=
  ∀ l, A.PathTo (fun _ => False) curState l →
    ((∀ x ∈ l.dropLast, ¬ forbidden x) ↔ ∀ x ∈ l.dropLast, x ≠ curState ∧ size ≤ x)

end TwaGraph

/-- The first places are marked. -/
def marks (size : Nat) : List Int := List.replicate size 1 ++ List.replicate (10 - size) 0

private theorem length_marks {size : Nat} (h : size ≤ 10) : (marks size).length = 10 := by
  simp [marks]
  omega

private theorem marks_set {size : Nat} (h : size < 10) : (marks size).set size 1 = marks (size + 1) := by
  obtain ⟨k, hk⟩ : ∃ k, 10 - size = k + 1 := ⟨10 - size - 1, by omega⟩
  have hk' : 10 - (size + 1) = k := by omega
  rw [marks, marks, hk, hk', List.set_append_right _ _ (by simp), List.length_replicate, Nat.sub_self,
    List.replicate_succ, List.set_cons_zero, List.replicate_succ', List.append_assoc]
  rfl

private theorem setMark_marks {size : Nat} (h : size ≤ 10) :
    setMark (marks size) size 1 = if size + 1 ≤ 10 then .ok (marks (size + 1)) else .error .outOfRange := by
  rw [setMark, length_marks h]
  by_cases hlt : size < 10
  · rw [if_pos hlt, if_pos (Nat.succ_le_of_lt hlt), marks_set hlt]
  · rw [if_neg hlt, if_neg (mt Nat.lt_of_succ_le hlt)]

/-- The loop marks as many first places as the path is long, if the array has them. -/
private theorem markPath_eq (aPath : List Nat) : markPath (List.replicate 10 0) aPath =
    if aPath.length ≤ 10 then .ok (marks aPath.length) else .error .outOfRange := by
  have hloop (n : Nat) : (List.range n).foldlM (fun isVisited i => setMark isVisited i 1) (List.replicate 10 0) =
      if n ≤ 10 then .ok (marks n) else .error .outOfRange := by
    induction n with
    | zero => rfl
    | succ n ih =>
      rw [List.range_succ, List.foldlM_append, ih]
      by_cases hn : n ≤ 10
      · rw [if_pos hn, ok_bind, List.foldlM_cons, setMark_marks hn]
        split_ifs <;> rfl
      · rw [if_neg hn, if_neg (fun h => hn (Nat.le_of_succ_le h))]
        rfl
  exact hloop aPath.length

private theorem marked_marks {size : Nat} (h : size ≤ 10) : marked (marks size) = TwaGraph.offFirst size := by
  funext x
  rw [marked, marks, TwaGraph.offFirst, List.getElem?_append]
  simp only [List.length_replicate, List.getElem?_replicate]
  split_ifs <;> simp <;> omega

namespace TwaGraph
variable {A : TwaGraph} {curState fuel : Nat} {aPath : List Nat} {forbidden : Nat → Prop}

private theorem getStatePaths_eq (hcur : curState < A.numStates) (hsize : aPath.length ≤ 10) (hin : curState < 10)
    (hfuel : 10 < fuel) (paths : List (List Nat)) :
    A.getStatePaths fuel curState paths aPath =
      if A.marksInRange 10 (A.searchTrail fuel (marks aPath.length) curState) then
        .ok (paths ++ (A.foundPaths fuel (marks aPath.length) curState).map fun l => (curState :: l).reverse)
      else .error .outOfRange := by
  have hlen := length_marks hsize
  have hsearch := searches_of_length hcur (hlen.symm ▸ hin) (hlen.symm ▸ hfuel) [] paths []
  rw [hlen, stacksOf_searchTrail] at hsearch
  rw [getStatePaths, markPath_eq, if_pos hsize, ok_bind, hsearch, outcome]
  split_ifs
  · simp
  · rfl

/-- It stops at an index where the path is too long or the state's number too large. -/
private theorem getStatePaths_error (h : ¬ (aPath.length ≤ 10 ∧ curState < 10)) (n : Nat) (paths : List (List Nat)) :
    A.getStatePaths (n + 1) curState paths aPath = .error .outOfRange := by
  rw [getStatePaths, markPath_eq]
  by_cases hsize : aPath.length ≤ 10
  · have hin : ¬ curState < (marks aPath.length).length := by
      rw [length_marks hsize]
      exact fun hlt => h ⟨hsize, hlt⟩
    rw [if_pos hsize, ok_bind, findPaths]
    simp [setMark, hin]
  · rw [if_neg hsize]
    rfl

private theorem marksInRange_iff (hsize : aPath.length ≤ 10) (hfuel : 10 < fuel) :
    A.marksInRange 10 (A.searchTrail fuel (marks aPath.length) curState) = true ↔
      ∀ w x, Way A.successors A.stateIsAccepting (offFirst aPath.length) curState w →
        x ∈ A.successors (w.getLastD curState) → A.stateIsAccepting x = false → x < 10 := by
  simp only [marksInRange, List.all_eq_true, Prod.forall, searchTrail, mem_trail, Bool.or_eq_true, decide_eq_true_eq]
  rw [← marked_marks hsize]
  constructor
  · intro h w x hway hx hnot
    have hlen : w.length < fuel := length_lt_of_way hway (by rwa [length_marks hsize])
    rcases h w x ⟨hway, hx, hlen⟩ with hacc | hlt
    · rw [hnot] at hacc
      cases hacc
    · exact hlt
  · rintro h w x ⟨hway, hx, -⟩
    cases hacc : A.stateIsAccepting x with
    | true => exact .inl rfl
    | false => exact .inr (h w x hway hx hacc)

/-- Within the array, a way through states that are not among the first meets free states only. -/
private theorem way_of_inner {size : Nat} (h : A.StaysInArray size curState) {w : List Nat}
    (hway : Way A.successors A.stateIsAccepting (fun x => decide (x < size)) curState w) :
    Way A.successors A.stateIsAccepting (offFirst size) curState w := by
  induction w using List.reverseRecOn with
  | nil => exact way_nil
  | append_singleton w x ih =>
    obtain ⟨hbefore, hedge, hpass, hfree, hnew⟩ := way_concat.mp hway
    have hlast : x < 10 := h.2.2 w x (ih hbefore) hedge hpass
    refine way_concat.mpr ⟨ih hbefore, hedge, hpass, ?_, hnew⟩
    simp [offFirst] at hfree ⊢
    omega

private theorem pathTo_iff {q : Nat} {l : List Nat} :
    A.PathTo forbidden q l ↔ A.PathTo (fun _ => False) q l ∧ ∀ x ∈ l.dropLast, ¬ forbidden x := by
  constructor
  · rintro ⟨hne, hfollows, hinner, hdistinct, haccepts⟩
    exact ⟨⟨hne, hfollows, fun x hx => ⟨(hinner x hx).1, not_false⟩, hdistinct, haccepts⟩, fun x hx => (hinner x hx).2⟩
  · rintro ⟨⟨hne, hfollows, hinner, hdistinct, haccepts⟩, hfree⟩
    exact ⟨hne, hfollows, fun x hx => ⟨(hinner x hx).1, hfree x hx⟩, hdistinct, haccepts⟩

/-- Within the array, the search passes the state it starts from and the first ones. -/
private theorem pathTo_passed_iff (hstay : A.StaysInArray aPath.length curState) {l : List Nat} :
    A.PathTo (Passed (marks aPath.length) curState) curState l ↔ A.PathTo (fun _ => False) curState l ∧
      ∀ x ∈ l.dropLast, x ≠ curState ∧ aPath.length ≤ x := by
  have hpassed (x : Nat) : ¬ Passed (marks aPath.length) curState x ↔ x ≠ curState ∧ offFirst aPath.length x = false := by
    rw [← marked_marks hstay.1, Passed, not_or, not_not, marked, decide_eq_false_iff_not, not_not]
  rw [pathTo_iff]
  apply and_congr_right
  intro hpath
  simp only [hpassed]
  constructor
  · intro h x hx
    obtain ⟨hne, hfree⟩ := h x hx
    simp [offFirst] at hfree
    exact ⟨hne, hfree.1⟩
  · intro h x hx
    have hchain : (curState :: l.dropLast).IsChain A.Follows := by
      rw [← List.dropLast_cons_of_ne_nil hpath.nonempty]
      exact hpath.follows.dropLast
    have hway := way_of_inner hstay (way_iff.mpr ⟨hchain, fun y hy => ⟨(hpath.inner y hy).1, (h y hy).1, by
      simpa using (h y hy).2⟩, hpath.distinct⟩)
    exact ⟨(h x hx).1, hway.free x hx⟩

private theorem returnsExactly_iff (hcur : curState < A.numStates) :
    A.ReturnsExactly forbidden curState aPath ↔
      A.StaysInArray aPath.length curState ∧ A.ForbidsFirst forbidden aPath.length curState := by
  by_cases hsmall : aPath.length ≤ 10 ∧ curState < 10
  · obtain ⟨hsize, hin⟩ := hsmall
    have hlen : (marks aPath.length).length = 10 := length_marks hsize
    constructor
    · intro h
      obtain ⟨found, heq, -, hmem⟩ := h 11 (by decide) []
      rw [getStatePaths_eq hcur hsize hin (by decide)] at heq
      split_ifs at heq with hok
      have hstay : A.StaysInArray aPath.length curState := ⟨hsize, hin, (marksInRange_iff hsize (by decide)).mp hok⟩
      obtain rfl : A.foundPaths 11 (marks aPath.length) curState = found := by
        refine List.map_injective_iff.mpr (fun l l' hl => ?_) (List.append_cancel_left (Except.ok.inj heq))
        exact List.tail_eq_of_cons_eq (List.reverse_injective hl)
      refine ⟨hstay, fun l hl => ?_⟩
      have hsame := (hmem l).symm.trans (mem_foundPaths (by rw [hlen]; decide))
      rw [pathTo_iff, pathTo_passed_iff hstay] at hsame
      exact and_congr_right_iff.mp hsame hl
    · rintro ⟨hstay, hforbids⟩ fuel hfuel paths
      refine ⟨A.foundPaths fuel (marks aPath.length) curState, ?_, nodup_foundPaths _ _ _, fun l => ?_⟩
      · rw [getStatePaths_eq hcur hsize hin hfuel, if_pos ((marksInRange_iff hsize hfuel).mpr hstay.2.2)]
      · rw [mem_foundPaths (by rwa [hlen]), pathTo_passed_iff hstay]
        exact (and_congr_right (hforbids l)).symm.trans pathTo_iff.symm
  · apply iff_of_false
    · intro h
      obtain ⟨found, heq, -⟩ := h 11 (by decide) []
      rw [getStatePaths_error hsmall] at heq
      cases heq
    · intro h
      exact hsmall ⟨h.1.1, h.1.2.1⟩

/-- The paths are those that avoid the given path, or that avoid it and the state they start
from, exactly when the search stays in the array and these are the paths that avoid the
first states and the state they start from. -/
theorem get_state_paths_iff (A : TwaGraph) {curState : Nat} (hcur : curState < A.numStates) (aPath : List Nat) :
    (A.ReturnsExactly (· ∈ aPath) curState aPath ↔
      A.StaysInArray aPath.length curState ∧ A.ForbidsFirst (· ∈ aPath) aPath.length curState) ∧
    (A.ReturnsExactly (fun x => x ∈ aPath ∨ x = curState) curState aPath ↔ A.StaysInArray aPath.length curState ∧
      A.ForbidsFirst (fun x => x ∈ aPath ∨ x = curState) aPath.length curState) :=
  ⟨returnsExactly_iff hcur, returnsExactly_iff hcur⟩

end TwaGraph

/-- More states than the array has places, and no edges. -/
def wideGraph : TwaGraph where
  numStates := 11
  initState := 0
  out := fun _ => []
  accepting := fun _ => false
  dict := noNames
  bddvarnum := 0
  allocated := ringGraph.allocated

private theorem ring_through_given {forbidden : Nat → Prop} (h : forbidden 1) :
    ¬ ringGraph.ReturnsExactly forbidden 0 [1] := by
  intro hreturns
  obtain ⟨found, heq, -, hmem⟩ := hreturns 11 (by decide) []
  have hpaths : ringGraph.getStatePaths 11 0 [] [1] = .ok [[2, 1, 0]] := rfl
  rw [hpaths, List.nil_append] at heq
  obtain ⟨l, rfl, hl⟩ := List.map_eq_singleton_iff.mp (Except.ok.inj heq).symm
  have hpath : l = [1, 2] := List.tail_eq_of_cons_eq (List.reverse_eq_iff.mp hl)
  have hinner := ((hmem l).mp List.mem_cons_self).inner
  rw [hpath] at hinner
  exact (hinner 1 List.mem_cons_self).2 h

/-- The only path from 0 goes through the state 1 that was to be avoided, and is returned; a
state numbered 10 is outside the array. -/
theorem get_state_paths_through_given :
    ringGraph.getStatePaths 11 0 [] [1] = .ok [[2, 1, 0]] ∧
      ¬ ringGraph.ReturnsExactly (· ∈ [1]) 0 [1] ∧ ¬ ringGraph.ReturnsExactly (fun x => x ∈ [1] ∨ x = 0) 0 [1] ∧
      wideGraph.getStatePaths 11 10 [] [] = .error .outOfRange :=
  ⟨rfl, ring_through_given (by decide), ring_through_given (by decide), rfl⟩

theorem get_state_paths_iff_ring :
    (ringGraph.ReturnsExactly (· ∈ [0]) 0 [0] ↔
      ringGraph.StaysInArray 1 0 ∧ ringGraph.ForbidsFirst (· ∈ [0]) 1 0) ∧
    (ringGraph.ReturnsExactly (fun x => x ∈ [0] ∨ x = 0) 0 [0] ↔
      ringGraph.StaysInArray 1 0 ∧ ringGraph.ForbidsFirst (fun x => x ∈ [0] ∨ x = 0) 1 0) :=
  ringGraph.get_state_paths_iff (by decide) [0]

end LtlFuzzer.Automata
