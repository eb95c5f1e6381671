import LtlFuzzer.Automata.Transitions
import LtlFuzzer.Foundation.Faults
import LtlFuzzer.Foundation.SimplePaths

/-! The search for paths to accepting states, over shared stacks and an array of marks. -/
namespace LtlFuzzer.Automata
open Foundation Faults SimplePaths

inductive SearchStop where
  | outOfRange
  | outOfFuel
  deriving DecidableEq, Repr

/-- What the recursion shares. Stacks have their top in front. -/
structure Search where
  sstack : List Nat
  paths : List (List Nat)
  isVisited : List Int
  path : List Nat

def setMark (isVisited : List Int) (state : Nat) (mark : Int) : Except SearchStop (List Int) :=
  if state < isVisited.length then .ok (isVisited.set state mark) else .error .outOfRange

/-- What is popped and unmarked at the end of a call. -/
def leave (s : Search) : Except SearchStop Search :=
  match s.sstack with
  | [] => .error .outOfRange
  | pt :: sstack => (setMark s.isVisited pt 0).map fun isVisited => ⟨sstack, s.paths, isVisited, s.path.tail⟩

namespace TwaGraph

def getStateSet (A : TwaGraph) (curState : Nat) : Option (Std.TreeSet Nat) :=
  (A.stateFromNumber curState).map fun s => (A.out s).foldl
    (fun stateSet t => if t.dst.val ≠ curState then stateSet.insert t.dst.val else stateSet) ∅

def stateIsAccepting (A : TwaGraph) (state : Nat) : Bool := ((A.stateFromNumber state).map A.accepting).getD false

/-- One pass of the loop over the successors. -/
def visitNext (A : TwaGraph) (findPaths : Search → Except SearchStop Search) (s : Search) (next : Nat) :
    Except SearchStop Search :=
  if A.stateIsAccepting next then .ok { s with paths := s.paths ++ [next :: s.path] }
  else match s.isVisited[next]? with
    | none => .error .outOfRange
    | some mark => if mark = 0 then findPaths { s with sstack := next :: s.sstack } else .ok s

def findPaths (A : TwaGraph) : Nat → Search → Except SearchStop Search
  | 0, _ => .error .outOfFuel
  | n + 1, s => match s.sstack with
    | [] => .ok s
    | stop :: _ => do
      let isVisited ← setMark s.isVisited stop 1
      match A.getStateSet stop with
      | none => .error .outOfRange
      | some stateSet =>
        let s ← stateSet.toList.foldlM (A.visitNext (A.findPaths n)) { s with isVisited, path := stop :: s.path }
        leave s

/-- The states that follow a state, in the order of the set. -/
def successors (A : TwaGraph) (q : Nat) : List Nat := ((A.getStateSet q).getD ∅).toList

end TwaGraph

/-- What the search takes for visited: there is no mark, or one that is not zero. -/
def marked (isVisited : List Int) (state : Nat) : Bool := isVisited[state]? ≠ some 0

/-- The stack of a path: the end, the way to it, and what was below. -/
def stackOf (path : List Nat) (q : Nat) (e : List Nat × Nat) : List Nat := e.2 :: (e.1.reverse ++ q :: path)

/-- The search returns, or stops at an index. -/
def outcome (inRange : Bool) (s : Search) : Except SearchStop Search := if inRange then .ok s else .error .outOfRange

private theorem outcome_bind {a b : Bool} {s s' : Search} {f : Search → Except SearchStop Search} (h : f s = outcome b s') :
    (outcome a s >>= f) = outcome (a && b) s' := by
  cases a
  · rfl
  · exact h

private theorem marked_set {isVisited : List Int} {q : Nat} (hq : q < isVisited.length) :
    marked (isVisited.set q 1) = block (marked isVisited) q := by
  funext x
  by_cases hx : q = x
  · subst hx
    simp [marked, block, hq]
  · simp [marked, block, hx, Ne.symm hx]

private theorem marked_eq_false_iff {isVisited : List Int} {r : Nat} : marked isVisited r = false ↔ isVisited[r]? = some 0 := by
  simp [marked]

/-- Marking a state leaves one zero less. -/
private theorem count_set_one {v : List Int} {r : Nat} (h : v[r]? = some 0) : (v.set r 1).count 0 + 1 = v.count 0 := by
  obtain ⟨hr, hv⟩ := List.getElem?_eq_some_iff.mp h
  have hpos : 0 < v.count 0 := List.count_pos_iff.mpr (List.mem_of_getElem? h)
  rw [List.count_set hr, hv]
  simp
  omega

/-- Unmarking what was unmarked restores the array. -/
private theorem set_zero_self {v : List Int} {r : Nat} (h : v[r]? = some 0) : v.set r 0 = v := by
  obtain ⟨hr, hv⟩ := List.getElem?_eq_some_iff.mp h
  rw [← hv]
  exact List.set_getElem_self hr

namespace TwaGraph
variable {A : TwaGraph} {q r n : Nat}

/-- The set holds the ends of the edges that leave the state. -/
private theorem mem_stateSet_foldl (ts : List (Edge A.numStates)) (stateSet : Std.TreeSet Nat) :
    r ∈ ts.foldl (fun stateSet t => if t.dst.val ≠ q then stateSet.insert t.dst.val else stateSet) stateSet ↔
      r ∈ stateSet ∨ ∃ t ∈ ts, t.dst.val = r ∧ r ≠ q := by
  induction ts generalizing stateSet with
  | nil => simp
  | cons t ts ih =>
    rw [List.foldl_cons, ih, List.exists_mem_cons_iff]
    split_ifs with hne
    · rw [Std.TreeSet.mem_insert, Std.LawfulEqCmp.compare_eq_iff_eq]
      have hiff : t.dst.val = r ↔ t.dst.val = r ∧ r ≠ q := ⟨fun h => ⟨h, h ▸ hne⟩, And.left⟩
      rw [← hiff, or_comm (a := t.dst.val = r), or_assoc]
    · have hno : ¬ (t.dst.val = r ∧ r ≠ q) := fun h => hne fun he => h.2 (h.1.symm.trans he)
      rw [or_iff_right hno]

theorem mem_successors : r ∈ A.successors q ↔ ∃ s, A.stateFromNumber q = some s ∧ ∃ t ∈ A.out s, t.dst.val = r ∧ r ≠ q := by
  rw [successors, getStateSet, Std.TreeSet.mem_toList]
  cases hs : A.stateFromNumber q with
  | none => simp
  | some s =>
    rw [Option.map_some, Option.getD_some, mem_stateSet_foldl]
    simp

theorem nodup_successors (q : Nat) : (A.successors q).Nodup :=
  (Std.TreeSet.distinct_toList).imp fun h he => h (Std.LawfulEqCmp.compare_eq_iff_eq.mpr he)

/-- A state among the successors is one of the automaton's. -/
private theorem lt_of_mem_successors (h : r ∈ A.successors q) : r < A.numStates := by
  obtain ⟨s, -, t, -, rfl, -⟩ := mem_successors.mp h
  exact t.dst.isLt

/-- The edges looked at from a state on, with the marks of an array. -/
def searchTrail (A : TwaGraph) (n : Nat) (isVisited : List Int) (q : Nat) : List (List Nat × Nat) :=
  trail A.successors A.stateIsAccepting n (marked isVisited) q

/-- The edges looked at through one successor. -/
def edgesThrough (A : TwaGraph) (n : Nat) (isVisited : List Int) (r : Nat) : List (List Nat × Nat) :=
  ([], r) :: if A.stateIsAccepting r || marked isVisited r then []
    else (A.searchTrail n isVisited r).map fun e => (r :: e.1, e.2)

/-- A mark that the search reads is one of the array's; at accepting states it reads none. -/
def marksInRange (A : TwaGraph) (size : Nat) (edges : List (List Nat × Nat)) : Bool :=
  edges.all fun e => A.stateIsAccepting e.2 || e.2 < size

/-- The stacks of the paths that end in an accepting state. -/
def stacksOf (A : TwaGraph) (path : List Nat) (q : Nat) (edges : List (List Nat × Nat)) : List (List Nat) :=
  (edges.filter fun e => A.stateIsAccepting e.2).map (stackOf path q)

private theorem marksInRange_cons (size : Nat) (e : List Nat × Nat) (edges : List (List Nat × Nat)) :
    A.marksInRange size (e :: edges) = ((A.stateIsAccepting e.2 || e.2 < size) && A.marksInRange size edges) := List.all_cons

private theorem marksInRange_deeper (size r : Nat) (edges : List (List Nat × Nat)) :
    A.marksInRange size (edges.map fun e => (r :: e.1, e.2)) = A.marksInRange size edges := by
  simp [marksInRange, Function.comp_def]

private theorem stacksOf_deeper (path : List Nat) (q r : Nat) (edges : List (List Nat × Nat)) :
    A.stacksOf path q (edges.map fun e => (r :: e.1, e.2)) = A.stacksOf (q :: path) r edges := by
  simp [stacksOf, stackOf, List.filter_map, Function.comp_def]

/-- What a call does from a state that is on top: it adds the paths found from there and
restores the rest, or stops where a mark is missing. -/
def Searches (A : TwaGraph) (n : Nat) (isVisited : List Int) (q : Nat) : Prop :=
  ∀ rest paths path, A.findPaths n ⟨q :: rest, paths, isVisited, path⟩ =
    outcome (A.marksInRange isVisited.length (A.searchTrail n isVisited q))
      ⟨rest, paths ++ A.stacksOf path q (A.searchTrail n isVisited q), isVisited.set q 0, path⟩

private theorem visitNext_eq {isVisited : List Int} (h : marked isVisited r = false → A.Searches n isVisited r)
    (rest path : List Nat) (paths : List (List Nat)) :
    A.visitNext (A.findPaths n) ⟨rest, paths, isVisited, q :: path⟩ r =
      outcome (A.marksInRange isVisited.length (A.edgesThrough n isVisited r))
        ⟨rest, paths ++ A.stacksOf path q (A.edgesThrough n isVisited r), isVisited, q :: path⟩ := by
  rw [visitNext, edgesThrough]
  cases hacc : A.stateIsAccepting r with
  | true => simp [marksInRange, stacksOf, stackOf, outcome, hacc]
  | false =>
    rw [if_neg Bool.false_ne_true]
    cases hmark : isVisited[r]? with
    | none =>
      have hge : isVisited.length ≤ r := List.getElem?_eq_none_iff.mp hmark
      simp [marksInRange, outcome, hacc, marked, hge]
    | some mark =>
      have hlt : r < isVisited.length := (List.getElem?_eq_some_iff.mp hmark).1
      by_cases hzero : mark = 0
      · subst hzero
        have hfree := marked_eq_false_iff.mpr hmark
        have hrange : A.marksInRange isVisited.length
            (([], r) :: (A.searchTrail n isVisited r).map fun e => (r :: e.1, e.2)) =
              A.marksInRange isVisited.length (A.searchTrail n isVisited r) := by
          rw [marksInRange_cons, marksInRange_deeper]
          simp [hlt]
        have hstacks : A.stacksOf path q (([], r) :: (A.searchTrail n isVisited r).map fun e => (r :: e.1, e.2)) =
            A.stacksOf (q :: path) r (A.searchTrail n isVisited r) := by
          rw [← stacksOf_deeper]
          simp [stacksOf, hacc]
        simp only [if_true, hfree, Bool.or_self, Bool.false_eq_true, if_false, hrange, hstacks]
        rw [h hfree, set_zero_self hmark]
      · have hblocked : marked isVisited r = true := by simp [marked, hmark, hzero]
        simp [marksInRange, stacksOf, outcome, hacc, hblocked, hzero, hlt]

/-- The loop over the successors. -/
private theorem visitAll_eq {isVisited : List Int} {rs : List Nat}
    (h : ∀ r ∈ rs, marked isVisited r = false → A.Searches n isVisited r) (rest path : List Nat) (paths : List (List Nat)) :
    rs.foldlM (A.visitNext (A.findPaths n)) ⟨rest, paths, isVisited, q :: path⟩ =
      outcome (A.marksInRange isVisited.length (rs.flatMap (A.edgesThrough n isVisited)))
        ⟨rest, paths ++ A.stacksOf path q (rs.flatMap (A.edgesThrough n isVisited)), isVisited, q :: path⟩ := by
  induction rs generalizing paths with
  | nil => simp [outcome, marksInRange, stacksOf, pure, Except.pure]
  | cons r rs ih =>
    obtain ⟨hr, hrs⟩ := List.forall_mem_cons.mp h
    have hrange : A.marksInRange isVisited.length (A.edgesThrough n isVisited r ++ rs.flatMap (A.edgesThrough n isVisited)) =
        (A.marksInRange isVisited.length (A.edgesThrough n isVisited r) &&
          A.marksInRange isVisited.length (rs.flatMap (A.edgesThrough n isVisited))) := List.all_append
    have hstacks : A.stacksOf path q (A.edgesThrough n isVisited r ++ rs.flatMap (A.edgesThrough n isVisited)) =
        A.stacksOf path q (A.edgesThrough n isVisited r) ++ A.stacksOf path q (rs.flatMap (A.edgesThrough n isVisited)) := by
      simp [stacksOf]
    rw [List.foldlM_cons, visitNext_eq hr, List.flatMap_cons, hrange, hstacks, ← List.append_assoc]
    exact outcome_bind (ih hrs _)

/-- Enough rounds for the states without a mark let the search end by itself. -/
private theorem searches {isVisited : List Int} (hq : q < A.numStates) (hin : q < isVisited.length)
    (hfuel : (isVisited.set q 1).count 0 < n) : A.Searches n isVisited q := by
  induction n generalizing isVisited q with
  | zero => exact absurd hfuel (Nat.not_lt_zero _)
  | succ n ih =>
    intro rest paths path
    obtain ⟨stateSet, hset⟩ : ∃ stateSet, A.getStateSet q = some stateSet :=
      ⟨_, congrArg (Option.map _) (A.stateFromNumber_val ⟨q, hq⟩)⟩
    have hsucc : A.successors q = stateSet.toList := by rw [successors, hset, Option.getD_some]
    have htrail : A.searchTrail (n + 1) isVisited q = stateSet.toList.flatMap (A.edgesThrough n (isVisited.set q 1)) := by
      rw [searchTrail, trail, hsucc, ← marked_set hin]
      rfl
    have hdeeper (r : Nat) (hr : r ∈ stateSet.toList) (hfree : marked (isVisited.set q 1) r = false) :
        A.Searches n (isVisited.set q 1) r := by
      have hmark := marked_eq_false_iff.mp hfree
      have hcount := count_set_one hmark
      exact ih (lt_of_mem_successors (hsucc ▸ hr)) (List.getElem?_eq_some_iff.mp hmark).1 (by omega)
    have hloop := visitAll_eq (q := q) hdeeper (q :: rest) path paths
    rw [← htrail, List.length_set] at hloop
    have hleave (found : List (List Nat)) : leave ⟨q :: rest, found, isVisited.set q 1, q :: path⟩ =
        outcome true ⟨rest, found, isVisited.set q 0, path⟩ := by
      simp [leave, setMark, hin, outcome]
    rw [findPaths]
    simp only [setMark, hin, if_true, ok_bind, hset, hloop]
    rw [outcome_bind (hleave _), Bool.and_true]

/-- More rounds than the array has marks are enough. -/
theorem searches_of_length {isVisited : List Int} (hq : q < A.numStates) (hin : q < isVisited.length)
    (hfuel : isVisited.length < n) : A.Searches n isVisited q := by
  apply searches hq hin
  have hcount := List.count_le_length (a := (0 : Int)) (l := isVisited.set q 1)
  rw [List.length_set] at hcount
  omega

/-- A state follows another by an edge between the two, which are different. -/
def Follows (A : TwaGraph) (a b : Nat) : Prop := ∃ s, A.stateFromNumber a = some s ∧ ∃ t ∈ A.out s, t.dst.val = b ∧ b ≠ a

/-- A path on from a state to one that accepts. The states in between do not accept, are
distinct, and none of them is forbidden. -/
structure PathTo (A : TwaGraph) (forbidden : Nat → Prop) (q : Nat) (l : List Nat) : Prop where
  nonempty : l ≠ []
  follows : (q :: l).IsChain A.Follows
  inner : ∀ x ∈ l.dropLast, A.stateIsAccepting x = false ∧ ¬ forbidden x
  distinct : l.dropLast.Nodup
  accepts : ∀ x ∈ l.getLast?, A.stateIsAccepting x = true

/-- What a search may not pass: the state it starts from, and those visited on entry. -/
def Passed (isVisited : List Int) (q x : Nat) : Prop := x = q ∨ isVisited[x]? ≠ some 0

/-- A way of the search is a path of states that do not accept, between edges of the automaton. -/
theorem way_iff {blocked : Nat → Bool} {l : List Nat} : Way A.successors A.stateIsAccepting blocked q l ↔
    (q :: l).IsChain A.Follows ∧ (∀ x ∈ l, A.stateIsAccepting x = false ∧ x ≠ q ∧ blocked x = false) ∧ l.Nodup := by
  have hedge : (fun a b => b ∈ A.successors a) = A.Follows := by
    funext a b
    exact propext mem_successors
  constructor
  · rintro ⟨hchain, hpasses, hfree, hnodup⟩
    obtain ⟨hq, hl⟩ := List.nodup_cons.mp hnodup
    exact ⟨hedge ▸ hchain, fun x hx => ⟨hpasses x hx, fun he => hq (he ▸ hx), hfree x hx⟩, hl⟩
  · rintro ⟨hchain, hinner, hl⟩
    exact ⟨hedge ▸ hchain, fun x hx => (hinner x hx).1, fun x hx => (hinner x hx).2.2,
      List.nodup_cons.mpr ⟨fun hq => (hinner q hq).2.1 rfl, hl⟩⟩

private theorem pathTo_concat {isVisited : List Int} {l : List Nat} {x : Nat} : A.PathTo (Passed isVisited q) q (l ++ [x]) ↔
    Way A.successors A.stateIsAccepting (marked isVisited) q l ∧ x ∈ A.successors (l.getLastD q) ∧
      A.stateIsAccepting x = true := by
  have hchain : (q :: (l ++ [x])).IsChain A.Follows ↔ (q :: l).IsChain A.Follows ∧ x ∈ A.successors (l.getLastD q) := by
    rw [isChain_concat, mem_successors]
    rfl
  have hpassed (y : Nat) : ¬ Passed isVisited q y ↔ y ≠ q ∧ marked isVisited y = false := by
    rw [Passed, not_or, not_not, marked_eq_false_iff]
  rw [way_iff]
  constructor
  · rintro ⟨-, hfollows, hinner, hdistinct, haccepts⟩
    rw [List.dropLast_concat] at hinner hdistinct
    simp only [hpassed] at hinner
    obtain ⟨hway, hx⟩ := hchain.mp hfollows
    exact ⟨⟨hway, hinner, hdistinct⟩, hx, haccepts x (by simp)⟩
  · rintro ⟨⟨hway, hinner, hdistinct⟩, hx, haccepts⟩
    simp only [← hpassed] at hinner
    refine ⟨List.concat_ne_nil x l, hchain.mpr ⟨hway, hx⟩, ?_, ?_, by simpa using haccepts⟩
    · rwa [List.dropLast_concat]
    · rwa [List.dropLast_concat]

/-- The paths that a search adds, each from the first state's successor to its end. -/
def foundPaths (A : TwaGraph) (n : Nat) (isVisited : List Int) (q : Nat) : List (List Nat) :=
  ((A.searchTrail n isVisited q).filter fun e => A.stateIsAccepting e.2).map fun e => e.1 ++ [e.2]

theorem stacksOf_searchTrail (path : List Nat) (n : Nat) (isVisited : List Int) (q : Nat) :
    A.stacksOf path q (A.searchTrail n isVisited q) = (A.foundPaths n isVisited q).map fun l => (q :: l).reverse ++ path := by
  simp [stacksOf, foundPaths, stackOf, Function.comp_def]

theorem nodup_foundPaths (n : Nat) (isVisited : List Int) (q : Nat) : (A.foundPaths n isVisited q).Nodup := by
  apply ((nodup_trail nodup_successors n (marked isVisited) q).filter _).map
  intro e e' he
  obtain ⟨hl, hx⟩ := List.append_inj' he rfl
  exact Prod.ext hl (List.singleton_inj.mp hx)

/-- The states of a way have marks, so there are no more of them than marks. -/
theorem length_lt_of_way {isVisited : List Int} {l : List Nat}
    (h : Way A.successors A.stateIsAccepting (marked isVisited) q l) (hfuel : isVisited.length < n) : l.length < n := by
  have hsub : l ⊆ List.range isVisited.length := fun x hx => by
    have hmark := marked_eq_false_iff.mp (h.free x hx)
    exact List.mem_range.mpr (List.getElem?_eq_some_iff.mp hmark).1
  have hle := (List.nodup_cons.mp h.nodup).2.length_le_of_subset hsub
  rw [List.length_range] at hle
  omega

theorem mem_foundPaths {isVisited : List Int} (hfuel : isVisited.length < n) {l : List Nat} :
    l ∈ A.foundPaths n isVisited q ↔ A.PathTo (Passed isVisited q) q l := by
  simp only [foundPaths, List.mem_map, List.mem_filter, Prod.exists, searchTrail, mem_trail]
  constructor
  · rintro ⟨w, x, ⟨⟨hway, hx, -⟩, haccepts⟩, rfl⟩
    exact pathTo_concat.mpr ⟨hway, hx, haccepts⟩
  · intro h
    obtain ⟨w, x, rfl⟩ := (List.eq_nil_or_concat' l).resolve_left h.nonempty
    obtain ⟨hway, hx, haccepts⟩ := pathTo_concat.mp h
    exact ⟨w, x, ⟨⟨hway, hx, length_lt_of_way hway hfuel⟩, haccepts⟩, rfl⟩

private theorem marksInRange_of_covers {isVisited : List Int} (hcover : A.numStates ≤ isVisited.length) :
    A.marksInRange isVisited.length (A.searchTrail n isVisited q) = true := by
  rw [marksInRange, List.all_eq_true]
  rintro ⟨l, x⟩ hx
  have hlt := lt_of_mem_successors (mem_trail.mp hx).2.1
  simp
  omega

/-- On an array that covers the states the search ends, adds each path once, and restores
the stacks and the marks except for the first state. -/
theorem find_paths_exact (A : TwaGraph) {q fuel : Nat} {isVisited : List Int} (hq : q < A.numStates)
    (hcover : A.numStates ≤ isVisited.length) (hfuel : isVisited.length < fuel) (rest path : List Nat) (paths : List (List Nat)) :
    ∃ found : List (List Nat),
      A.findPaths fuel ⟨q :: rest, paths, isVisited, path⟩ =
        .ok ⟨rest, paths ++ found.map (fun l => (q :: l).reverse ++ path), isVisited.set q 0, path⟩ ∧
      found.Nodup ∧ ∀ l, l ∈ found ↔ A.PathTo (Passed isVisited q) q l := by
  refine ⟨A.foundPaths fuel isVisited q, ?_, nodup_foundPaths fuel isVisited q, fun l => mem_foundPaths hfuel⟩
  rw [searches_of_length hq (Nat.lt_of_lt_of_le hq hcover) hfuel rest paths path, marksInRange_of_covers hcover,
    stacksOf_searchTrail]
  rfl

end TwaGraph

/-- Three states in a ring with a way back, the last of them accepting. -/
def ringGraph : TwaGraph where
  numStates := 3
  initState := 0
  out := ![[⟨1, .one⟩], [⟨0, .one⟩, ⟨2, .one⟩], [⟨0, .one⟩]]
  accepting := ![false, false, true]
  dict := noNames
  bddvarnum := 0

theorem find_paths_exact_ring :
    ∃ found : List (List Nat),
      ringGraph.findPaths 4 ⟨[0, 7], [], [0, 0, 0], [5]⟩ =
        .ok ⟨[7], [] ++ found.map (fun l => (0 :: l).reverse ++ [5]), [0, 0, 0], [5]⟩ ∧
      found.Nodup ∧ ∀ l, l ∈ found ↔ ringGraph.PathTo (TwaGraph.Passed [0, 0, 0] 0) 0 l :=
  ringGraph.find_paths_exact (by decide) (by decide) (by decide) [7] [5] []

example : (ringGraph.findPaths 4 ⟨[0], [], [0, 0, 0], []⟩).map Search.paths = .ok [[2, 1, 0]] := rfl

end LtlFuzzer.Automata
