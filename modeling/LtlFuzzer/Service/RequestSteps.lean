import LtlFuzzer.Service.SubmitTrace

/-! A trace submission as the sequence of its accesses to what requests share. -/
namespace LtlFuzzer.Service
open Foundation Automata

/-- An automaton's mutex, by the session it belongs to and its place there. -/
abbrev Mutex := Str × Nat

/-- What a request does up to its reply. A test runs its callbacks in order and continues
with the result it reads; an event test first points the shared set at its own. -/
inductive Prog (ρ : Type) where
  | done (reply : ρ)
  | lock (m : Mutex) (next : Prog ρ)
  | unlock (m : Mutex) (next : Prog ρ)
  | trueTest (callbacks : List (List Int)) (next : Bool → Prog ρ)
  | condTest (set : Std.TreeSet Nat) (callbacks : List (List Int)) (next : Bool → Prog ρ)

namespace Prog
variable {ρ : Type}

/-- The reply without other requests. -/
def alone : Prog ρ → Statics → ρ × Statics
  | .done reply, st => (reply, st)
  | .lock _ next, st => next.alone st
  | .unlock _ next, st => next.alone st
  | .trueTest callbacks next, st =>
    let st := callbacks.foldl (fun st c => { st with isTrueCondRes := isTrueCondHelper c }) st
    (next st.isTrueCondRes).alone st
  | .condTest set callbacks next, st =>
    let st := callbacks.foldl (fun st c => { st with checkCondRes := checkCondHelper st.checkCondEvents c })
      { st with checkCondEvents := set }
    (next st.checkCondRes).alone st

/-- Every test runs a callback, so it reads a result of its own. -/
def Steady : Prog ρ → Prop
  | .done _ => True
  | .lock _ next => next.Steady
  | .unlock _ next => next.Steady
  | .trueTest callbacks next => callbacks ≠ [] ∧ ∀ b, (next b).Steady
  | .condTest _ callbacks next => callbacks ≠ [] ∧ ∀ b, (next b).Steady

end Prog

def guardPaths (A : TwaGraph) (t : Edge A.numStates) : List (List Int) :=
  t.cond.diagram.paths.map (profile A.bddvarnum)

/-- The tests of one state's edges. -/
def tryEdgesProg {ρ : Type} (A : TwaGraph) (e : Str) :
    List (Edge A.numStates) → Option (Fin A.numStates) → (Option (Fin A.numStates) → Prog ρ) → Prog ρ
  | [], moved, k => k moved
  | t :: ts, moved, k => .trueTest (guardPaths A t) fun isTrue =>
    if isTrue then tryEdgesProg A e ts (some t.dst) k
    else .condTest (eventIndices A.dict ((∅ : StrSet).insert e)) (guardPaths A t) fun sat =>
      if sat then k (some t.dst) else tryEdgesProg A e ts moved k

/-- The tests of a list of events. -/
def checkFromProg {ρ : Type} (A : TwaGraph) :
    Fin A.numStates → List Str → (List MCState → Prog ρ) → Prog ρ
  | _, [], k => k []
  | s, e :: es, k => tryEdgesProg A e (A.out s) none fun
    | some s' => checkFromProg A s' es fun rest => k (A.entry s' :: rest)
    | none => k [deadEnd]

/-- A reply, or none where the code reads past an empty list. -/
abbrev Reply := Option (Status × CheckResult)

/-- The lock is held while one automaton checks the events. -/
def checkSessionProg (uuid : Str) (events : List Str) : Nat → List SessionAutomaton → CheckResult → Prog Reply
  | _, [], result => .done (some (⟨.ok, []⟩, result))
  | i, a :: as, result => .lock (uuid, i) <|
    checkFromProg a.graph a.graph.initState events fun states => .unlock (uuid, i) <|
      match verdict states with
      | none => .done none
      | some accepted =>
        checkSessionProg uuid events (i + 1) as
          (if accepted then ⟨true, result.violations ++ [violation a]⟩ else result)

def submitProg (storage : Storage) (request : TraceInput) : Prog Reply :=
  match storage[request.uuid]? with
  | none => .done (some (⟨.invalidArgument, "UUID Not found".toList⟩, ⟨false, []⟩))
  | some session => checkSessionProg request.uuid (traceEvents request.trace) 0 session ⟨false, []⟩

variable {ρ : Type}

private theorem foldl_trueCells (l : List (List Int)) (hl : l ≠ []) (st : Statics) :
    (l.foldl (fun st c => { st with isTrueCondRes := isTrueCondHelper c }) st).isTrueCondRes =
      isTrueCondHelper (l.getLast hl) := by
  induction l using List.reverseRecOn with
  | nil => exact absurd rfl hl
  | append_singleton l c _ => simp

private theorem foldl_condCells (l : List (List Int)) (hl : l ≠ []) (st : Statics) :
    (l.foldl (fun st c => { st with checkCondRes := checkCondHelper st.checkCondEvents c }) st).checkCondRes =
      checkCondHelper st.checkCondEvents (l.getLast hl) := by
  have hset (l : List (List Int)) (st : Statics) :
      (l.foldl (fun st c => { st with checkCondRes := checkCondHelper st.checkCondEvents c }) st).checkCondEvents =
        st.checkCondEvents := by
    induction l generalizing st with
    | nil => rfl
    | cons c l ih => exact ih _
  induction l using List.reverseRecOn with
  | nil => exact absurd rfl hl
  | append_singleton l c _ => simp [hset]

/-- A steady program's reply does not depend on what the cells held before. -/
theorem Prog.Steady.alone_eq {p : Prog ρ} (h : p.Steady) (st st' : Statics) :
    (p.alone st).1 = (p.alone st').1 := by
  induction p generalizing st st' with
  | done reply => rfl
  | lock m next ih => exact ih h st st'
  | unlock m next ih => exact ih h st st'
  | trueTest callbacks next ih =>
    simp only [Prog.alone]
    rw [foldl_trueCells callbacks h.1, foldl_trueCells callbacks h.1]
    exact ih _ (h.2 _) _ _
  | condTest set callbacks next ih =>
    simp only [Prog.alone]
    rw [foldl_condCells callbacks h.1, foldl_condCells callbacks h.1]
    exact ih _ (h.2 _) _ _

private theorem alone_trueTest (A : TwaGraph) (t : Edge A.numStates) (next : Bool → Prog ρ) (st : Statics) :
    (Prog.trueTest (guardPaths A t) next).alone st =
      (next (isTrueCond A.bddvarnum t.cond st).1).alone (isTrueCond A.bddvarnum t.cond st).2 := rfl

private theorem alone_condTest (A : TwaGraph) (t : Edge A.numStates) (events : StrSet) (next : Bool → Prog ρ)
    (st : Statics) :
    (Prog.condTest (eventIndices A.dict events) (guardPaths A t) next).alone st =
      (next (checkCond A.bddvarnum A.dict t.cond events st).1).alone
        (checkCond A.bddvarnum A.dict t.cond events st).2 := rfl

private theorem alone_tryEdgesProg (A : TwaGraph) (e : Str) (ts : List (Edge A.numStates))
    (moved : Option (Fin A.numStates)) (k : Option (Fin A.numStates) → Prog ρ) (st : Statics) :
    (tryEdgesProg A e ts moved k).alone st =
      (k (A.tryEdges A.dict e ts moved st).1).alone (A.tryEdges A.dict e ts moved st).2 := by
  induction ts generalizing moved st with
  | nil => rfl
  | cons t ts ih =>
    rw [tryEdgesProg, alone_trueTest, TwaGraph.tryEdges]
    generalize isTrueCond A.bddvarnum t.cond st = isTrue
    obtain ⟨_ | _, st'⟩ := isTrue
    · simp only [Bool.false_eq_true, if_false]
      rw [alone_condTest]
      generalize checkCond A.bddvarnum A.dict t.cond ((∅ : StrSet).insert e) st' = sat
      obtain ⟨_ | _, st''⟩ := sat
      · exact ih moved st''
      · rfl
    · exact ih (some t.dst) st'

private theorem alone_checkFromProg (A : TwaGraph) (s : Fin A.numStates) (es : List Str)
    (k : List MCState → Prog ρ) (st : Statics) :
    (checkFromProg A s es k).alone st =
      (k (A.checkFrom A.dict s es st).1).alone (A.checkFrom A.dict s es st).2 := by
  induction es generalizing s k st with
  | nil => rfl
  | cons e es ih =>
    rw [checkFromProg, alone_tryEdgesProg, TwaGraph.checkFrom]
    generalize A.tryEdges A.dict e (A.out s) none st = r
    obtain ⟨_ | s', st'⟩ := r
    · rfl
    · exact ih s' _ st'

private theorem alone_checkSessionProg (uuid : Str) (events : List Str) (i : Nat)
    (session : List SessionAutomaton) (result : CheckResult) (st : Statics) :
    ((checkSessionProg uuid events i session result).alone st).1 =
      (checkSession events session result st).map fun r => (⟨.ok, []⟩, r.1) := by
  induction session generalizing i result st with
  | nil => rfl
  | cons a as ih =>
    rw [checkSessionProg, Prog.alone, alone_checkFromProg, Prog.alone, checkSession]
    change _ = Option.map _ (match verdict (a.graph.checkFrom a.graph.dict a.graph.initState events st).1 with
      | none => none
      | some accepted => checkSession events as
        (if accepted then ⟨true, result.violations ++ [violation a]⟩ else result)
          (a.graph.checkFrom a.graph.dict a.graph.initState events st).2)
    cases verdict (a.graph.checkFrom a.graph.dict a.graph.initState events st).1 with
    | none => rfl
    | some accepted => exact ih _ _ _

/-- Alone, the program gives the reply of the sequential service. -/
theorem alone_submitProg (storage : Storage) (request : TraceInput) (st : Statics) :
    ((submitProg storage request).alone st).1 = (submitTrace storage request st).map Prod.fst := by
  rw [submitProg, submitTrace]
  cases storage[request.uuid]? with
  | none => rfl
  | some session =>
    simp only [alone_checkSessionProg, Option.map_map]
    rfl

private theorem steady_tryEdgesProg {A : TwaGraph} (hA : A.NonFalse) {q : Fin A.numStates} (e : Str)
    (ts : List (Edge A.numStates)) (hts : ts ⊆ A.out q) (moved : Option (Fin A.numStates))
    {k : Option (Fin A.numStates) → Prog ρ} (hk : ∀ m, (k m).Steady) : (tryEdgesProg A e ts moved k).Steady := by
  induction ts generalizing moved with
  | nil => exact hk moved
  | cons t ts ih =>
    have hne : guardPaths A t ≠ [] := by
      simpa [guardPaths] using t.cond.paths_ne_nil (hA q t (hts List.mem_cons_self))
    have hrest := ih fun t ht => hts (List.mem_cons_of_mem _ ht)
    refine ⟨hne, fun isTrue => ?_⟩
    cases isTrue with
    | true => exact hrest (some t.dst)
    | false =>
      refine ⟨hne, fun sat => ?_⟩
      cases sat with
      | true => exact hk (some t.dst)
      | false => exact hrest moved

private theorem steady_checkFromProg {A : TwaGraph} (hA : A.NonFalse) (s : Fin A.numStates) (es : List Str)
    {k : List MCState → Prog ρ} (hk : ∀ ms, (k ms).Steady) : (checkFromProg A s es k).Steady := by
  induction es generalizing s k with
  | nil => exact hk []
  | cons e es ih =>
    apply steady_tryEdgesProg hA e (A.out s) (List.Subset.refl _)
    intro m
    cases m with
    | none => exact hk [deadEnd]
    | some s' => exact ih s' fun ms => hk (A.entry s' :: ms)

private theorem steady_checkSessionProg (uuid : Str) (events : List Str) (i : Nat)
    (session : List SessionAutomaton) (result : CheckResult) :
    (checkSessionProg uuid events i session result).Steady := by
  induction session generalizing i result with
  | nil => trivial
  | cons a as ih =>
    apply steady_checkFromProg a.nonFalse
    intro ms
    change Prog.Steady (match verdict ms with
      | none => .done none
      | some accepted => checkSessionProg uuid events (i + 1) as
        (if accepted then ⟨true, result.violations ++ [violation a]⟩ else result))
    cases verdict ms with
    | none => trivial
    | some accepted => exact ih _ _

theorem steady_submitProg (storage : Storage) (request : TraceInput) : (submitProg storage request).Steady := by
  rw [submitProg]
  cases storage[request.uuid]? with
  | none => trivial
  | some session => exact steady_checkSessionProg _ _ _ _ _

end LtlFuzzer.Service
