import LtlFuzzer.Fuzzer.EventSelection
import LtlFuzzer.Fuzzer.LtlFile
import LtlFuzzer.Instrumentation.PathStates
import LtlFuzzer.Service.Preparations

/-! The states that a stored path can end in, and the selections made there from nothing. -/
namespace LtlFuzzer.Fuzzer
open Foundation Automata Numerals Delimiters Instrumentation Service

/-- A move of the checker on some event. -/
def Moves (A : TwaGraph) (q r : Fin A.numStates) : Prop := ∃ e, A.preferred q e = some r

/-- What a recorder of either kind can hold. -/
def Recorded (b : CodeBean) (flag : Bool) : Prop :=
  if flag then ∃ calls, b = recordCalls calls else ∃ names pairs, b = recordPairs names pairs

/-- The path that the fuzzer starts with, or one extracted from a recorded trace. -/
def StoredPath (A : TwaGraph) (aPath : Str) : Prop :=
  aPath = ['0', ','] ∨ ∃ b flag st pfx, Recorded b flag ∧
    extractPrefixAutomataPath b (A.modelCheckEvents (b.trace flag) st).1 flag = .ok (aPath, pfx)

def EndsPath (A : TwaGraph) (q : Fin A.numStates) : Prop :=
  ∃ aPath, StoredPath A aPath ∧ aPath ≠ [] ∧ Utils.getLastState aPath = showInt q.val

/-- State 0, or a state that is moved to from the initial one. -/
def Reached (A : TwaGraph) (q : Fin A.numStates) : Prop := q.val = 0 ∨ Relation.TransGen (Moves A) A.initState q

variable {A : TwaGraph} {q r : Fin A.numStates}

private theorem stoi_state (q : Fin A.numStates) : stoi (showInt q.val) = some (q.val : Int) :=
  stoi_showInt (stateNumber_range q).1 (stateNumber_range q).2

private theorem showInt_state_inj (h : showInt q.val = showInt r.val) : q = r := by
  have := stoi_state q
  rw [h, stoi_state r] at this
  exact Fin.ext (Int.ofNat.inj (Option.some.inj this).symm)

/-- The last state of a followed run was moved to. -/
private theorem transGen_of_follow (es : List Str) (h : (genuine (A.follow q es)).getLast? = some (r.val : Int)) :
    Relation.TransGen (Moves A) q r := by
  induction es generalizing q with
  | nil => cases h
  | cons e es ih =>
    cases hs : A.preferred q e with
    | none =>
      rw [TwaGraph.follow_of_none hs] at h
      cases h
    | some s =>
      rw [TwaGraph.follow_of_preferred hs, genuine_entry, List.getLast?_cons, Option.some_inj] at h
      cases hlast : (genuine (A.follow s es)).getLast? with
      | none =>
        rw [hlast, Option.getD_none] at h
        obtain rfl : s = r := Fin.ext (Int.ofNat.inj h)
        exact .single ⟨e, hs⟩
      | some n =>
        rw [hlast, Option.getD_some] at h
        exact .head ⟨e, hs⟩ (ih (h ▸ hlast))

private theorem exists_follow (h : Relation.TransGen (Moves A) q r) :
    ∃ (es : List Str) (ss : List (Fin A.numStates)), A.follow q es = ss.map A.entry ∧ ss.getLast? = some r := by
  induction h using Relation.TransGen.head_induction_on with
  | single hmove =>
    obtain ⟨e, he⟩ := hmove
    exact ⟨[e], [r], by rw [TwaGraph.follow_of_preferred he]; rfl, rfl⟩
  | head hmove _ ih =>
    obtain ⟨e, he⟩ := hmove
    obtain ⟨es, ss, hfollow, hlast⟩ := ih
    refine ⟨e :: es, _ :: ss, by rw [TwaGraph.follow_of_preferred he, hfollow, List.map_cons], ?_⟩
    rw [List.getLast?_cons, hlast, Option.getD_some]

private theorem pathIsRun_of_recorded (hA : A.NonFalse) {b : CodeBean} {flag : Bool} (h : Recorded b flag) (st : Statics) :
    PathIsRun A b flag st := by
  cases flag with
  | true =>
    obtain ⟨calls, rfl⟩ := h
    exact pathIsRun_recordCalls hA calls st
  | false =>
    obtain ⟨names, pairs, rfl⟩ := h
    exact pathIsRun_recordPairs hA names pairs st

private theorem reached_of_endsPath (hA : A.NonFalse) (h : EndsPath A q) : Reached A q := by
  obtain ⟨aPath, rfl | ⟨b, flag, st, pfx, hrec, hx⟩, hne, hlast⟩ := h
  · left
    have hstoi := stoi_state q
    rw [← hlast] at hstoi
    have hzero : stoi (Utils.getLastState ['0', ',']) = some 0 := rfl
    rw [hzero, Option.some_inj] at hstoi
    omega
  · right
    obtain ⟨ss, aPath', pfx', hg, hx', -, -, hend⟩ := pathIsRun_of_recorded hA hrec st
    obtain ⟨rfl, rfl⟩ := Prod.mk.inj (Except.ok.inj (hx.symm.trans hx'))
    obtain ⟨s, hs, hread, -⟩ := hend hne
    obtain rfl : s = q := showInt_state_inj (hread.symm.trans hlast)
    apply transGen_of_follow (b.trace flag)
    rw [← TwaGraph.modelCheckEvents_eq_follow hA _ st, hg, List.getLast?_map, hs]
    rfl

/-- The events of the moves, recorded as a protocol, give a path that ends where they lead. -/
private theorem endsPath_of_moves (hA : A.NonFalse) (h : Relation.TransGen (Moves A) A.initState q) : EndsPath A q := by
  obtain ⟨es, ss, hfollow, hlast⟩ := exists_follow h
  let calls := es.map Call.propositionHandler
  have htrace : (recordCalls calls).trace true = es := by
    change (recordCalls calls).traceProtocol = es
    rw [traceProtocol_recordCalls, List.filterMap_map]
    exact List.filterMap_some
  obtain ⟨ss', aPath, pfx, hg, hx, hdecode, -, hend⟩ := pathIsRun_recordCalls hA calls {}
  have hsame : ss'.map (fun s => (s.val : Int)) = ss.map fun s => (s.val : Int) := by
    have hgenuine := genuine_entries ss false
    rw [if_neg (by simp), List.append_nil] at hgenuine
    rw [← hg, htrace, TwaGraph.modelCheckEvents_eq_follow hA, hfollow, hgenuine]
  obtain rfl : ss' = ss := List.map_injective_iff.mpr (fun s s' he => Fin.ext (Int.ofNat.inj he)) hsame
  have hne : aPath ≠ [] := by
    rintro rfl
    have hnil : (ss'.map fun s => (s.val : Int)).destutter (· ≠ ·) = [] := (Option.some.inj hdecode).symm
    rw [List.destutter_eq_nil, List.map_eq_nil_iff] at hnil
    rw [hnil] at hlast
    cases hlast
  obtain ⟨s, hs, hread, -⟩ := hend hne
  rw [hlast, Option.some_inj] at hs
  exact ⟨aPath, .inr ⟨_, true, {}, pfx, ⟨calls, rfl⟩, hx⟩, hne, hs ▸ hread⟩

/-- The states that a stored path can end in. -/
theorem endsPath_iff (hA : A.NonFalse) : EndsPath A q ↔ Reached A q := by
  refine ⟨reached_of_endsPath hA, fun h => ?_⟩
  rcases h with hzero | hmoves
  · exact ⟨_, .inl rfl, by simp, by rw [hzero]; rfl⟩
  · exact endsPath_of_moves hA hmoves

/-- How a selection can end without an event: text that is no number, a number that is no
state, or a choice from nothing. -/
inductive Halt where
  | badNumber
  | noState
  | divisionByZero
  deriving DecidableEq, Repr

def select {α : Type} (draw : Nat) (m : List α) : Except Halt α :=
  match drawn draw m with
  | some a => .ok a
  | none => .error .divisionByZero

/-- `selectTran`, with the reason where it gives nothing. -/
def selectTranOrHalt (A : TwaGraph) (curState aPath : Str) (draw : Nat) : Except Halt AutomataTransition :=
  match pathStates aPath, stoi curState with
  | some sPath, some state => match A.stateFromNumber state with
    | some q => select draw ((leaving sPath (A.getStateTransitions q)).map fun e => ⟨e.1, showInt e.2⟩)
    | none => .error .noState
  | _, _ => .error .badNumber

/-- `selectEvent`, with the reason where it gives nothing. -/
def selectEventOrHalt (A : TwaGraph) (allEvents : StrSet) (curState aPath : Str) (rolls : Rolls) : Except Halt Str := do
  let tran ← selectTranOrHalt A curState aPath rolls.tran
  let prop ← select rolls.proposition tran.propositions
  select rolls.event (choices allEvents (extractPropositionEvents prop))

/-- Every selection made from a state where a stored path ends has something to choose from. -/
def NeverDivides (A : TwaGraph) (allEvents : StrSet) : Prop :=
  ∀ q, EndsPath A q → ∀ aPath rolls, selectEventOrHalt A allEvents (showInt q.val) aPath rolls ≠ .error .divisionByZero

/-- A state has an edge, and events go with the cubes of its guards that name no event. -/
def Supplied (A : TwaGraph) (allEvents : StrSet) (q : Fin A.numStates) : Prop :=
  A.out q ≠ [] ∧ ∀ t ∈ A.out q, ∀ cube ∈ getCond A.bddvarnum A.dict t.cond, AllNegated cube →
    ∃ e ∈ allEvents, cube.toList ≠ [] → e ≠ []

section
variable {α : Type} {m : List α}

theorem select_ok_of_drawn {draw : Nat} {a : α} (h : drawn draw m = some a) : select draw m = .ok a := by
  rw [select, h]

/-- A choice from something succeeds, one from nothing divides by zero. -/
theorem exists_mem_select (h : m ≠ []) (draw : Nat) : ∃ a ∈ m, select draw m = .ok a := by
  obtain ⟨a, ha, hdrawn⟩ := drawn_isSome h draw
  exact ⟨a, ha, select_ok_of_drawn hdrawn⟩

theorem exists_select_of_mem {a : α} (h : a ∈ m) : ∃ draw, select draw m = .ok a := by
  obtain ⟨draw, hdrawn⟩ := exists_drawn_iff.mpr h
  exact ⟨draw, select_ok_of_drawn hdrawn⟩

theorem select_toOption (draw : Nat) (m : List α) : (select draw m).toOption = drawn draw m := by
  rw [select]
  cases drawn draw m <;> rfl

end

/-- Apart from the reason, the selection is the one without it. -/
theorem selectEventOrHalt_toOption (A : TwaGraph) (allEvents : StrSet) (curState aPath : Str) (rolls : Rolls) :
    (selectEventOrHalt A allEvents curState aPath rolls).toOption = selectEvent A allEvents curState aPath rolls := by
  have hbind {α β : Type} (x : Except Halt α) (f : α → Except Halt β) :
      (x >>= f).toOption = x.toOption >>= fun a => (f a).toOption := by
    cases x <;> rfl
  have htran : (selectTranOrHalt A curState aPath rolls.tran).toOption = selectTran A curState aPath rolls.tran := by
    rw [selectTranOrHalt, selectTran]
    cases pathStates aPath with
    | none => rfl
    | some sPath => cases stoi curState with
      | none => rfl
      | some state => cases hq : A.stateFromNumber state with
        | none => simp [hq, Except.toOption]
        | some q => simp [hq, select_toOption]
  rw [selectEventOrHalt, hbind, htran, selectEvent]
  refine congrArg _ (funext fun tran => ?_)
  rw [hbind, select_toOption, selectProposition]
  exact congrArg _ (funext fun prop => select_toOption _ _)

private theorem selectTranOrHalt_eq {curState aPath : Str} {sPath : Std.TreeSet Int} (hp : pathStates aPath = some sPath)
    (hc : stoi curState = some (q.val : Int)) (draw : Nat) :
    selectTranOrHalt A curState aPath draw = select draw ((candidates A sPath q).map fun t =>
      ⟨getCond A.bddvarnum A.dict t.cond, showInt (t.dst.val : Int)⟩) := by
  simp only [selectTranOrHalt, hp, hc, TwaGraph.stateFromNumber_val, leaving_eq, List.map_map]
  rfl

private theorem candidates_ne_nil (sPath : Std.TreeSet Int) (h : A.out q ≠ []) : candidates A sPath q ≠ [] := by
  rw [candidates]
  split_ifs with hout
  · exact h
  · exact hout

/-- A path of a number that no state has. -/
private theorem candidates_elsewhere : candidates A ((∅ : Std.TreeSet Int).insert (-1)) q = A.out q := by
  have hall : (A.out q).filter (fun t => (t.dst.val : Int) ∉ (∅ : Std.TreeSet Int).insert (-1)) = A.out q := by
    apply List.filter_eq_self.mpr
    intro t _
    have hne : (t.dst.val : Int) ≠ -1 := by omega
    simp [hne.symm]
  rw [candidates, hall]
  split_ifs <;> rfl

/-- The events of a cube. -/
private theorem choices_ne_nil_iff (allEvents cube : StrSet) :
    choices allEvents (extractPropositionEvents cube) ≠ [] ↔
      (AllNegated cube → ∃ e ∈ allEvents, cube.toList ≠ [] → e ≠ []) := by
  rcases mem_choices allEvents cube with ⟨hneg, hiff⟩ | ⟨lit, hlit, hpos, hiff⟩
  · rw [← List.isEmpty_eq_false_iff, List.isEmpty_eq_false_iff_exists_mem]
    simp only [hneg, hiff, forall_true_left]
  · exact iff_of_true (List.ne_nil_of_mem ((hiff lit).mpr rfl)) fun hneg => absurd (hneg lit hlit) hpos

/-- Some path and some draws lead to every edge and every cube. -/
private theorem supplied_of_neverDivides {allEvents : StrSet}
    (h : ∀ aPath rolls, selectEventOrHalt A allEvents (showInt q.val) aPath rolls ≠ .error .divisionByZero) :
    Supplied A allEvents q := by
  have hpath : pathStates ['-', '1', ','] = some ((∅ : Std.TreeSet Int).insert (-1)) := rfl
  have htran (draw : Nat) := selectTranOrHalt_eq hpath (stoi_state q) draw
  rw [candidates_elsewhere] at htran
  constructor
  · intro hout
    apply h ['-', '1', ','] ⟨0, 0, 0⟩
    rw [selectEventOrHalt, htran, hout]
    rfl
  · intro t ht cube hcube
    rw [← choices_ne_nil_iff]
    intro hnone
    obtain ⟨d₁, h₁⟩ := exists_select_of_mem (List.mem_map_of_mem (f := fun t : Edge A.numStates =>
      (⟨getCond A.bddvarnum A.dict t.cond, showInt (t.dst.val : Int)⟩ : AutomataTransition)) ht)
    obtain ⟨d₂, h₂⟩ := exists_select_of_mem hcube
    apply h ['-', '1', ','] ⟨d₁, d₂, 0⟩
    rw [selectEventOrHalt, htran, h₁, Faults.ok_bind, h₂, Faults.ok_bind, hnone]
    rfl

private theorem neverDivides_of_supplied (hA : A.NonFalse) {allEvents : StrSet} (h : Supplied A allEvents q)
    (aPath : Str) (rolls : Rolls) : selectEventOrHalt A allEvents (showInt q.val) aPath rolls ≠ .error .divisionByZero := by
  obtain ⟨hout, hcubes⟩ := h
  cases hp : pathStates aPath with
  | none => simp [selectEventOrHalt, selectTranOrHalt, hp, bind, Except.bind]
  | some sPath =>
    have hmap : ((candidates A sPath q).map fun t =>
        (⟨getCond A.bddvarnum A.dict t.cond, showInt (t.dst.val : Int)⟩ : AutomataTransition)) ≠ [] :=
      mt List.map_eq_nil_iff.mp (candidates_ne_nil sPath hout)
    obtain ⟨tran, hmem, h₁⟩ := exists_mem_select hmap rolls.tran
    obtain ⟨t, ht, rfl⟩ := List.mem_map.mp hmem
    have ht := candidates_subset ht
    obtain ⟨cube, hcube, h₂⟩ := exists_mem_select (TwaGraph.getCond_ne_nil (hA q t ht)) rolls.proposition
    obtain ⟨e, -, h₃⟩ := exists_mem_select ((choices_ne_nil_iff allEvents cube).mpr (hcubes t ht cube hcube)) rolls.event
    rw [selectEventOrHalt, selectTranOrHalt_eq hp (stoi_state q), h₁, Faults.ok_bind, h₂, Faults.ok_bind, h₃]
    simp

/-- Over all paths and draws a state has something to choose from exactly when it is supplied. -/
private theorem neverDividesAt_iff (hA : A.NonFalse) (allEvents : StrSet) (q : Fin A.numStates) :
    (∀ aPath rolls, selectEventOrHalt A allEvents (showInt q.val) aPath rolls ≠ .error .divisionByZero) ↔
      Supplied A allEvents q :=
  ⟨supplied_of_neverDivides, fun h => neverDivides_of_supplied hA h⟩

/-- A list of events with some text has an event with some. -/
private theorem exists_event_of_setToString {allEvents : StrSet} (h : setToString allEvents ≠ []) :
    ∃ e ∈ allEvents, e ≠ [] := by
  by_contra hnone
  push Not at hnone
  have hempty : ∀ e ∈ allEvents.toList, e = [] := fun e he => hnone e (Std.TreeSet.mem_toList.mp he)
  have hdistinct := allEvents.distinct_toList
  apply h
  rw [setToString]
  cases hl : allEvents.toList with
  | nil => rfl
  | cons x l =>
    rw [hl] at hempty hdistinct
    obtain ⟨hx, hrest⟩ := List.forall_mem_cons.mp hempty
    cases l with
    | nil => rw [hx]; rfl
    | cons y l =>
      have hy := hrest y List.mem_cons_self
      have hne := (List.pairwise_cons.mp hdistinct).1 y List.mem_cons_self
      rw [hx, hy] at hne
      exact absurd Std.ReflCmp.compare_self hne

/-- The events never run out exactly when every state that a stored path can end in is supplied.
With the events themselves as the exclusive group it is enough that each has an edge. -/
theorem select_never_divides_iff {φ : Type} (spot : Spot φ) (formula : Str) {exclusive : Str}
    (hexcl : spot.exclFormulas exclusive ≠ []) (allEvents : StrSet) :
    ∀ atm, spot.setFormula formula exclusive = .ok atm →
      (NeverDivides atm.graph allEvents ↔ ∀ q, Reached atm.graph q → Supplied atm.graph allEvents q) ∧
      (exclusive = setToString allEvents →
        (NeverDivides atm.graph allEvents ↔ ∀ q, Reached atm.graph q → atm.graph.out q ≠ [])) := by
  intro atm _
  have hstates : NeverDivides atm.graph allEvents ↔ ∀ q, Reached atm.graph q → Supplied atm.graph allEvents q := by
    simp only [NeverDivides, neverDividesAt_iff atm.nonFalse, endsPath_iff atm.nonFalse]
  refine ⟨hstates, fun hown => ?_⟩
  rw [hstates]
  obtain ⟨e, he, hne⟩ : ∃ e ∈ allEvents, e ≠ [] := by
    apply exists_event_of_setToString
    rintro hempty
    rw [hown, hempty] at hexcl
    exact hexcl (by simp [Spot.exclFormulas, getlines])
  refine forall₂_congr fun q _ => ⟨And.left, fun hout => ⟨hout, fun _ _ _ _ _ => ⟨e, he, fun _ => hne⟩⟩⟩

/-- The guard a & b over variables 0 and 1. -/
def both : Robdd Nat := ⟨.node 0 .zero (.node 1 .zero .one), ⟨id, by simp [Bdd.OrderedFrom]⟩, by simp [Bdd.Reduced]⟩

/-- The graph of G(a & b). -/
def alwaysBoth : TwaGraph where
  numStates := 1
  initState := 0
  out := ![[⟨0, both⟩]]
  accepting := ![true]
  dict := dictAB
  bddvarnum := 2
  allocated := eitherGraph.allocated

/-- Where a and b exclude each other, nothing is left of its edge. -/
def edgeless : TwaGraph where
  numStates := 1
  initState := 0
  out := ![[]]
  accepting := ![true]
  dict := dictAB
  bddvarnum := 2
  allocated := eitherGraph.allocated

/-- A library that knows this formula and this group. -/
def bothSpot : Spot Str where
  parseInfixPsl s := (s, none)
  str f := f
  run _ := ⟨alwaysBoth, by unfold TwaGraph.NonFalse; decide⟩
  constrain group graph := if group = [['a'], ['b']] then ⟨edgeless, by unfold TwaGraph.NonFalse; decide⟩ else graph
  propStateAcc _ := true
  isBuchi _ := true

/-- From the path that the fuzzer starts with, an edge is to be chosen from none. -/
theorem select_divides_by_zero :
    "a,b".toList = setToString eventsAB ∧ bothSpot.exclFormulas "a,b".toList ≠ [] ∧
      ∃ atm, bothSpot.setFormula "G(a & b)".toList "a,b".toList = .ok atm ∧
        ∃ q, EndsPath atm.graph q ∧
          selectEventOrHalt atm.graph eventsAB (showInt q.val) ['0', ','] ⟨0, 0, 0⟩ = .error .divisionByZero :=
  ⟨by decide, by decide, _, rfl, ⟨0, by decide⟩, ⟨['0', ','], .inl rfl, by simp, rfl⟩, rfl⟩

def eventsA : StrSet := (∅ : StrSet).insert ['a']

/-- A group of one event excludes nothing. -/
theorem select_never_divides_iff_recurrent :
    recurrentSpot.exclFormulas ['a'] ≠ [] ∧ ∀ atm, recurrentSpot.setFormula "GFa".toList ['a'] = .ok atm →
      (NeverDivides atm.graph eventsA ↔ ∀ q, Reached atm.graph q → Supplied atm.graph eventsA q) ∧
      (['a'] = setToString eventsA →
        (NeverDivides atm.graph eventsA ↔ ∀ q, Reached atm.graph q → atm.graph.out q ≠ [])) := by
  have hexcl : recurrentSpot.exclFormulas ['a'] ≠ [] := by decide
  exact ⟨hexcl, select_never_divides_iff recurrentSpot "GFa".toList hexcl eventsA⟩

end LtlFuzzer.Fuzzer
