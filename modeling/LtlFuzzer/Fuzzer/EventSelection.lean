import LtlFuzzer.Automata.Transitions
import LtlFuzzer.Foundation.Delimiters
import LtlFuzzer.Foundation.Draws
import LtlFuzzer.Foundation.Numerals

/-! Choosing the event that should drive the automaton out of its path. -/
namespace LtlFuzzer.Fuzzer
open Foundation Automata Numerals

structure AutomataTransition where
  propositions : List StrSet
  nextState : Str

inductive EventType where
  | accept
  | reject
  deriving DecidableEq, Repr

structure EventSet where
  events : StrSet
  eventType : EventType

/-- The states of a path; a piece that is no number is an exception. -/
def pathStates (aPath : Str) : Option (Std.TreeSet Int) :=
  ((aPath.dropLast.splitOn ',').mapM stoi).map fun vPath => vPath.foldl (fun s n => s.insert n) ∅

/-- The transitions that leave the path, else all of them. -/
def leaving (sPath : Std.TreeSet Int) (trans : Transitions) : Transitions :=
  let outside := trans.filter fun e => e.2 ∉ sPath
  if outside = [] then trans else outside

def selectTran (A : TwaGraph) (curState aPath : Str) (draw : Nat) : Option AutomataTransition := do
  let sPath ← pathStates aPath
  let state ← stoi curState
  let q ← A.stateFromNumber state
  drawn draw ((leaving sPath (A.getStateTransitions q)).map fun e => ⟨e.1, showInt e.2⟩)

def selectProposition (tran : AutomataTransition) (draw : Nat) : Option StrSet := drawn draw tran.propositions

/-- Erasing from a position on. -/
def eraseFrom (s : Str) (pos : Nat) : Str := s.take pos

/-- The loop over a proposition's texts: the first that is not negated is the only
event accepted. -/
def extractEvents : List Str → StrSet → EventSet
  | [], eSet => ⟨eSet, .reject⟩
  | e :: es, eSet =>
    if e.head? = some '!' then extractEvents es (eSet.insert (eraseFrom e 0))
    else ⟨(∅ : StrSet).insert e, .accept⟩

def extractPropositionEvents (prop : StrSet) : EventSet := extractEvents prop.toList ∅

/-- The events to choose from. -/
def choices (allEvents : StrSet) (eSet : EventSet) : List Str :=
  match eSet.eventType with
  | .accept => eSet.events.toList
  | .reject => allEvents.toList.filter fun e => e ∉ eSet.events

/-- The three draws of one selection. -/
structure Rolls where
  tran : Nat
  proposition : Nat
  event : Nat

def selectEvent (A : TwaGraph) (allEvents : StrSet) (curState aPath : Str) (rolls : Rolls) : Option Str := do
  let tran ← selectTran A curState aPath rolls.tran
  let prop ← selectProposition tran rolls.proposition
  drawn rolls.event (choices allEvents (extractPropositionEvents prop))

/-- The edges a selection can take. -/
def candidates (A : TwaGraph) (sPath : Std.TreeSet Int) (q : Fin A.numStates) : List (Edge A.numStates) :=
  let outside := (A.out q).filter fun t => (t.dst.val : Int) ∉ sPath
  if outside = [] then A.out q else outside

/-- An event takes an edge, and one that leaves the path where there is one. -/
def Advances (A : TwaGraph) (sPath : Std.TreeSet Int) (q : Fin A.numStates) (e : Str) : Prop :=
  ∃ t ∈ A.out q, A.Sat t.cond (exactly e) ∧
    ((∃ t' ∈ A.out q, (t'.dst.val : Int) ∉ sPath) → (t.dst.val : Int) ∉ sPath)

/-- Every literal of the cube begins with an exclamation mark. -/
def AllNegated (cube : StrSet) : Prop := ∀ lit ∈ cube, lit.head? = some '!'

/-- No cube of a guard has two positive propositions. -/
def SinglePositive (A : TwaGraph) : Prop :=
  ∀ q, ∀ t ∈ A.out q, ∀ p ∈ t.cond.diagram.paths, ∀ v w, (v, true) ∈ p → (w, true) ∈ p → v = w

variable {A : TwaGraph} {sPath : Std.TreeSet Int} {q : Fin A.numStates}

theorem leaving_eq (A : TwaGraph) (sPath : Std.TreeSet Int) (q : Fin A.numStates) :
    leaving sPath (A.getStateTransitions q) =
      (candidates A sPath q).map fun t => (getCond A.bddvarnum A.dict t.cond, (t.dst.val : Int)) := by
  rw [leaving, candidates, TwaGraph.getStateTransitions, List.filter_map]
  simp only [List.map_eq_nil_iff, Function.comp_def]
  split_ifs <;> rfl

theorem candidates_subset : candidates A sPath q ⊆ A.out q := by
  rw [candidates]
  split_ifs
  · exact List.Subset.refl _
  · exact List.filter_subset_self _

theorem advances_iff (e : Str) :
    Advances A sPath q e ↔ ∃ t ∈ candidates A sPath q, A.Sat t.cond (exactly e) := by
  have hout : (A.out q).filter (fun t => (t.dst.val : Int) ∉ sPath) = [] ↔
      ¬ ∃ t' ∈ A.out q, (t'.dst.val : Int) ∉ sPath := by
    simp [List.filter_eq_nil_iff]
  rw [Advances, candidates]
  by_cases h : ∃ t' ∈ A.out q, (t'.dst.val : Int) ∉ sPath
  · rw [if_neg (fun he => hout.mp he h)]
    simp only [h, forall_const, List.mem_filter, decide_eq_true_eq]
    exact exists_congr fun t => by tauto
  · rw [if_pos (hout.mpr h)]
    simp [h]

/-- What a selection can return: an event of some cube of a candidate edge. -/
theorem exists_selectEvent_iff (allEvents : StrSet) {curState aPath : Str} (hp : pathStates aPath = some sPath)
    (hc : stoi curState = some (q.val : Int)) (e : Str) :
    (∃ rolls, selectEvent A allEvents curState aPath rolls = some e) ↔
      ∃ t ∈ candidates A sPath q, ∃ cube ∈ getCond A.bddvarnum A.dict t.cond,
        e ∈ choices allEvents (extractPropositionEvents cube) := by
  have htran (draw : Nat) : selectTran A curState aPath draw =
      drawn draw ((candidates A sPath q).map fun t =>
        ⟨getCond A.bddvarnum A.dict t.cond, showInt (t.dst.val : Int)⟩) := by
    simp [selectTran, hp, hc, leaving_eq, Function.comp_def]
  constructor
  · rintro ⟨rolls, h⟩
    rw [selectEvent, htran, Option.bind_eq_bind, Option.bind_eq_some_iff] at h
    obtain ⟨tran, ht, h⟩ := h
    rw [Option.bind_eq_bind, Option.bind_eq_some_iff] at h
    obtain ⟨cube, hcube, h⟩ := h
    obtain ⟨t, hmem, rfl⟩ := List.mem_map.mp (mem_of_drawn ht)
    exact ⟨t, hmem, cube, mem_of_drawn hcube, mem_of_drawn h⟩
  · rintro ⟨t, ht, cube, hcube, he⟩
    obtain ⟨d₁, h₁⟩ := exists_drawn_iff.mpr (List.mem_map_of_mem (f := fun t : Edge A.numStates =>
      (⟨getCond A.bddvarnum A.dict t.cond, showInt (t.dst.val : Int)⟩ : AutomataTransition)) ht)
    obtain ⟨d₂, h₂⟩ := exists_drawn_iff.mpr hcube
    obtain ⟨d₃, h₃⟩ := exists_drawn_iff.mpr he
    refine ⟨⟨d₁, d₂, d₃⟩, ?_⟩
    rw [selectEvent, htran, h₁, Option.bind_eq_bind, Option.bind_some, selectProposition, h₂,
      Option.bind_eq_bind, Option.bind_some, h₃]

private theorem extractEvents_eq (es : List Str) (eSet : StrSet) :
    ((∀ e ∈ es, e.head? = some '!') ∧ (extractEvents es eSet).eventType = .reject ∧
      ∀ x, x ∈ (extractEvents es eSet).events ↔ x ∈ eSet ∨ (es ≠ [] ∧ x = [])) ∨
    ∃ e ∈ es, e.head? ≠ some '!' ∧ extractEvents es eSet = ⟨(∅ : StrSet).insert e, .accept⟩ := by
  induction es generalizing eSet with
  | nil => exact .inl ⟨by simp, rfl, by simp [extractEvents]⟩
  | cons e es ih =>
    by_cases he : e.head? = some '!'
    · rw [extractEvents, if_pos he]
      rcases ih (eSet.insert (eraseFrom e 0)) with ⟨hall, htype, hmem⟩ | ⟨e', he', hpos, heq⟩
      · refine .inl ⟨List.forall_mem_cons.mpr ⟨he, hall⟩, htype, fun x => ?_⟩
        have hx : x ∈ eSet.insert (eraseFrom e 0) ↔ x ∈ eSet ∨ x = [] := by
          simp [eraseFrom, or_comm, eq_comm]
        rw [hmem, hx]
        by_cases hn : x = [] <;> simp [hn]
      · exact .inr ⟨e', List.mem_cons_of_mem e he', hpos, heq⟩
    · exact .inr ⟨e, List.mem_cons_self, he, by rw [extractEvents, if_neg he]⟩

/-- A cube of negations rejects at most the empty event; any other accepts one of its texts. -/
theorem mem_choices (allEvents cube : StrSet) :
    (AllNegated cube ∧ ∀ e,
      (e ∈ choices allEvents (extractPropositionEvents cube) ↔ e ∈ allEvents ∧ (cube.toList ≠ [] → e ≠ []))) ∨
    ∃ lit ∈ cube, lit.head? ≠ some '!' ∧
      ∀ e, (e ∈ choices allEvents (extractPropositionEvents cube) ↔ e = lit) := by
  rcases extractEvents_eq cube.toList ∅ with ⟨hall, htype, hmem⟩ | ⟨lit, hlit, hpos, heq⟩
  · refine .inl ⟨fun lit h => hall lit (Std.TreeSet.mem_toList.mpr h), ?_⟩
    simp [choices, extractPropositionEvents, htype, hmem, or_iff_not_imp_left]
  · refine .inr ⟨lit, Std.TreeSet.mem_toList.mp hlit, hpos, ?_⟩
    simp [choices, extractPropositionEvents, heq, eq_comm]

/-- The one positive proposition of a cube, alone, satisfies the guard. -/
private theorem sat_of_positive (hs : SinglePositive A) {t : Edge A.numStates} (ht : t ∈ A.out q)
    {cube : StrSet} (hcube : cube ∈ getCond A.bddvarnum A.dict t.cond) {lit : Str} (hlit : lit ∈ cube)
    (hpos : lit.head? ≠ some '!') : A.Sat t.cond (exactly lit) := by
  obtain ⟨p, hp, hmem⟩ := TwaGraph.mem_getCond ht hcube
  obtain ⟨⟨v, value⟩, hl, rfl⟩ := (hmem lit).mp hlit
  obtain ⟨a, hm, htext⟩ := TwaGraph.exists_name_of_mem ht hp hl
  cases value with
  | false =>
    rw [htext] at hpos
    exact absurd rfl hpos
  | true =>
    rw [htext, if_pos rfl]
    apply Bdd.eval_of_path hp
    rintro ⟨w, value⟩ hl'
    obtain ⟨a', hm', _⟩ := TwaGraph.exists_name_of_mem ht hp hl'
    rw [Dict.valuation_of_mem hm']
    cases value with
    | true =>
      obtain rfl : w = v := hs q t ht p hp w v hl' hl
      exact decide_eq_true (Dict.name_unique hm' hm)
    | false =>
      apply decide_eq_false
      rintro rfl
      obtain rfl : w = v := Dict.var_unique hm' hm
      cases t.cond.literal_unique hp hl hl'

private theorem sat_of_empty {t : Edge A.numStates} (ht : t ∈ A.out q) {cube : StrSet}
    (hcube : cube ∈ getCond A.bddvarnum A.dict t.cond) (h : cube.toList = []) (ν : Str → Bool) :
    A.Sat t.cond ν := by
  obtain ⟨p, hp, hmem⟩ := TwaGraph.mem_getCond ht hcube
  apply Bdd.eval_of_path hp
  intro l hl
  have := Std.TreeSet.mem_toList.mpr ((hmem _).mpr ⟨l, hl, rfl⟩)
  rw [h] at this
  exact absurd this List.not_mem_nil

/-- Every returned event advances exactly when no candidate guard has a cube of negations
only, or any nonempty known event can take a candidate edge. -/
theorem select_event_advances_iff (A : TwaGraph) (allEvents : StrSet) (q : Fin A.numStates)
    (curState aPath : Str) (sPath : Std.TreeSet Int) (hs : SinglePositive A)
    (hc : stoi curState = some (q.val : Int)) (hp : pathStates aPath = some sPath) :
    (∀ rolls e, selectEvent A allEvents curState aPath rolls = some e → Advances A sPath q e) ↔
      ((∃ t ∈ candidates A sPath q, ∃ cube ∈ getCond A.bddvarnum A.dict t.cond, AllNegated cube) →
        ∀ e ∈ allEvents, e ≠ [] → ∃ t ∈ candidates A sPath q, A.Sat t.cond (exactly e)) := by
  have hreturn := exists_selectEvent_iff allEvents hp hc
  constructor
  · rintro h ⟨t, ht, cube, hcube, hneg⟩ e he hne
    have hchoice : e ∈ choices allEvents (extractPropositionEvents cube) := by
      rcases mem_choices allEvents cube with ⟨_, hiff⟩ | ⟨lit, hlit, hpos, _⟩
      · exact (hiff e).mpr ⟨he, fun _ => hne⟩
      · exact absurd (hneg lit hlit) hpos
    obtain ⟨rolls, hr⟩ := (hreturn e).mpr ⟨t, ht, cube, hcube, hchoice⟩
    exact (advances_iff e).mp (h rolls e hr)
  · intro h rolls e hr
    obtain ⟨t, ht, cube, hcube, hchoice⟩ := (hreturn e).mp ⟨rolls, hr⟩
    have hout := candidates_subset ht
    rw [advances_iff]
    rcases mem_choices allEvents cube with ⟨hneg, hiff⟩ | ⟨lit, hlit, hpos, hiff⟩
    · obtain ⟨he, hne⟩ := (hiff e).mp hchoice
      by_cases hempty : cube.toList = []
      · exact ⟨t, ht, sat_of_empty hout hcube hempty _⟩
      · exact h ⟨t, ht, cube, hcube, hneg⟩ e he (hne hempty)
    · obtain rfl := (hiff e).mp hchoice
      exact ⟨t, ht, sat_of_positive hs hout hcube hlit hpos⟩

def eventsAB : StrSet := ((∅ : StrSet).insert ['a']).insert ['b']

def onlyZero : Std.TreeSet Int := (∅ : Std.TreeSet Int).insert 0

theorem recurrent_singlePositive : SinglePositive recurrent := by
  intro q t ht p hp v w hv hw
  have h0 (v : Nat) (h : (v, true) ∈ p) : v = 0 := by
    have := TwaGraph.path_allocated ht hp _ h
    have : v < 1 := this
    omega
  rw [h0 v hv, h0 w hw]

/-- Erasing from position 0 forgets the name, so !a is answered with a, which stays on the path. -/
theorem select_event_stays_recurrent :
    SinglePositive recurrent ∧ (∀ a ∈ recurrent.dict.varMap.map Prod.fst, a ∈ eventsAB) ∧
      pathStates ['0', ','] = some onlyZero ∧
      selectEvent recurrent eventsAB ['0'] ['0', ','] ⟨0, 0, 0⟩ = some ['a'] ∧
      ¬ Advances recurrent onlyZero (0 : Fin 2) ['a'] := by
  refine ⟨recurrent_singlePositive, by decide, rfl, rfl, ?_⟩
  unfold Advances
  decide

theorem select_event_advances_iff_recurrent :
    (∀ rolls e, selectEvent recurrent eventsAB ['0'] ['0', ','] rolls = some e →
        Advances recurrent onlyZero (0 : Fin 2) e) ↔
      ((∃ t ∈ candidates recurrent onlyZero (0 : Fin 2),
          ∃ cube ∈ getCond recurrent.bddvarnum recurrent.dict t.cond, AllNegated cube) →
        ∀ e ∈ eventsAB, e ≠ [] →
          ∃ t ∈ candidates recurrent onlyZero (0 : Fin 2), recurrent.Sat t.cond (exactly e)) :=
  select_event_advances_iff recurrent eventsAB (0 : Fin 2) ['0'] ['0', ','] onlyZero
    recurrent_singlePositive rfl rfl

end LtlFuzzer.Fuzzer
