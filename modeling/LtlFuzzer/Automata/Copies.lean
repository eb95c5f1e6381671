import LtlFuzzer.Automata.Transitions
import LtlFuzzer.Foundation.Runs

/-! Automata objects: construction, set_formula, copying and assignment. -/
namespace LtlFuzzer.Automata
open Foundation

/-- The fields of an object. There is no graph before set_formula, and no parsed formula. -/
structure AutomataObject where
  automata : Option TwaGraph := none
  bddMap : Dict := noNames
  reverseBddMap : Dict := noNames
  pf : Option Str := none

/-- The translator: the constrained graph and the formula parsed, or none for an exception. -/
abbrev Translator := Str → Str → Option (TwaGraph × Str)

/-- The transitions' texts through a map of names; none is the exception for a variable
without a name. -/
def namedCond (size : Nat) (reverseBddMap : Dict) (cond : Robdd Nat) : Option (List StrSet) :=
  (bddAllsat size cond.diagram (fun acc c => acc ++ [getCondHelper c]) []).mapM fun sat =>
    (sat.mapM fun e => (reverseBddMap.nameOf e.1).map fun name => if e.2 then name else '!' :: name).map
      fun texts => Std.TreeSet.ofList texts

namespace AutomataObject

/-- None is the null graph, which the code dereferences. -/
def modelCheckEvents (a : AutomataObject) (events : List Str) (st : Statics) : Option (List MCState × Statics) :=
  a.automata.map fun A => A.checkFrom a.bddMap A.initState events st

def getStateTransitions (a : AutomataObject) (state : Int) : Option Transitions := do
  let A ← a.automata
  let q ← A.stateFromNumber state
  (A.out q).mapM fun t => (namedCond A.bddvarnum a.reverseBddMap t.cond).map fun cond => (cond, (t.dst.val : Int))

def formula (a : AutomataObject) : Option Str := a.pf

/-- A successful call; the maps are built from the graph's dictionary. -/
def setFormula (translate : Translator) (formula exclusive : Str) : Option AutomataObject :=
  (translate formula exclusive).map fun r => ⟨some r.1, r.1.dict, r.1.dict, some r.2⟩

/-- The copy constructor. -/
def copy (a : AutomataObject) : AutomataObject := { automata := a.automata }

/-- operator=. -/
def assign (this a : AutomataObject) : AutomataObject := { this with automata := a.automata }

end AutomataObject

/-- What is done with objects, by their places. -/
inductive Operation where
  | construct
  | constructFrom (formula exclusive : Str)
  | setFormula (i : Nat) (formula exclusive : Str)
  | copy (i : Nat)
  | assign (i j : Nat)

def operate (translate : Translator) (objects : List AutomataObject) : Operation → Option (List AutomataObject)
  | .construct => some (objects ++ [{}])
  | .constructFrom formula exclusive => (AutomataObject.setFormula translate formula exclusive).map (objects ++ [·])
  | .setFormula i formula exclusive => do
    let _ ← objects[i]?
    (AutomataObject.setFormula translate formula exclusive).map (objects.set i ·)
  | .copy i => (objects[i]?).map fun a => objects ++ [a.copy]
  | .assign i j => do
    let this ← objects[i]?
    let a ← objects[j]?
    some (objects.set i (this.assign a))

/-- The same answers to every question. -/
structure BehavesLike (b a : AutomataObject) : Prop where
  modelCheck : ∀ events st, (b.modelCheckEvents events st).map Prod.fst = (a.modelCheckEvents events st).map Prod.fst
  transitions : ∀ state, b.getStateTransitions state = a.getStateTransitions state
  formula : b.formula = a.formula

/-- Two maps give the variables of the object's guards the same names. -/
def NamesAgree (a : AutomataObject) (d : Dict) : Prop :=
  ∀ A ∈ a.automata, ∀ q, ∀ t ∈ A.out q, ∀ v ∈ t.cond.diagram.vars, d.nameOf v = a.bddMap.nameOf v

/-- The two maps are one, and there are no names without a formula. -/
structure Consistent (a : AutomataObject) : Prop where
  maps : a.bddMap = a.reverseBddMap
  names : a.pf = none → a.bddMap = noNames

private theorem mapM_congr {α β : Type} {f g : α → Option β} {l : List α} (h : ∀ x ∈ l, f x = g x) :
    l.mapM f = l.mapM g := by
  induction l with
  | nil => rfl
  | cons a l ih =>
    obtain ⟨ha, hl⟩ := List.forall_mem_cons.mp h
    rw [List.mapM_cons, List.mapM_cons, ha, ih hl]

private theorem mapM_eq_map {α β : Type} {f : α → Option β} {g : α → β} {l : List α} (h : ∀ x ∈ l, f x = some (g x)) :
    l.mapM f = some (l.map g) := (mapM_congr h).trans List.mapM_pure

section
variable {A : TwaGraph} {d d' : Dict} {q : Fin A.numStates} {t : Edge A.numStates}

private theorem namedCond_congr (ht : t ∈ A.out q) (h : ∀ v ∈ t.cond.diagram.vars, d.nameOf v = d'.nameOf v) :
    namedCond A.bddvarnum d t.cond = namedCond A.bddvarnum d' t.cond := by
  rw [namedCond, namedCond, bddAllsat_getCondHelper, List.mapM_map, List.mapM_map]
  refine mapM_congr fun p hp => ?_
  refine congrArg (Option.map _) (mapM_congr fun e he => ?_)
  have hmem := (mem_getCondHelper (t.cond.path_vars_nodup hp) (TwaGraph.path_allocated ht hp)).mp he
  rw [h e.1 (Bdd.mem_vars_of_path hp hmem)]

/-- Named through the graph's own dictionary, the texts are those of the transition table. -/
private theorem namedCond_dict (ht : t ∈ A.out q) :
    namedCond A.bddvarnum A.dict t.cond = some (getCond A.bddvarnum A.dict t.cond) := by
  rw [namedCond, getCond_eq, bddAllsat_getCondHelper, List.mapM_map]
  refine mapM_eq_map fun p hp => ?_
  have htexts : (getCondHelper (profile A.bddvarnum p)).mapM (fun e =>
      (A.dict.nameOf e.1).map fun name => if e.2 then name else '!' :: name) =
        some ((getCondHelper (profile A.bddvarnum p)).map (literalText A.dict)) := by
    refine mapM_eq_map fun e he => ?_
    have hmem := (mem_getCondHelper (t.cond.path_vars_nodup hp) (TwaGraph.path_allocated ht hp)).mp he
    obtain ⟨a, ha, htext⟩ := TwaGraph.exists_name_of_mem ht hp hmem
    rw [Dict.nameOf_eq_some.mpr ha, htext]
    rfl
  exact congrArg (Option.map _) htexts

/-- After set_formula the object has the transition table of its graph. -/
theorem getStateTransitions_of_dict (A : TwaGraph) (pf : Option Str) (q : Fin A.numStates) :
    (⟨some A, A.dict, A.dict, pf⟩ : AutomataObject).getStateTransitions q.val = some (A.getStateTransitions q) := by
  rw [AutomataObject.getStateTransitions, Option.bind_eq_bind, Option.bind_some, TwaGraph.stateFromNumber_val,
    Option.bind_eq_bind, Option.bind_some, TwaGraph.getStateTransitions]
  exact mapM_eq_map fun t ht => congrArg (Option.map _) (namedCond_dict ht)

private theorem checkCondHelper_congr (ht : t ∈ A.out q) {p : List (Nat × Bool)} (hp : p ∈ t.cond.diagram.paths)
    (h : ∀ v ∈ t.cond.diagram.vars, d.nameOf v = d'.nameOf v) (events : StrSet) :
    checkCondHelper (eventIndices d events) (profile A.bddvarnum p) =
      checkCondHelper (eventIndices d' events) (profile A.bddvarnum p) := by
  have hn := t.cond.path_vars_nodup hp
  have ha := TwaGraph.path_allocated ht hp
  rw [Bool.eq_iff_iff, checkCondHelper_profile hn ha, checkCondHelper_profile hn ha]
  refine forall₂_congr fun l hl => ?_
  have hname := h l.1 (Bdd.mem_vars_of_path hp hl)
  have hindex : l.1 ∈ eventIndices d events ↔ l.1 ∈ eventIndices d' events := by
    simp only [mem_eventIndices, ← Dict.nameOf_eq_some, hname]
  simp only [hindex]

/-- The result cells agree; the shared set may differ. -/
private def SameCells (st st' : Statics) : Prop :=
  st.checkCondRes = st'.checkCondRes ∧ st.isTrueCondRes = st'.isTrueCondRes

private theorem isTrueCond_cells (size : Nat) (g : Robdd Nat) (st : Statics) :
    (isTrueCond size g st).2 = { st with isTrueCondRes := (isTrueCond size g st).1 } := by
  apply Runs.foldl_history fun (_ : List (List Int)) (s : Statics) => s = { st with isTrueCondRes := s.isTrueCondRes }
  · rfl
  · intro _ s c h
    rw [h]

private theorem checkCond_cells (size : Nat) (d : Dict) (g : Robdd Nat) (events : StrSet) (st : Statics) :
    (checkCond size d g events st).2.isTrueCondRes = st.isTrueCondRes := by
  apply Runs.foldl_history fun (_ : List (List Int)) (s : Statics) => s.isTrueCondRes = st.isTrueCondRes
  · rfl
  · intro _ s c h
    exact h

private theorem isTrueCond_congr (size : Nat) (g : Robdd Nat) {st st' : Statics} (hst : SameCells st st') :
    (isTrueCond size g st).1 = (isTrueCond size g st').1 ∧ SameCells (isTrueCond size g st).2 (isTrueCond size g st').2 := by
  have hres : (isTrueCond size g st).1 = (isTrueCond size g st').1 := by
    rw [isTrueCond_fst, isTrueCond_fst, hst.2]
  refine ⟨hres, ?_⟩
  rw [isTrueCond_cells, isTrueCond_cells]
  exact ⟨hst.1, hres⟩

private theorem checkCond_congr (ht : t ∈ A.out q) (h : ∀ v ∈ t.cond.diagram.vars, d.nameOf v = d'.nameOf v)
    (events : StrSet) {st st' : Statics} (hst : SameCells st st') :
    (checkCond A.bddvarnum d t.cond events st).1 = (checkCond A.bddvarnum d' t.cond events st').1 ∧
      SameCells (checkCond A.bddvarnum d t.cond events st).2 (checkCond A.bddvarnum d' t.cond events st').2 := by
  have hres : (checkCond A.bddvarnum d t.cond events st).1 = (checkCond A.bddvarnum d' t.cond events st').1 := by
    rw [checkCond_fst, checkCond_fst]
    cases hp : lastPath t.cond with
    | none => exact hst.1
    | some p => exact checkCondHelper_congr ht (mem_paths_of_lastPath hp) h events
  exact ⟨hres, hres, by rw [checkCond_cells, checkCond_cells, hst.2]⟩

private theorem tryEdges_congr (h : ∀ t ∈ A.out q, ∀ v ∈ t.cond.diagram.vars, d.nameOf v = d'.nameOf v) (e : Str)
    (ts : List (Edge A.numStates)) (hts : ts ⊆ A.out q) (moved : Option (Fin A.numStates)) {st st' : Statics}
    (hst : SameCells st st') :
    (A.tryEdges d e ts moved st).1 = (A.tryEdges d' e ts moved st').1 ∧
      SameCells (A.tryEdges d e ts moved st).2 (A.tryEdges d' e ts moved st').2 := by
  induction ts generalizing moved st st' with
  | nil => exact ⟨rfl, hst⟩
  | cons t ts ih =>
    have ht : t ∈ A.out q := hts List.mem_cons_self
    have hts' : ts ⊆ A.out q := fun _ h => hts (List.mem_cons_of_mem t h)
    obtain ⟨htrue, hst₁⟩ := isTrueCond_congr A.bddvarnum t.cond hst
    obtain ⟨hcond, hst₂⟩ := checkCond_congr ht (h t ht) ((∅ : StrSet).insert e) hst₁
    simp only [TwaGraph.tryEdges, ← htrue, ← hcond]
    split_ifs
    · exact ih hts' _ hst₁
    · exact ⟨rfl, hst₂⟩
    · exact ih hts' _ hst₂

private theorem checkFrom_congr (h : ∀ q, ∀ t ∈ A.out q, ∀ v ∈ t.cond.diagram.vars, d.nameOf v = d'.nameOf v)
    (q : Fin A.numStates) (es : List Str) {st st' : Statics} (hst : SameCells st st') :
    (A.checkFrom d q es st).1 = (A.checkFrom d' q es st').1 := by
  induction es generalizing q st st' with
  | nil => rfl
  | cons e es ih =>
    obtain ⟨hmove, hst₁⟩ := tryEdges_congr (h q) e (A.out q) (List.Subset.refl _) none hst
    rw [TwaGraph.checkFrom, TwaGraph.checkFrom]
    generalize A.tryEdges d e (A.out q) none st = r at hmove hst₁ ⊢
    generalize A.tryEdges d' e (A.out q) none st' = r' at hmove hst₁ ⊢
    obtain ⟨moved, st₁⟩ := r
    obtain ⟨moved', st₁'⟩ := r'
    obtain rfl : moved = moved' := hmove
    cases moved with
    | none => rfl
    | some s => exact congrArg (A.entry s :: ·) (ih s hst₁)

end

variable {translate : Translator} {objects : List AutomataObject}

private theorem consistent_setFormula {formula exclusive : Str} {a : AutomataObject}
    (h : AutomataObject.setFormula translate formula exclusive = some a) : Consistent a := by
  obtain ⟨r, -, rfl⟩ := Option.map_eq_some_iff.mp h
  exact ⟨rfl, nofun⟩

private theorem consistent_operate (objects : List AutomataObject) (o : Operation) (objects' : List AutomataObject)
    (h : ∀ a ∈ objects, Consistent a) (ho : operate translate objects o = some objects') :
    ∀ a ∈ objects', Consistent a := by
  have happend {b : AutomataObject} (hb : Consistent b) : ∀ a ∈ objects ++ [b], Consistent a := by
    intro a ha
    rcases List.mem_append.mp ha with ha | ha
    · exact h a ha
    · exact List.mem_singleton.mp ha ▸ hb
  have hset {b : AutomataObject} (i : Nat) (hb : Consistent b) : ∀ a ∈ objects.set i b, Consistent a := by
    intro a ha
    rcases List.mem_or_eq_of_mem_set ha with ha | rfl
    · exact h a ha
    · exact hb
  cases o with
  | construct =>
    obtain rfl := Option.some.inj ho
    exact happend ⟨rfl, fun _ => rfl⟩
  | constructFrom formula exclusive =>
    obtain ⟨b, hb, rfl⟩ := Option.map_eq_some_iff.mp ho
    exact happend (consistent_setFormula hb)
  | setFormula i formula exclusive =>
    obtain ⟨_, -, ho⟩ := Option.bind_eq_some_iff.mp ho
    obtain ⟨b, hb, rfl⟩ := Option.map_eq_some_iff.mp ho
    exact hset i (consistent_setFormula hb)
  | copy i =>
    obtain ⟨b, hb, rfl⟩ := Option.map_eq_some_iff.mp ho
    exact happend ⟨rfl, fun _ => rfl⟩
  | assign i j =>
    obtain ⟨this, hthis, ho⟩ := Option.bind_eq_some_iff.mp ho
    obtain ⟨b, hb, ho⟩ := Option.bind_eq_some_iff.mp ho
    obtain rfl := Option.some.inj ho
    have hc := h this (List.mem_of_getElem? hthis)
    exact hset i ⟨hc.maps, hc.names⟩

private theorem copy_behavesLike_iff {a : AutomataObject} (ha : Consistent a) : BehavesLike a.copy a ↔ a.pf = none := by
  refine ⟨fun h => h.formula.symm, fun h => ?_⟩
  have hb := ha.names h
  have hr := ha.maps.symm.trans hb
  have heq : a.copy = a := by
    obtain ⟨automata, bddMap, reverseBddMap, pf⟩ := a
    simp only at h hb hr
    subst h hb hr
    rfl
  rw [heq]
  exact ⟨fun _ _ => rfl, fun _ => rfl, rfl⟩

private theorem assign_behavesLike {this a : AutomataObject} (hthis : Consistent this) (ha : Consistent a)
    (hpf : this.pf = a.pf) (hnames : NamesAgree a this.bddMap) : BehavesLike (this.assign a) a := by
  cases hA : a.automata with
  | none =>
    refine ⟨fun events st => ?_, fun state => ?_, hpf⟩
    · simp [AutomataObject.modelCheckEvents, AutomataObject.assign, hA]
    · simp [AutomataObject.getStateTransitions, AutomataObject.assign, hA]
  | some A =>
    have hguards := hnames A hA
    refine ⟨fun events st => ?_, fun state => ?_, hpf⟩
    · simp only [AutomataObject.modelCheckEvents, AutomataObject.assign, hA, Option.map_some]
      rw [checkFrom_congr hguards A.initState events ⟨rfl, rfl⟩]
    · simp only [AutomataObject.getStateTransitions, AutomataObject.assign, hA, Option.bind_eq_bind, Option.bind_some,
        ← hthis.maps, ← ha.maps]
      cases A.stateFromNumber state with
      | none => rfl
      | some q =>
        exact mapM_congr fun t ht => congrArg (Option.map _) (namedCond_congr ht (hguards q t ht))

/-- A copy behaves like its original exactly when that has no formula. An object assigned to
must have the same formula already, and then it is enough that its names agree. -/
theorem copies_behave_iff {operations : List Operation} {a b : AutomataObject}
    (hrun : operations.foldlM (operate translate) [] = some objects) (ha : a ∈ objects) (hb : b ∈ objects) :
    (BehavesLike a.copy a ↔ a.pf = none) ∧ (BehavesLike (b.assign a) a → b.pf = a.pf) ∧
      (b.pf = a.pf → NamesAgree a b.bddMap → BehavesLike (b.assign a) a) := by
  have hall := Runs.foldlM_inv (fun objects => ∀ a ∈ objects, Consistent a) consistent_operate operations
    (fun a ha => absurd ha List.not_mem_nil) hrun
  exact ⟨copy_behavesLike_iff (hall a ha), fun h => h.formula, assign_behavesLike (hall b hb) (hall a ha)⟩

def translateRecurrent : Translator := fun _ _ => some (recurrent, "GFa".toList)

def recurrentObject : AutomataObject := ⟨some recurrent, dictA, dictA, some "GFa".toList⟩

private theorem recurrentObject_copy : ¬ BehavesLike recurrentObject.copy recurrentObject := by
  intro h
  have hformula : (none : Option Str) = some "GFa".toList := h.formula
  cases hformula

/-- The copy has no formula and takes the event a for an unknown one. -/
theorem copy_forgets_names :
    AutomataObject.setFormula translateRecurrent "GFa".toList [] = some recurrentObject ∧
      ¬ BehavesLike recurrentObject.copy recurrentObject ∧
      (recurrentObject.modelCheckEvents [['a']] {}).map Prod.fst = some [⟨0, 0, true⟩] ∧
      (recurrentObject.copy.modelCheckEvents [['a']] {}).map Prod.fst = some [⟨1, 0, false⟩] := by
  refine ⟨rfl, recurrentObject_copy, ?_, ?_⟩
  · decide
  · decide

theorem copies_behave_iff_recurrent :
    (BehavesLike recurrentObject.copy.copy recurrentObject.copy ↔ recurrentObject.copy.pf = none) ∧
      (BehavesLike (recurrentObject.assign recurrentObject.copy) recurrentObject.copy →
        recurrentObject.pf = recurrentObject.copy.pf) ∧
      (recurrentObject.pf = recurrentObject.copy.pf → NamesAgree recurrentObject.copy recurrentObject.bddMap →
        BehavesLike (recurrentObject.assign recurrentObject.copy) recurrentObject.copy) := by
  have hrun : [Operation.constructFrom "GFa".toList [], .copy 0].foldlM (operate translateRecurrent) [] =
      some [recurrentObject, recurrentObject.copy] := rfl
  exact copies_behave_iff hrun (.tail _ (.head _)) (.head _)

end LtlFuzzer.Automata
