import LtlFuzzer.Service.Sessions

/-! Preparations that fail, and the pairing of properties with their exclusions. -/
namespace LtlFuzzer.Service
open Foundation Automata

/-- A graph of the library, which drops the edges labelled false. -/
abbrev SpotGraph := { A : TwaGraph // A.NonFalse }

/-- The library as set_formula calls it. Parsing gives a formula, and the errors where
there are some. -/
structure Spot (φ : Type) where
  parseInfixPsl : Str → φ × Option Str
  str : φ → Str
  run : φ → SpotGraph
  constrain : List φ → SpotGraph → SpotGraph
  propStateAcc : SpotGraph → Bool
  isBuchi : SpotGraph → Bool

/-- What an AutomataException says, as a C string. -/
def automataException (msg : Str) : Str := ("[Automata Error] ".toList ++ msg).takeWhile (· ≠ '\x00')

namespace Spot
variable {φ : Type}

/-- The text between commas, without an empty piece at the end. -/
def exclFormulas (spot : Spot φ) (exclusive : Str) : List φ :=
  (Delimiters.getlines ',' exclusive).map fun piece => (spot.parseInfixPsl piece).1

def constrained (spot : Spot φ) (f : φ) (exclusive : Str) : SpotGraph :=
  let exclFormulas := spot.exclFormulas exclusive
  if exclFormulas = [] then spot.run f else spot.constrain exclFormulas (spot.run f)

def setFormula (spot : Spot φ) : SetFormula := fun formula exclusive =>
  match spot.parseInfixPsl formula with
  | (_, some errors) => .error (automataException ("Failed to parse formula ".toList ++ formula ++ ['\n'] ++ errors))
  | (f, none) =>
    let automata := spot.constrained f exclusive
    if !spot.propStateAcc automata then .error (automataException "Automaton is not using state-based acceptance!".toList)
    else if !spot.isBuchi automata then .error (automataException "Automaton is not Büchi!".toList)
    else .ok ⟨automata.1, spot.str f, automata.2⟩

/-- The translator is set to Büchi automata with state-based acceptance, and a constraint
on the propositions keeps them so. -/
structure Documented (spot : Spot φ) : Prop where
  propStateAcc : ∀ f exclusive, spot.propStateAcc (spot.constrained f exclusive) = true
  isBuchi : ∀ f exclusive, spot.isBuchi (spot.constrained f exclusive) = true

def Parses (spot : Spot φ) (formula : Str) : Prop := (spot.parseInfixPsl formula).2 = none

theorem setFormula_of_parses {spot : Spot φ} (h : spot.Documented) {formula : Str} (hp : spot.Parses formula)
    (exclusive : Str) : ∃ atm, spot.setFormula formula exclusive = .ok atm := by
  have hparse : spot.parseInfixPsl formula = ((spot.parseInfixPsl formula).1, none) := Prod.ext rfl hp
  rw [setFormula, hparse]
  simp only [h.propStateAcc, h.isBuchi, Bool.not_true, Bool.false_eq_true, if_false]
  exact ⟨_, rfl⟩

end Spot

/-- The exclude entry that goes with a property; none excludes nothing. -/
def exclusion (exclude : List Str) (i : Nat) : Str := (exclude[i]?).getD []

/-- The i-th automaton is built from the i-th property under its exclusion. -/
def BuiltInOrder (setFormula : SetFormula) (request : LTLList) (list : List SessionAutomaton) : Prop :=
  ∀ i atm, list[i]? = some atm →
    ∃ prop, request.properties[i]? = some prop ∧ setFormula prop (exclusion request.exclude i) = .ok atm

/-- The i-th property comes to set_formula with its exclude entry, and is rejected. -/
def RejectedAt (setFormula : SetFormula) (request : LTLList) (i : Nat) (what : Str) : Prop :=
  ∃ prop excl, request.properties[i]? = some prop ∧ request.exclude[i]? = some excl ∧ setFormula prop excl = .error what

variable {setFormula : SetFormula}

private theorem builtInOrder_cons {prop excl : Str} {properties exclude : List Str} {atm : SessionAutomaton}
    {list : List SessionAutomaton} (hatm : setFormula prop excl = .ok atm)
    (h : BuiltInOrder setFormula ⟨properties, exclude⟩ list) :
    BuiltInOrder setFormula ⟨prop :: properties, excl :: exclude⟩ (atm :: list) := by
  intro i x hx
  cases i with
  | zero =>
    obtain rfl : atm = x := by simpa using hx
    exact ⟨prop, rfl, hatm⟩
  | succ i => exact h i x (by simpa using hx)

private theorem rejectedAt_succ {prop excl : Str} {properties exclude : List Str} {i : Nat} {what : Str} :
    RejectedAt setFormula ⟨prop :: properties, excl :: exclude⟩ (i + 1) what ↔
      RejectedAt setFormula ⟨properties, exclude⟩ i what := by
  simp [RejectedAt]

/-- Where the loop ends by itself it has built automata in order, one for each property, or
for those before one that is rejected. -/
private theorem createAutomata_spec {properties exclude : List Str} {list result : List SessionAutomaton}
    {failure : Option Str} (h : createAutomata setFormula properties exclude list = some (result, failure)) :
    ∃ atms, result = list ++ atms ∧ BuiltInOrder setFormula ⟨properties, exclude⟩ atms ∧
      match failure with
      | none => atms.length = properties.length
      | some what => RejectedAt setFormula ⟨properties, exclude⟩ atms.length what := by
  induction properties generalizing exclude list with
  | nil =>
    cases h
    exact ⟨[], (List.append_nil _).symm, fun i atm hi => by simp at hi, rfl⟩
  | cons prop properties ih =>
    cases exclude with
    | nil => cases h
    | cons excl exclude =>
      rw [createAutomata] at h
      cases hset : setFormula prop excl with
      | ok atm =>
        rw [hset] at h
        obtain ⟨atms, rfl, hbuilt, hend⟩ := ih h
        refine ⟨atm :: atms, by simp, builtInOrder_cons hset hbuilt, ?_⟩
        cases failure with
        | none => exact congrArg (· + 1) hend
        | some what => exact rejectedAt_succ.mpr hend
      | error what =>
        rw [hset] at h
        cases h
        exact ⟨[], (List.append_nil _).symm, fun i atm hi => by simp at hi, prop, excl, rfl, rfl, hset⟩

/-- A rejection ends the loop, if none before it did. -/
private theorem createAutomata_rejects {properties exclude : List Str} {i : Nat} {what : Str}
    (h : RejectedAt setFormula ⟨properties, exclude⟩ i what) (list : List SessionAutomaton) :
    ∃ result what', createAutomata setFormula properties exclude list = some (result, some what') := by
  induction properties generalizing exclude list i with
  | nil =>
    obtain ⟨prop, excl, hprop, -⟩ := h
    cases hprop
  | cons prop properties ih =>
    cases exclude with
    | nil =>
      obtain ⟨prop', excl, -, hexcl, -⟩ := h
      cases hexcl
    | cons excl exclude =>
      rw [createAutomata]
      cases hset : setFormula prop excl with
      | error what' => exact ⟨list, what', rfl⟩
      | ok atm =>
        cases i with
        | zero =>
          obtain ⟨prop', excl', hprop, hexcl, herr⟩ := h
          cases hprop
          cases hexcl
          rw [hset] at herr
          cases herr
        | succ i => exact ih (rejectedAt_succ.mp h) (list ++ [atm])

/-- A status other than OK, and every session as it was. -/
def FailsCleanly (setFormula : SetFormula) (storage : Storage) (request : LTLList) (draws : List Str) : Prop :=
  ∃ reply storage', prepareLTLProperties setFormula storage request draws = some (reply, storage') ∧
    reply.1.code ≠ .ok ∧ ∀ uuid : Str, storage'[uuid]? = storage[uuid]?

/-- Whatever the outcome, the identifier that was drawn is in use afterwards. -/
private theorem prepare_registers {storage storage' : Storage} {request : LTLList} {draws : List Str}
    {reply : Status × PrepareReply} (h : prepareLTLProperties setFormula storage request draws = some (reply, storage')) :
    ∃ uuid : Str, storage'[uuid]? ≠ storage[uuid]? := by
  obtain ⟨uuid, hdrawn, h⟩ := Option.bind_eq_some_iff.mp h
  obtain ⟨⟨list, failure⟩, -, h⟩ := Option.bind_eq_some_iff.mp h
  cases h
  refine ⟨uuid, ?_⟩
  rw [Std.TreeMap.getElem?_insert_self, Std.TreeMap.getElem?_eq_none (fresh_of_drawn hdrawn)]
  exact Option.some_ne_none list

private theorem not_failsCleanly {storage : Storage} {request : LTLList} {draws : List Str} :
    ¬ FailsCleanly setFormula storage request draws := by
  intro h
  obtain ⟨reply, storage', hprep, -, hsame⟩ := h
  obtain ⟨uuid, hne⟩ := prepare_registers hprep
  exact hne (hsame uuid)

/-- A preparation that fails is never clean: the automata built before the first property
that is rejected stay under a new identifier. -/
theorem failed_preparation_registers {φ : Type} (spot : Spot φ) (storage : Storage) {request : LTLList} (draws : List Str)
    {i : Nat} {what : Str} (h : RejectedAt spot.setFormula request i what) :
    ¬ FailsCleanly spot.setFormula storage request draws ∧
      ((∃ u ∈ draws, u ∉ storage) → ∃ uuid list what', uuid ∉ storage ∧ BuiltInOrder spot.setFormula request list ∧
        RejectedAt spot.setFormula request list.length what' ∧
        prepareLTLProperties spot.setFormula storage request draws = some
          ((⟨.invalidArgument, what'⟩, ⟨"Failed to create automata.".toList, []⟩), storage.insert uuid list)) := by
  refine ⟨not_failsCleanly, fun hdraws => ?_⟩
  obtain ⟨uuid, hdrawn, hfresh⟩ := exists_drawn hdraws
  obtain ⟨list, what', hcreate⟩ := createAutomata_rejects h []
  obtain ⟨atms, hatms, hbuilt, hrejected⟩ := createAutomata_spec hcreate
  obtain rfl : list = atms := by simpa using hatms
  refine ⟨uuid, list, what', hfresh, hbuilt, hrejected, ?_⟩
  rw [prepareLTLProperties, hdrawn, Option.bind_eq_bind, Option.bind_some, hcreate]
  rfl

/-- A library that knows one formula. -/
def recurrentSpot : Spot Str where
  parseInfixPsl s := (s, if s = "GFa".toList then none else some "syntax error".toList)
  str f := f
  run _ := ⟨recurrent, recurrent_nonFalse⟩
  constrain _ graph := graph
  propStateAcc _ := true
  isBuchi _ := true

def secondUnknown : LTLList := ⟨["GFa".toList, ['(']], [[], []]⟩

private theorem secondUnknown_rejected :
    RejectedAt recurrentSpot.setFormula secondUnknown 1 "[Automata Error] Failed to parse formula (\nsyntax error".toList :=
  ⟨['('], [], rfl, rfl, rfl⟩

/-- The second of two properties does not parse; a session with the first one's automaton stays. -/
theorem failed_preparation_registers_second :
    prepareLTLProperties recurrentSpot.setFormula ∅ secondUnknown [['7']] = some
      ((⟨.invalidArgument, "[Automata Error] Failed to parse formula (\nsyntax error".toList⟩,
        ⟨"Failed to create automata.".toList, []⟩),
        (∅ : Storage).insert ['7'] [recurrentSession]) ∧
      ¬ FailsCleanly recurrentSpot.setFormula ∅ secondUnknown [['7']] :=
  ⟨rfl, not_failsCleanly⟩

theorem failed_preparation_registers_one : ¬ FailsCleanly recurrentSpot.setFormula ∅ secondUnknown [['7']] :=
  (failed_preparation_registers recurrentSpot ∅ [['7']] secondUnknown_rejected).1

/-- Never past the exclude entries, and a list of automata that are built in order under
the identifier of an OK reply, one for each property. -/
def PairsProperties (setFormula : SetFormula) (storage : Storage) (request : LTLList) (draws : List Str) : Prop :=
  ∃ reply storage', prepareLTLProperties setFormula storage request draws = some (reply, storage') ∧
    (reply.1.code = .ok → ∃ list, storage'[reply.2.uuid]? = some list ∧
      list.length = request.properties.length ∧ BuiltInOrder setFormula request list)

/-- With an entry too few the loop comes to the end of the entries. -/
private theorem createAutomata_eq_none {properties exclude : List Str} (list : List SessionAutomaton)
    (h : ∀ prop ∈ properties, ∀ excl, ∃ atm, setFormula prop excl = .ok atm) (hlt : exclude.length < properties.length) :
    createAutomata setFormula properties exclude list = none := by
  induction properties generalizing exclude list with
  | nil => cases hlt
  | cons prop properties ih =>
    cases exclude with
    | nil => rfl
    | cons excl exclude =>
      obtain ⟨hprop, hproperties⟩ := List.forall_mem_cons.mp h
      obtain ⟨atm, hset⟩ := hprop excl
      rw [createAutomata, hset]
      exact ih (list ++ [atm]) hproperties (by simpa using hlt)

/-- Where the properties parse, they are paired with their exclusions exactly when there
are no fewer entries than properties. -/
theorem properties_paired_iff {φ : Type} {spot : Spot φ} (hspot : spot.Documented) {storage : Storage}
    {request : LTLList} {draws : List Str} (hdraws : ∃ u ∈ draws, u ∉ storage)
    (hparse : ∀ prop ∈ request.properties, spot.Parses prop) :
    PairsProperties spot.setFormula storage request draws ↔ request.properties.length ≤ request.exclude.length := by
  have hset (prop : Str) (hprop : prop ∈ request.properties) (excl : Str) :
      ∃ atm, spot.setFormula prop excl = .ok atm := Spot.setFormula_of_parses hspot (hparse prop hprop) excl
  constructor
  · rintro ⟨reply, storage', hprep, -⟩
    by_contra hlt
    obtain ⟨uuid, -, h⟩ := Option.bind_eq_some_iff.mp hprep
    obtain ⟨r, hcreate, -⟩ := Option.bind_eq_some_iff.mp h
    rw [createAutomata_eq_none [] hset (Nat.not_le.mp hlt)] at hcreate
    cases hcreate
  · intro hle
    obtain ⟨uuid, hdrawn, -⟩ := exists_drawn hdraws
    obtain ⟨⟨list, failure⟩, hcreate⟩ := createAutomata_isSome spot.setFormula [] hle
    obtain ⟨atms, hatms, hbuilt, hend⟩ := createAutomata_spec hcreate
    obtain rfl : list = atms := by simpa using hatms
    cases failure with
    | some what =>
      obtain ⟨prop, excl, hprop, -, herr⟩ := hend
      obtain ⟨atm, hok⟩ := hset prop (List.mem_of_getElem? hprop) excl
      rw [hok] at herr
      cases herr
    | none =>
      refine ⟨loaded uuid, storage.insert uuid list, ?_, fun _ => ⟨list, ?_, hend, hbuilt⟩⟩
      · rw [prepareLTLProperties, hdrawn, Option.bind_eq_bind, Option.bind_some, hcreate]
        rfl
      · exact Std.TreeMap.getElem?_insert_self

/-- One property and no exclude entry: the loop reads past the entries. -/
theorem properties_unpaired_alone : recurrentSpot.Parses "GFa".toList ∧
    prepareLTLProperties recurrentSpot.setFormula ∅ ⟨["GFa".toList], []⟩ [['7']] = none ∧
      ¬ PairsProperties recurrentSpot.setFormula ∅ ⟨["GFa".toList], []⟩ [['7']] := by
  have hnone : prepareLTLProperties recurrentSpot.setFormula ∅ ⟨["GFa".toList], []⟩ [['7']] = none := rfl
  refine ⟨rfl, hnone, ?_⟩
  rintro ⟨reply, storage', hprep, -⟩
  rw [hnone] at hprep
  cases hprep

/-- Two properties, the second under an exclusion. -/
theorem properties_paired_iff_one :
    PairsProperties recurrentSpot.setFormula ∅ ⟨["GFa".toList, "GFa".toList], [[], "a,b".toList]⟩ [['7']] ↔ 2 ≤ 2 := by
  refine properties_paired_iff ⟨fun _ _ => rfl, fun _ _ => rfl⟩ ⟨['7'], by simp, by simp⟩ fun prop hprop => ?_
  simp only [List.mem_cons, List.not_mem_nil, or_false, or_self] at hprop
  rw [hprop]
  rfl

end LtlFuzzer.Service
