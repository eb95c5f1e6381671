import LtlFuzzer.Automata.Transitions
import LtlFuzzer.Foundation.Runs
import LtlFuzzer.Service.SubmitTrace

/-! Sessions: preparing lists of properties, and histories of requests handled one at a time. -/
namespace LtlFuzzer.Service
open Foundation Automata

structure LTLList where
  properties : List Str
  exclude : List Str

/-- The session identifier is set on success only. -/
structure PrepareReply where
  message : Str
  uuid : Str
  deriving DecidableEq, Repr

/-- set_formula on a new automaton: what it leaves behind, or what() of its exception. -/
abbrev SetFormula := Str → Str → Except Str SessionAutomaton

/-- The loop over the properties appends to the stored list until an exception ends it.
None is an access past the exclude entries. -/
def createAutomata (setFormula : SetFormula) :
    List Str → List Str → List SessionAutomaton → Option (List SessionAutomaton × Option Str)
  | [], _, list => some (list, none)
  | _ :: _, [], _ => none
  | prop :: properties, excl :: exclude, list => match setFormula prop excl with
    | .ok atm => createAutomata setFormula properties exclude (list ++ [atm])
    | .error what => some (list, some what)

def loaded (uuid : Str) : Status × PrepareReply := (⟨.ok, []⟩, ⟨"Properties loaded.".toList, uuid⟩)

def prepareLTLProperties (setFormula : SetFormula) (storage : Storage) (request : LTLList) (draws : List Str) :
    Option ((Status × PrepareReply) × Storage) := do
  let uuid ← draws.find? (· ∉ storage)
  let (list, failure) ← createAutomata setFormula request.properties request.exclude []
  let reply := match failure with
    | none => loaded uuid
    | some what => (⟨.invalidArgument, what⟩, ⟨"Failed to create automata.".toList, []⟩)
  some (reply, storage.insert uuid list)

/-- The graph when the BDD library has n variables or more, which other automata can raise. -/
def withVars (A : TwaGraph) (n : Nat) : TwaGraph :=
  { A with
    bddvarnum := max A.bddvarnum n
    allocated := fun v hv => Nat.lt_of_lt_of_le (A.allocated v hv) (Nat.le_max_left _ _) }

def SessionAutomaton.withVars (a : SessionAutomaton) (n : Nat) : SessionAutomaton :=
  ⟨Service.withVars a.graph n, a.formula, a.nonFalse⟩

/-- What a request finds: the sessions and the file-scope result cells. -/
structure Server where
  storage : Storage
  statics : Statics

def Server.fresh : Server := ⟨∅, {}⟩

def Server.prepare (setFormula : SetFormula) (s : Server) (request : LTLList) (draws : List Str) :
    Option ((Status × PrepareReply) × Server) :=
  (prepareLTLProperties setFormula s.storage request draws).map fun r => (r.1, { s with storage := r.2 })

/-- A trace is evaluated while the library has some number of variables. -/
def Server.submit (s : Server) (request : TraceInput) (bddvarnum : Nat) : Option ((Status × CheckResult) × Server) :=
  (submitTrace (s.storage.map fun _ list => list.map (·.withVars bddvarnum)) request s.statics).map
    fun r => (r.1, { s with statics := r.2 })

/-- A request with what its environment decides: the identifiers drawn, the library's variables. -/
inductive Request where
  | prepare (request : LTLList) (draws : List Str)
  | submit (request : TraceInput) (bddvarnum : Nat)

def Server.handle (setFormula : SetFormula) (s : Server) : Request → Option Server
  | .prepare request draws => (s.prepare setFormula request draws).map Prod.snd
  | .submit request bddvarnum => (s.submit request bddvarnum).map Prod.snd

variable {setFormula : SetFormula}

theorem fresh_of_drawn {storage : Storage} {draws : List Str} {uuid : Str} (h : draws.find? (· ∉ storage) = some uuid) :
    uuid ∉ storage := by
  simpa using List.find?_some h

/-- As many exclude entries as properties, an identifier that is not in use among those
drawn, and a trace that is not empty. -/
def Server.InDomain (s : Server) : Request → Prop
  | .prepare request draws => request.exclude.length = request.properties.length ∧ ∃ u ∈ draws, u ∉ s.storage
  | .submit request _ => request.trace ≠ []

/-- The loop stays within the exclude entries where there is one for each property. -/
theorem createAutomata_isSome (setFormula : SetFormula) {properties exclude : List Str} (list : List SessionAutomaton)
    (h : properties.length ≤ exclude.length) : ∃ r, createAutomata setFormula properties exclude list = some r := by
  induction properties generalizing exclude list with
  | nil => exact ⟨_, rfl⟩
  | cons prop properties ih =>
    obtain ⟨excl, exclude, rfl⟩ := List.exists_cons_of_length_pos (Nat.lt_of_lt_of_le (Nat.succ_pos _) h)
    rw [createAutomata]
    cases setFormula prop excl with
    | ok atm => exact ih _ (by simpa using h)
    | error what => exact ⟨_, rfl⟩

/-- Drawing identifiers ends once one is not in use. -/
theorem exists_drawn {storage : Storage} {draws : List Str} (h : ∃ u ∈ draws, u ∉ storage) :
    ∃ u, draws.find? (· ∉ storage) = some u ∧ u ∉ storage := by
  obtain ⟨u, hu, hfresh⟩ := h
  obtain ⟨v, hv⟩ : ∃ v, draws.find? (· ∉ storage) = some v := by
    rw [← Option.isSome_iff_exists, List.find?_isSome]
    exact ⟨u, hu, decide_eq_true hfresh⟩
  exact ⟨v, hv, fresh_of_drawn hv⟩

/-- Every history of such requests is served to its end. -/
theorem history_served (history : List Request) {s : Server}
    (h : Runs.AllMeet (Server.handle setFormula) Server.InDomain s history) :
    ∃ s', history.foldlM (Server.handle setFormula) s = some s' := by
  refine Runs.exists_foldlM_of_allMeet (fun s r hr => ?_) history h
  cases r with
  | prepare request draws =>
    obtain ⟨hlen, hdraws⟩ := hr
    obtain ⟨v, hv, -⟩ := exists_drawn hdraws
    obtain ⟨⟨list, failure⟩, hc⟩ := createAutomata_isSome setFormula [] hlen.ge
    rw [Server.handle, Server.prepare, prepareLTLProperties, hv, Option.bind_eq_bind, Option.bind_some, hc]
    exact ⟨_, rfl⟩
  | submit request bddvarnum =>
    have hne : traceEvents request.trace ≠ [] := Delimiters.getlines_ne_nil hr
    rw [Server.handle, Server.submit, submitTrace]
    cases hlist : (s.storage.map fun _ list => list.map (·.withVars bddvarnum))[request.uuid]? with
    | none => exact ⟨_, rfl⟩
    | some list =>
      obtain ⟨r, st', hcheck, -⟩ := checkSession_spec hne list ⟨false, []⟩ s.statics
      simp only [hcheck]
      exact ⟨_, rfl⟩

def recurrentSession : SessionAutomaton := ⟨recurrent, "GFa".toList, recurrent_nonFalse⟩

end LtlFuzzer.Service
