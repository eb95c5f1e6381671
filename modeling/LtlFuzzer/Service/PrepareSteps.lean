import LtlFuzzer.Service.Sessions
import Mathlib.Logic.Function.Basic

/-! Preparations that run at the same time: the identifier is looked up in one step and
inserted under the lock in another. -/
namespace LtlFuzzer.Service
open Foundation Automata

/-- Where a preparation stands: it draws identifiers, has found one that is not in use, has
inserted its list and appended automata up to a property, or has replied. -/
inductive PreparePhase where
  | drawing
  | drawn (uuid : Str)
  | building (uuid : Str) (i : Nat)
  | replied (reply : Status × PrepareReply)

/-- Each request allocates one list, so the storage points to requests. -/
structure PrepareConfig (ι : Type) where
  phase : ι → PreparePhase
  storage : Std.TreeMap Str ι
  lists : ι → List SessionAutomaton

variable {ι : Type} [DecidableEq ι]

namespace PrepareConfig

def setPhase (c : PrepareConfig ι) (r : ι) (p : PreparePhase) : PrepareConfig ι :=
  { c with phase := Function.update c.phase r p }

def start : PrepareConfig ι := ⟨fun _ => .drawing, ∅, fun _ => []⟩

/-- The next pass of the loop over the properties, or the reply after the last. -/
def stepBuilding (setFormula : SetFormula) (request : LTLList) (c : PrepareConfig ι) (r : ι) (uuid : Str)
    (i : Nat) : Option (PrepareConfig ι) :=
  match request.properties[i]? with
  | none => some (c.setPhase r (.replied (loaded uuid)))
  | some prop => match request.exclude[i]? with
    | none => none
    | some excl => match setFormula prop excl with
      | .ok atm =>
        some ({ c with lists := Function.update c.lists r (c.lists r ++ [atm]) }.setPhase r (.building uuid (i + 1)))
      | .error what =>
        some (c.setPhase r (.replied (⟨.invalidArgument, what⟩, ⟨"Failed to create automata.".toList, []⟩)))

/-- One step of one request, with the identifier it would draw. -/
def step (setFormula : SetFormula) (requests : ι → LTLList) (c : PrepareConfig ι) (a : ι × Str) :
    Option (PrepareConfig ι) :=
  match c.phase a.1 with
  | .drawing => if a.2 ∈ c.storage then some c else some (c.setPhase a.1 (.drawn a.2))
  | .drawn uuid =>
    some ({ c with
      storage := c.storage.insert uuid a.1
      lists := Function.update c.lists a.1 [] }.setPhase a.1 (.building uuid 0))
  | .building uuid i => stepBuilding setFormula (requests a.1) c a.1 uuid i
  | .replied _ => none

def run (setFormula : SetFormula) (requests : ι → LTLList) (schedule : List (ι × Str)) : Option (PrepareConfig ι) :=
  schedule.foldlM (step setFormula requests) start

def RepliesOk (c : PrepareConfig ι) (r : ι) (uuid : Str) : Prop :=
  ∃ reply, c.phase r = .replied reply ∧ reply.1.code = .ok ∧ reply.2.uuid = uuid

end PrepareConfig

/-- The list that a request builds, where all its properties become automata. -/
def built (setFormula : SetFormula) (request : LTLList) : Option (List SessionAutomaton) :=
  match createAutomata setFormula request.properties request.exclude [] with
  | some (list, none) => some list
  | _ => none

/-- No two OK replies carry one identifier, and each stands for the list its request built. -/
structure SessionsKept (setFormula : SetFormula) (requests : ι → LTLList) (c : PrepareConfig ι) : Prop where
  distinct : ∀ r s uuid, c.RepliesOk r uuid → c.RepliesOk s uuid → r = s
  stored : ∀ r uuid, c.RepliesOk r uuid → c.storage[uuid]? = some r ∧ built setFormula (requests r) = some (c.lists r)

/-- A step that inserts replaces no list of a request that can still be, or has been, answered OK. -/
def KeepsServed (setFormula : SetFormula) (requests : ι → LTLList) (c : PrepareConfig ι) (a : ι × Str) : Prop :=
  match c.phase a.1 with
  | .drawn uuid => ∀ s ∈ c.storage[uuid]?, built setFormula (requests s) = none
  | _ => True

/-- How far one request is: the passes left give what its whole loop gives, and its list is
found under its identifier as long as it can be answered OK. -/
def Progress (setFormula : SetFormula) (request : LTLList) (c : PrepareConfig ι) (r : ι) : Prop :=
  match c.phase r with
  | .drawing => True
  | .drawn _ => True
  | .building uuid i =>
    createAutomata setFormula (request.properties.drop i) (request.exclude.drop i) (c.lists r) =
      createAutomata setFormula request.properties request.exclude [] ∧
    (built setFormula request ≠ none → c.storage[uuid]? = some r)
  | .replied reply => reply.1.code = .ok →
    built setFormula request = some (c.lists r) ∧ c.storage[reply.2.uuid]? = some r

variable {setFormula : SetFormula} {requests : ι → LTLList} {c c' : PrepareConfig ι} {r s : ι}

@[simp] theorem setPhase_self (p : PreparePhase) : (c.setPhase r p).phase r = p := by
  simp [PrepareConfig.setPhase]

@[simp] theorem setPhase_of_ne (p : PreparePhase) (h : s ≠ r) : (c.setPhase r p).phase s = c.phase s := by
  simp [PrepareConfig.setPhase, h]

omit [DecidableEq ι] in
/-- A request keeps its place when its phase and list stay and its entry is not replaced. -/
private theorem Progress.frame (h : Progress setFormula (requests s) c s) (hphase : c'.phase s = c.phase s)
    (hlist : c'.lists s = c.lists s)
    (hstore : ∀ uuid : Str, built setFormula (requests s) ≠ none → c.storage[uuid]? = some s → c'.storage[uuid]? = some s) :
    Progress setFormula (requests s) c' s := by
  rw [Progress] at h ⊢
  rw [hphase]
  cases hp : c.phase s with
  | drawing => trivial
  | drawn uuid => trivial
  | building uuid i =>
    rw [hp] at h
    exact ⟨by rw [hlist]; exact h.1, fun hb => hstore uuid hb (h.2 hb)⟩
  | replied reply =>
    rw [hp] at h
    intro hok
    obtain ⟨hb, hentry⟩ := h hok
    exact ⟨by rw [hlist]; exact hb, hstore _ (by simp [hb]) hentry⟩

private theorem progress_building {uuid : Str} {i : Nat} (hp : c.phase r = .building uuid i)
    (h : Progress setFormula (requests r) c r)
    (hs : PrepareConfig.stepBuilding setFormula (requests r) c r uuid i = some c') :
    Progress setFormula (requests r) c' r ∧
      ∀ s ≠ r, c'.phase s = c.phase s ∧ c'.lists s = c.lists s ∧ c'.storage = c.storage := by
  rw [Progress, hp] at h
  obtain ⟨hloop, hentry⟩ := h
  rw [PrepareConfig.stepBuilding] at hs
  cases hprop : (requests r).properties[i]? with
  | none =>
    simp only [hprop, Option.some.injEq] at hs
    subst hs
    refine ⟨?_, fun s hs => ⟨setPhase_of_ne _ hs, rfl, rfl⟩⟩
    rw [List.drop_eq_nil_of_le (List.getElem?_eq_none_iff.mp hprop), createAutomata] at hloop
    have hb : built setFormula (requests r) = some (c.lists r) := by rw [built, ← hloop]
    rw [Progress, setPhase_self]
    exact fun _ => ⟨hb, hentry (by simp [hb])⟩
  | some prop =>
    cases hexcl : (requests r).exclude[i]? with
    | none => simp [hprop, hexcl] at hs
    | some excl =>
      obtain ⟨hi, rfl⟩ := List.getElem?_eq_some_iff.mp hprop
      obtain ⟨he, rfl⟩ := List.getElem?_eq_some_iff.mp hexcl
      rw [List.drop_eq_getElem_cons hi, List.drop_eq_getElem_cons he, createAutomata] at hloop
      simp only [hprop, hexcl] at hs
      cases hset : setFormula (requests r).properties[i] (requests r).exclude[i] with
      | ok atm =>
        simp only [hset, Option.some.injEq] at hs hloop
        subst hs
        refine ⟨?_, fun s hs => ⟨setPhase_of_ne _ hs, Function.update_of_ne hs _ _, rfl⟩⟩
        rw [Progress, setPhase_self]
        exact ⟨by simpa [PrepareConfig.setPhase] using hloop, hentry⟩
      | error what =>
        simp only [hset, Option.some.injEq] at hs
        subst hs
        refine ⟨?_, fun s hs => ⟨setPhase_of_ne _ hs, rfl, rfl⟩⟩
        rw [Progress, setPhase_self]
        intro hok
        cases hok

/-- An insertion starts the loop of its request, and takes the entry of no list still to be served. -/
private theorem progress_insert {uuid : Str} (h : ∀ s, Progress setFormula (requests s) c s)
    (hfree : ∀ s ∈ c.storage[uuid]?, built setFormula (requests s) = none) (r s : ι) :
    Progress setFormula (requests s) ({ c with
      storage := c.storage.insert uuid r
      lists := Function.update c.lists r [] }.setPhase r (.building uuid 0)) s := by
  by_cases hsr : s = r
  · subst hsr
    rw [Progress, setPhase_self]
    exact ⟨by simp [PrepareConfig.setPhase], fun _ => by simp [PrepareConfig.setPhase]⟩
  · refine (h s).frame (setPhase_of_ne _ hsr) (Function.update_of_ne hsr _ _) fun u hb he => ?_
    have hne : uuid ≠ u := by
      rintro rfl
      exact hb (hfree s he)
    simpa [PrepareConfig.setPhase, Std.TreeMap.getElem?_insert, hne] using he

private theorem progress_step (c : PrepareConfig ι) (a : ι × Str) (c' : PrepareConfig ι)
    (h : ∀ s, Progress setFormula (requests s) c s) (hk : KeepsServed setFormula requests c a)
    (hs : PrepareConfig.step setFormula requests c a = some c') : ∀ s, Progress setFormula (requests s) c' s := by
  obtain ⟨r, draw⟩ := a
  rw [PrepareConfig.step] at hs
  rw [KeepsServed] at hk
  intro s
  cases hp : c.phase r with
  | drawing =>
    simp only [hp] at hs
    split at hs
    · obtain rfl := Option.some.inj hs
      exact h s
    · obtain rfl := Option.some.inj hs
      by_cases hsr : s = r
      · subst hsr
        rw [Progress, setPhase_self]
        trivial
      · exact (h s).frame (setPhase_of_ne _ hsr) rfl fun _ _ he => he
  | drawn uuid =>
    simp only [hp, Option.some.injEq] at hs hk
    subst hs
    exact progress_insert h hk r s
  | building uuid i =>
    simp only [hp] at hs
    obtain ⟨hr, hothers⟩ := progress_building hp (h r) hs
    by_cases hsr : s = r
    · subst hsr
      exact hr
    · obtain ⟨hphase, hlist, hstore⟩ := hothers s hsr
      exact (h s).frame hphase hlist fun u _ he => by rw [hstore]; exact he
  | replied reply => simp [hp] at hs

/-- No session is lost or swapped in runs that never replace a list still to be served. -/
theorem sessions_kept {schedule : List (ι × Str)} {c : PrepareConfig ι}
    (hk : Runs.AllMeet (PrepareConfig.step setFormula requests) (KeepsServed setFormula requests)
      PrepareConfig.start schedule)
    (hr : PrepareConfig.run setFormula requests schedule = some c) : SessionsKept setFormula requests c := by
  have hstart (s : ι) : Progress setFormula (requests s) (PrepareConfig.start : PrepareConfig ι) s := trivial
  have hall := Runs.foldlM_of_allMeet (fun c => ∀ s, Progress setFormula (requests s) c s) progress_step
    schedule hstart hk hr
  have hentry (r : ι) (uuid : Str) (h : c.RepliesOk r uuid) :
      c.storage[uuid]? = some r ∧ built setFormula (requests r) = some (c.lists r) := by
    obtain ⟨reply, hp, hok, rfl⟩ := h
    have hprogress := hall r
    rw [Progress, hp] at hprogress
    exact (hprogress hok).symm
  refine ⟨fun r s uuid hr hs => ?_, hentry⟩
  exact Option.some.inj ((hentry r uuid hr).1.symm.trans (hentry s uuid hs).1)

def prepareRecurrent : SetFormula := fun _ _ => .ok recurrentSession

def recurrentLists : Fin 2 → LTLList := fun _ => ⟨["GFa".toList], [[]]⟩

/-- Both requests look up 7 before either inserts it. -/
theorem prepare_same_uuid :
    ∃ schedule c, PrepareConfig.run prepareRecurrent recurrentLists schedule = some c ∧
      c.RepliesOk 0 ['7'] ∧ c.RepliesOk 1 ['7'] ∧ ¬ SessionsKept prepareRecurrent recurrentLists c := by
  have hrun : ∃ c, PrepareConfig.run prepareRecurrent recurrentLists
      ([0, 1, 0, 1, 0, 1, 0, 1].map fun r => (r, ['7'])) = some c ∧
      c.phase 0 = .replied (loaded ['7']) ∧ c.phase 1 = .replied (loaded ['7']) := ⟨_, rfl, rfl, rfl⟩
  obtain ⟨c, hc, h0, h1⟩ := hrun
  have hr0 : c.RepliesOk 0 ['7'] := ⟨_, h0, rfl, rfl⟩
  have hr1 : c.RepliesOk 1 ['7'] := ⟨_, h1, rfl, rfl⟩
  exact ⟨_, c, hc, hr0, hr1, fun h => nomatch h.distinct 0 1 _ hr0 hr1⟩

theorem sessions_kept_recurrent :
    ∃ c, PrepareConfig.run prepareRecurrent recurrentLists
        [(0, ['7']), (0, []), (1, ['7']), (1, ['8']), (1, []), (0, []), (1, []), (0, []), (1, [])] = some c ∧
      SessionsKept prepareRecurrent recurrentLists c := by
  have hk : Runs.AllMeet (PrepareConfig.step prepareRecurrent recurrentLists) (KeepsServed prepareRecurrent recurrentLists)
      PrepareConfig.start
      [(0, ['7']), (0, []), (1, ['7']), (1, ['8']), (1, []), (0, []), (1, []), (0, []), (1, [])] := by
    refine ⟨trivial, ?_, trivial, trivial, ?_, trivial, trivial, trivial, trivial, trivial⟩
    · exact fun s hs => nomatch hs
    · exact fun s hs => nomatch hs
  exact ⟨_, rfl, sessions_kept hk rfl⟩

end LtlFuzzer.Service
