import LtlFuzzer.Foundation.Runs
import LtlFuzzer.Service.RequestSteps
import Mathlib.Data.Fintype.Basic
import Mathlib.Logic.Function.Basic

/-! Submissions that run at the same time, step by step, on the cells they share. -/
namespace LtlFuzzer.Service
open Foundation Automata

/-- Where a request stands: between tests, inside one, or past an invalid read. An event
test keeps its set of indices alive until it has read its result. -/
inductive Thread (ρ : Type) where
  | between (p : Prog ρ)
  | inTrue (callbacks : List (List Int)) (next : Bool → Prog ρ)
  | inCond (set : Std.TreeSet Nat) (callbacks : List (List Int)) (next : Bool → Prog ρ)
  | undefined

namespace Thread
variable {ρ : Type}

def reply : Thread ρ → Option ρ
  | .between (.done r) => some r
  | _ => none

/-- The set that check_cond_events points to while the test runs. -/
def localSet : Thread ρ → Option (Std.TreeSet Nat)
  | .inCond set _ _ => some set
  | _ => none

def isUndefined : Thread ρ → Bool
  | .undefined => true
  | _ => false

/-- A TRUE test has begun and not yet read its result. -/
def insideTrue : Thread ρ → Bool
  | .inTrue _ _ => true
  | _ => false

def insideCond : Thread ρ → Bool
  | .inCond _ _ _ => true
  | _ => false

/-- The next step belongs to a TRUE test. -/
def testsTrue : Thread ρ → Bool
  | .between (.trueTest _ _) => true
  | .inTrue _ _ => true
  | _ => false

def testsCond : Thread ρ → Bool
  | .between (.condTest _ _ _) => true
  | .inCond _ _ _ => true
  | _ => false

end Thread

/-- The requests, the file-scope cells and the mutexes held. The shared pointer is the
request whose set it points to. -/
structure Config (ι ρ : Type) where
  threads : ι → Thread ρ
  checkCondRes : Bool
  isTrueCondRes : Bool
  checkCondEvents : Option ι
  held : List Mutex

section
variable {ι ρ : Type} [DecidableEq ι]

namespace Config

def setThread (c : Config ι ρ) (i : ι) (t : Thread ρ) : Config ι ρ :=
  { c with threads := Function.update c.threads i t }

/-- A callback of a TRUE test, or the read that ends it. -/
def stepTrue (c : Config ι ρ) (i : ι) (next : Bool → Prog ρ) : List (List Int) → Config ι ρ
  | [] => c.setThread i (.between (next c.isTrueCondRes))
  | cond :: rest => { c with isTrueCondRes := isTrueCondHelper cond }.setThread i (.inTrue rest next)

/-- A callback of an event test, or the read that ends it. The callback follows the shared pointer. -/
def stepCond (c : Config ι ρ) (i : ι) (set : Std.TreeSet Nat) (next : Bool → Prog ρ) :
    List (List Int) → Config ι ρ
  | [] => c.setThread i (.between (next c.checkCondRes))
  | cond :: rest => match c.checkCondEvents.bind fun j => (c.threads j).localSet with
    | none => c.setThread i .undefined
    | some events =>
      { c with checkCondRes := checkCondHelper events cond }.setThread i (.inCond set rest next)

/-- One step of one request; none where it is finished or waits for a lock. -/
def step (c : Config ι ρ) (i : ι) : Option (Config ι ρ) :=
  match c.threads i with
  | .undefined => none
  | .between (.done _) => none
  | .between (.lock m next) =>
    if m ∈ c.held then none else some ({ c with held := m :: c.held }.setThread i (.between next))
  | .between (.unlock m next) => some ({ c with held := c.held.erase m }.setThread i (.between next))
  | .between (.trueTest callbacks next) => some (c.stepTrue i next callbacks)
  | .between (.condTest set callbacks next) =>
    some ({ c with checkCondEvents := some i }.setThread i (.inCond set callbacks next))
  | .inTrue callbacks next => some (c.stepTrue i next callbacks)
  | .inCond set callbacks next => some (c.stepCond i set next callbacks)

def run (c : Config ι ρ) (schedule : List ι) : Option (Config ι ρ) := schedule.foldlM step c

/-- The request does not test a cell that another request is testing. -/
def Clear (c : Config ι ρ) (i : ι) : Prop :=
  ((c.threads i).testsTrue = true → ∀ j, j ≠ i → (c.threads j).insideTrue = false) ∧
  ((c.threads i).testsCond = true → ∀ j, j ≠ i → (c.threads j).insideCond = false)

instance [Fintype ι] (c : Config ι ρ) (i : ι) : Decidable (c.Clear i) :=
  inferInstanceAs (Decidable ((_ → ∀ _, _) ∧ (_ → ∀ _, _)))

/-- Every step of the schedule is clear where it is taken. -/
def Polite (c : Config ι ρ) (schedule : List ι) : Prop := Runs.AllMeet step Clear c schedule

instance [Fintype ι] (c : Config ι ρ) (schedule : List ι) : Decidable (c.Polite schedule) :=
  inferInstanceAs (Decidable (Runs.AllMeet step Clear c schedule))

end Config

/-- A thread will reply as planned, given the cells that it alone may be testing. -/
def Thread.OnCourse (c : Config ι ρ) (i : ι) (r : ρ) : Thread ρ → Prop
  | .between p => p.Steady ∧ ∀ st, (p.alone st).1 = r
  | .inTrue callbacks next => (∀ b, (next b).Steady) ∧
      ∀ st : Statics, st.isTrueCondRes = c.isTrueCondRes → ((Prog.trueTest callbacks next).alone st).1 = r
  | .inCond set callbacks next => (∀ b, (next b).Steady) ∧ c.checkCondEvents = some i ∧
      ∀ st : Statics, st.checkCondRes = c.checkCondRes → ((Prog.condTest set callbacks next).alone st).1 = r
  | .undefined => False

def Config.OnCourse (c : Config ι ρ) (plan : ι → ρ) : Prop := ∀ i, (c.threads i).OnCourse c i (plan i)

variable {c : Config ι ρ} {plan : ι → ρ} {i : ι}

/-- Replacing one thread keeps the others on course if they do not mind the new cells. -/
private theorem onCourse_setThread (c₁ : Config ι ρ) (t : Thread ρ) (hthreads : c₁.threads = c.threads)
    (hi : t.OnCourse c₁ i (plan i)) (hothers : ∀ j, j ≠ i → (c.threads j).OnCourse c₁ j (plan j)) :
    (c₁.setThread i t).OnCourse plan := by
  intro j
  by_cases hj : j = i
  · subst hj
    simp only [Config.setThread, Function.update_self]
    exact hi
  · simp only [Config.setThread, Function.update_of_ne hj, hthreads]
    exact hothers j hj

omit [DecidableEq ι] in
private theorem onCourse_trueCell {j : ι} {r : ρ} {t : Thread ρ} (b : Bool) (ht : t.insideTrue = false)
    (h : t.OnCourse c j r) : t.OnCourse { c with isTrueCondRes := b } j r := by
  cases t with
  | inTrue callbacks next => cases ht
  | between p => exact h
  | inCond set callbacks next => exact h
  | undefined => exact h

omit [DecidableEq ι] in
private theorem onCourse_condCells {j : ι} {r : ρ} {t : Thread ρ} (b : Bool) (events : Option ι)
    (ht : t.insideCond = false) (h : t.OnCourse c j r) :
    t.OnCourse { c with checkCondRes := b, checkCondEvents := events } j r := by
  cases t with
  | inCond set callbacks next => cases ht
  | between p => exact h
  | inTrue callbacks next => exact h
  | undefined => exact h

private theorem stepTrue_onCourse (h : c.OnCourse plan)
    (hclear : ∀ j, j ≠ i → (c.threads j).insideTrue = false) {callbacks : List (List Int)}
    {next : Bool → Prog ρ} (hi : (Thread.inTrue callbacks next).OnCourse c i (plan i)) :
    (c.stepTrue i next callbacks).OnCourse plan := by
  obtain ⟨hsteady, halone⟩ := hi
  cases callbacks with
  | nil =>
    refine onCourse_setThread c _ rfl ⟨hsteady _, fun st => ?_⟩ fun j _ => h j
    rw [← halone { isTrueCondRes := c.isTrueCondRes } rfl]
    exact (hsteady _).alone_eq _ _
  | cons cond rest =>
    refine onCourse_setThread { c with isTrueCondRes := isTrueCondHelper cond } _ rfl
      ⟨hsteady, fun st hst => ?_⟩ fun j hj => onCourse_trueCell _ (hclear j hj) (h j)
    have hst : st.isTrueCondRes = isTrueCondHelper cond := hst
    rw [← halone { st with isTrueCondRes := c.isTrueCondRes } rfl]
    have hcell : { st with isTrueCondRes := isTrueCondHelper cond } = st := by
      rw [← hst]
    simp only [Prog.alone, List.foldl_cons, hcell]

private theorem stepCond_onCourse (h : c.OnCourse plan)
    (hclear : ∀ j, j ≠ i → (c.threads j).insideCond = false) {set : Std.TreeSet Nat}
    {callbacks : List (List Int)} {next : Bool → Prog ρ} (ht : c.threads i = .inCond set callbacks next) :
    (c.stepCond i set next callbacks).OnCourse plan := by
  have hi := h i
  rw [ht] at hi
  obtain ⟨hsteady, hevents, halone⟩ := hi
  cases callbacks with
  | nil =>
    refine onCourse_setThread c _ rfl ⟨hsteady _, fun st => ?_⟩ fun j _ => h j
    rw [← halone { checkCondRes := c.checkCondRes } rfl]
    exact (hsteady _).alone_eq _ _
  | cons cond rest =>
    have hset : (c.checkCondEvents.bind fun j => (c.threads j).localSet) = some set := by
      rw [hevents, Option.bind_some, ht, Thread.localSet]
    rw [Config.stepCond, hset]
    refine onCourse_setThread { c with checkCondRes := checkCondHelper set cond } _ rfl
      ⟨hsteady, hevents, fun st hst => ?_⟩ fun j hj => onCourse_condCells _ _ (hclear j hj) (h j)
    have hst : st.checkCondRes = checkCondHelper set cond := hst
    rw [← halone { st with checkCondRes := c.checkCondRes } rfl]
    simp only [Prog.alone, List.foldl_cons, hst]

/-- A clear step keeps every request on course. -/
theorem step_onCourse (h : c.OnCourse plan) (hclear : c.Clear i) {c' : Config ι ρ} (hs : c.step i = some c') :
    c'.OnCourse plan := by
  have hi := h i
  obtain ⟨htrue, hcond⟩ := hclear
  unfold Config.step at hs
  split at hs
  · cases hs
  · cases hs
  · rename_i m next ht
    rw [ht] at hi
    split_ifs at hs
    cases hs
    exact onCourse_setThread { c with held := m :: c.held } _ rfl hi fun j _ => h j
  · rename_i m next ht
    rw [ht] at hi
    cases hs
    exact onCourse_setThread { c with held := c.held.erase m } _ rfl hi fun j _ => h j
  · rename_i callbacks next ht
    rw [ht] at hi htrue
    cases hs
    exact stepTrue_onCourse h (htrue rfl) ⟨hi.1.2, fun st _ => hi.2 st⟩
  · rename_i set callbacks next ht
    rw [ht] at hi hcond
    cases hs
    refine onCourse_setThread { c with checkCondEvents := some i } _ rfl
      ⟨hi.1.2, rfl, fun st _ => hi.2 st⟩ fun j hj => ?_
    exact onCourse_condCells c.checkCondRes (some i) (hcond rfl j hj) (h j)
  · rename_i callbacks next ht
    rw [ht] at hi htrue
    cases hs
    exact stepTrue_onCourse h (htrue rfl) hi
  · rename_i set callbacks next ht
    rw [ht] at hcond
    cases hs
    exact stepCond_onCourse h (hcond rfl) ht

/-- So does a polite run. -/
theorem run_onCourse (schedule : List ι) (h : c.OnCourse plan) (hp : c.Polite schedule) {c' : Config ι ρ}
    (hr : c.run schedule = some c') : c'.OnCourse plan :=
  Runs.foldlM_of_allMeet (Config.OnCourse · plan) (fun _ _ _ h hclear hs => step_onCourse h hclear hs)
    schedule h hp hr

end

end LtlFuzzer.Service
