import LtlFuzzer.Automata.Transitions
import LtlFuzzer.Service.Interleaving

/-! Whether submissions that run at the same time get the replies they get alone. -/
namespace LtlFuzzer.Service
open Foundation Automata

/-- All requests are about to begin, over cells with any contents. -/
def start {ι : Type} (storage : Storage) (requests : ι → TraceInput) (cells : Statics) : Config ι Reply where
  threads i := .between (submitProg storage (requests i))
  checkCondRes := cells.checkCondRes
  isTrueCondRes := cells.isTrueCondRes
  checkCondEvents := none
  held := []

private theorem start_onCourse {ι : Type} (storage : Storage) (requests : ι → TraceInput) (cells st : Statics) :
    (start storage requests cells).OnCourse fun i => (submitTrace storage (requests i) st).map Prod.fst := by
  intro i
  have hsteady := steady_submitProg storage (requests i)
  exact ⟨hsteady, fun st' => (hsteady.alone_eq st' st).trans (alone_submitProg storage (requests i) st)⟩

/-- In every run where no guard test of one request meets a test of the same kind of
another, nothing undefined is reached and each reply is the one given alone. -/
theorem concurrent_replies_alone {ι : Type} [DecidableEq ι] (storage : Storage) (requests : ι → TraceInput)
    (cells : Statics) (schedule : List ι) (hp : (start storage requests cells).Polite schedule) (i : ι)
    (st : Statics) :
    ∀ c, (start storage requests cells).run schedule = some c →
      (c.threads i).isUndefined = false ∧
      ∀ reply, (c.threads i).reply = some reply →
        reply = (submitTrace storage (requests i) st).map Prod.fst := by
  intro c hc
  have hi := run_onCourse schedule (start_onCourse storage requests cells st) hp hc i
  cases ht : c.threads i with
  | undefined =>
    rw [ht] at hi
    exact hi.elim
  | inTrue callbacks next => exact ⟨rfl, fun _ h => by cases h⟩
  | inCond set callbacks next => exact ⟨rfl, fun _ h => by cases h⟩
  | between p =>
    rw [ht] at hi
    refine ⟨rfl, fun reply hr => ?_⟩
    cases p with
    | done r =>
      cases hr
      exact hi.2 st
    | lock m next => cases hr
    | unlock m next => cases hr
    | trueTest callbacks next => cases hr
    | condTest set callbacks next => cases hr

/-- Two sessions, one automaton each. -/
def twoSessions : Storage :=
  ((∅ : Storage).insert ['7'] eitherSession).insert ['8'] [⟨recurrent, "GFa".toList, recurrent_nonFalse⟩]

def twoRequests : Bool → TraceInput
  | false => ⟨['a'], ['7']⟩
  | true => ⟨['b'], ['8']⟩

/-- The first request is about to read the result of a | b when the second runs its
test of a. -/
def overtaking : List Bool :=
  List.replicate 12 false ++ List.replicate 5 true ++ List.replicate 2 false

/-- The second request's event test overwrites the result of the first, which then meets
a dead end and misses its violation. -/
theorem concurrent_reply_overtaken :
    ((start twoSessions twoRequests {}).run overtaking).bind (fun c => (c.threads false).reply) =
        some (some (⟨.ok, []⟩, ⟨false, []⟩)) ∧
      (submitTrace twoSessions (twoRequests false) {}).map Prod.fst =
        some (⟨.ok, []⟩, ⟨true, ["F(a | b), ".toList]⟩) := by
  refine ⟨?_, ?_⟩
  · decide
  · decide

/-- One request after the other. -/
def serial : List Bool := List.replicate 14 false ++ List.replicate 12 true

theorem concurrent_replies_alone_serial :
    ((start twoSessions twoRequests {}).run serial).isSome = true ∧
    ∀ c, (start twoSessions twoRequests {}).run serial = some c →
      (c.threads false).isUndefined = false ∧
      ∀ reply, (c.threads false).reply = some reply →
        reply = (submitTrace twoSessions (twoRequests false) {}).map Prod.fst :=
  ⟨by decide, concurrent_replies_alone twoSessions twoRequests {} serial (by decide) false {}⟩

end LtlFuzzer.Service
