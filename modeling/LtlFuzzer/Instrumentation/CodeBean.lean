import LtlFuzzer.Automata.ModelChecker
import LtlFuzzer.Foundation.Delimiters
import LtlFuzzer.Foundation.Faults
import LtlFuzzer.Foundation.Numerals
import Std.Data.TreeMap.Lemmas

/-! What an instrumented program records, and the automata path with the inputs
that it extracts from a checked trace. -/
namespace LtlFuzzer.Instrumentation
open Foundation Automata Numerals Delimiters

/-- How a step can end without a value: the reported counterexample, a number that
does not parse, or an index past the end of a vector. -/
inductive Stop where
  | counterexample
  | badNumber
  | outOfRange
  deriving DecidableEq, Repr

def readAt {α : Type} (l : List α) (i : Nat) : Except Stop α :=
  match l[i]? with
  | some a => .ok a
  | none => .error .outOfRange

theorem readAt_of_lt {α : Type} {l : List α} {i : Nat} (h : i < l.length) : readAt l i = .ok l[i] := by
  simp [readAt, h]

/-- The static vectors of the recorder. -/
structure CodeBean where
  traceCommon : List Int := []
  traceProtocol : List Str := []
  inputProtocol : List Str := []
  stateVector : List Nat := []
  eventReverseMap : Std.TreeMap Int Str := ∅
  propLocVec : List (Str × Nat) := []
  traceString : List Str := []

namespace CodeBean

def collectTrace (b : CodeBean) (input output : Int) : CodeBean :=
  { b with traceCommon := b.traceCommon ++ [input, output] }

def collectState (b : CodeBean) (hashValue : Nat) : CodeBean :=
  { b with stateVector := b.stateVector ++ [hashValue] }

def collectProposition (b : CodeBean) (prop : Str) : CodeBean :=
  { b with traceProtocol := b.traceProtocol ++ [prop],
           propLocVec := b.propLocVec ++ [(prop, b.inputProtocol.length)] }

def collectInput (b : CodeBean) (input : Str) : CodeBean :=
  { b with inputProtocol := b.inputProtocol ++ [input] }

/-- The event of a number; a number that is not mapped has the empty name. -/
def eventText (b : CodeBean) (i : Nat) (key : Int) : Str :=
  (if i % 2 = 0 then 'i' else 'o') :: (b.eventReverseMap[key]?).getD []

def normalizeTrace (b : CodeBean) : CodeBean :=
  { b with traceString := b.traceString ++ b.traceCommon.zipIdx.map fun (key, i) => b.eventText i key }

/-- The trace that is checked: propositions for protocols, named numbers otherwise. -/
def trace (b : CodeBean) (flag : Bool) : List Str := if flag then b.traceProtocol else b.traceString

end CodeBean

def inputText (common : List Int) (j : Nat) : Except Stop Str :=
  (readAt common j).map fun x => showInt x ++ [',']

/-- The inputs at even positions whose outputs are positive. -/
def skippedInputs (common : List Int) : List Nat → Except Stop Str
  | [] => pure []
  | j :: js => do
    let here ← if j % 2 = 0 then do
        let output ← readAt common (j + 1)
        if 0 < output then inputText common j else pure []
      else pure []
    return here ++ (← skippedInputs common js)

/-- The variables of the extraction loop. -/
structure Cursor where
  loc : Nat := 0
  curState : Int := -2
  aPath : Str := []
  pfx : Str := []

/-- The inputs appended where the state changes at a position. -/
def changeText (common : List Int) (loc i : Nat) : Except Stop Str := do
  let skipped ← skippedInputs common (List.range' (loc + 1) (i - (loc + 1)))
  let own ← if i % 2 = 0 then inputText common i else pure []
  return skipped ++ own

/-- The body run where the automaton state changes. -/
def extractChange (common : List Int) (flag : Bool) (x : Cursor) (p : Nat × Int) : Except Stop Cursor :=
  (if flag then .ok [] else changeText common x.loc p.1).map fun text =>
    ⟨p.1, p.2, x.aPath ++ (showInt p.2 ++ [',']), x.pfx ++ text⟩

def extractLoop (common : List Int) (flag : Bool) : List MCState → Nat → Cursor → Except Stop Cursor
  | [], _, x => pure x
  | m :: ms, i, x =>
    if m.state = -1 then pure x
    else if x.curState = m.state then extractLoop common flag ms (i + 1) x
    else do
      let x ← extractChange common flag x (i, m.state)
      extractLoop common flag ms (i + 1) x

/-- Messages end with two semicolons. -/
def messageMark : Str := [';', ';']

/-- The path and the prefix. -/
def extractPrefixAutomataPath (b : CodeBean) (states : List MCState) (flag : Bool) :
    Except Stop (Str × Str) := do
  let x ← extractLoop b.traceCommon flag states 0 {}
  if flag && x.aPath ≠ [] then
    let node ← readAt b.propLocVec x.loc
    let messages ← (List.range node.2).mapM (readAt b.inputProtocol)
    return (x.aPath, x.pfx ++ terminated messageMark messages)
  else return (x.aPath, x.pfx)

def getLastState (aPath : Str) : Except Stop Int :=
  match stoi (afterLast ',' aPath.dropLast) with
  | some n => .ok n
  | none => .error .badNumber

end LtlFuzzer.Instrumentation
