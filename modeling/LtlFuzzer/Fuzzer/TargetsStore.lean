import LtlFuzzer.Automata.Graph
import LtlFuzzer.Foundation.Delimiters
import LtlFuzzer.Foundation.Draws
import LtlFuzzer.Foundation.Runs
import LtlFuzzer.Foundation.Streams

/-! The numbers of events, as the fuzzer reads them, and the locations that stand for events. -/
namespace LtlFuzzer.Fuzzer
open Foundation Delimiters Streams

/-- Two words read from a line into one variable. -/
def readPair (line : Str) : Str × Str :=
  let first := nextToken [] line
  (first.1, (nextToken first.1 first.2).1)

def loadEvents (content : Str) : Std.TreeMap Str Str :=
  ((getlines '\n' content).map readPair).foldl (fun eventMap e => eventMap.insert e.1 e.2) ∅

/-- None is the exception for a number without an event. -/
def coding (eventMap : Std.TreeMap Str Str) (value : Str) : Option Str :=
  (eventMap.toList.find? fun e => e.2 = value).map Prod.fst

/-- The text before the last colon, or all of it. -/
def location (line : Str) : Str := if ':' ∈ line then (line.rdropWhile (· ≠ ':')).dropLast else line

/-- What follows the last colon, as a name where the flag is not set. -/
def targetEvent (eventMap : Std.TreeMap Str Str) (flag : Bool) (line : Str) : Option Str :=
  let event := afterLast ':' line
  if flag then some event else (coding eventMap event).map ('o' :: ·)

/-- The locations of each event; none is the exception for a number without an event. -/
def loadTargets (eventMap : Std.TreeMap Str Str) (flag : Bool) (content : Str) : Option (Std.TreeMap Str StrSet) :=
  (getlines '\n' content).foldlM (fun eventTargetMap line =>
    (targetEvent eventMap flag line).map fun event => file eventTargetMap event (location line)) ∅

inductive TargetType where
  | input
  | output
  deriving DecidableEq, Repr

structure TargetLocation where
  targetType : TargetType
  targetName : Str
  deriving DecidableEq, Repr

/-- None stands for front() of an empty string. -/
def getTargetType (target : Str) (flag : Bool) : Option TargetType :=
  if flag then some .output
  else target.head?.map fun c => if c = 'i' then .input else .output

/-- None is the exit for an event without locations. -/
def getTargetFromEvent (eventTargetMap : Std.TreeMap Str StrSet) (event : Str) (flag : Bool) (draw : Nat) :
    Option TargetLocation := do
  let type ← getTargetType event flag
  if type = .input then some ⟨.input, event⟩
  else
    let targets ← eventTargetMap[event]?
    let target ← drawn draw targets.toList
    let type ← getTargetType target flag
    some ⟨type, target⟩

def getTarget (eventTargetMap : Std.TreeMap Str StrSet) (event : Str) (flag : Bool) (draw : Nat) : Option TargetLocation :=
  getTargetFromEvent eventTargetMap event flag draw

/-- The file loads, and each of its events resolves to the locations on its lines, as outputs. -/
def ResolvesTargets (eventMap : Std.TreeMap Str Str) (flag : Bool) (content : Str) : Prop :=
  ∃ targets, loadTargets eventMap flag content = some targets ∧ ∀ event ∈ targets,
    (∀ draw, ∃ line ∈ getlines '\n' content, targetEvent eventMap flag line = some event ∧
      getTarget targets event flag draw = some ⟨.output, location line⟩) ∧
    ∀ line ∈ getlines '\n' content, targetEvent eventMap flag line = some event →
      ∃ draw, getTarget targets event flag draw = some ⟨.output, location line⟩

/-- A line is a location, a colon and an event that has no colon in it. -/
theorem line_split {loc event : Str} (h : ':' ∉ event) :
    location (loc ++ ':' :: event) = loc ∧ afterLast ':' (loc ++ ':' :: event) = event := by
  refine ⟨?_, afterLast_append loc h⟩
  rw [location, if_pos (by simp), rdropWhile_append loc h, List.dropLast_concat]

/-- Each line is a location with a colon in it, a colon and an event. -/
def LocationLines (content : Str) : Prop :=
  ∀ line ∈ getlines '\n' content, ∃ loc event, line = loc ++ ':' :: event ∧ ':' ∈ loc ∧ ':' ∉ event

/-- The number on each line has a name. -/
def AllCoded (eventMap : Std.TreeMap Str Str) (content : Str) : Prop :=
  ∀ line ∈ getlines '\n' content, ∃ name, coding eventMap (afterLast ':' line) = some name

variable {eventMap : Std.TreeMap Str Str} {flag : Bool} {content line event : Str} {targets : Std.TreeMap Str StrSet}

private theorem exists_targetEvent (hcoded : flag = false → AllCoded eventMap content) (hline : line ∈ getlines '\n' content) :
    ∃ event, targetEvent eventMap flag line = some event := by
  rw [targetEvent]
  cases flag with
  | true => exact ⟨_, rfl⟩
  | false =>
    obtain ⟨name, hname⟩ := hcoded rfl line hline
    exact ⟨'o' :: name, by simp [hname]⟩

/-- The store holds the locations of the lines, and no others, under their events. -/
private theorem loadTargets_spec (hcoded : flag = false → AllCoded eventMap content) :
    ∃ targets, loadTargets eventMap flag content = some targets ∧ (∀ event ∈ targets, ∃ loc, Filed targets event loc) ∧
      ∀ event loc, Filed targets event loc ↔
        ∃ line ∈ getlines '\n' content, targetEvent eventMap flag line = some event ∧ location line = loc := by
  have hread (line : Str) (hline : line ∈ getlines '\n' content) : ((targetEvent eventMap flag line).map fun event =>
      (event, location line)) = some ((targetEvent eventMap flag line).getD [], location line) := by
    obtain ⟨event, hevent⟩ := exists_targetEvent hcoded hline
    simp [hevent]
  have hload := Runs.foldlM_eq_foldl hread (fun m e => file m e.1 e.2) ∅
  simp only [Option.map_map, Function.comp_def] at hload
  refine ⟨_, hload, fun event => exists_filed, fun event loc => ?_⟩
  rw [filed_foldl, List.mem_map]
  apply exists_congr
  intro line
  apply and_congr_right
  intro hline
  obtain ⟨e, he⟩ := exists_targetEvent hcoded hline
  simp [he]

/-- The events under which locations are filed are outputs. -/
private theorem targetType_of_targetEvent (h : targetEvent eventMap flag line = some event) :
    getTargetType event flag = some .output := by
  cases flag with
  | true => rfl
  | false =>
    obtain ⟨name, -, rfl⟩ := Option.map_eq_some_iff.mp h
    rfl

private theorem getTarget_eq (htype : getTargetType event flag = some .output) {locations : StrSet}
    (hlocations : targets[event]? = some locations) (draw : Nat) :
    getTarget targets event flag draw = (drawn draw locations.toList).bind fun target =>
      (getTargetType target flag).map fun type => ⟨type, target⟩ := by
  rw [getTarget, getTargetFromEvent, htype]
  simp [hlocations, Option.map_eq_bind]

/-- Some draw gives a location, as an output, exactly when it is one of the event's and taken for an output. -/
private theorem exists_getTarget_iff (htype : getTargetType event flag = some .output) {locations : StrSet}
    (hlocations : targets[event]? = some locations) (loc : Str) :
    (∃ draw, getTarget targets event flag draw = some ⟨.output, loc⟩) ↔
      loc ∈ locations ∧ getTargetType loc flag = some .output := by
  rw [← Std.TreeSet.mem_toList, ← exists_drawn_iff]
  simp only [getTarget_eq htype hlocations]
  constructor
  · rintro ⟨draw, hdraw⟩
    obtain ⟨target, hdrawn, htarget⟩ := Option.bind_eq_some_iff.mp hdraw
    obtain ⟨type, hout, he⟩ := Option.map_eq_some_iff.mp htarget
    cases he
    exact ⟨⟨draw, hdrawn⟩, hout⟩
  · rintro ⟨⟨draw, hdrawn⟩, hout⟩
    refine ⟨draw, ?_⟩
    rw [hdrawn, Option.bind_some, hout]
    rfl

/-- Every draw gives one of the event's locations. -/
private theorem getTarget_of_outputs (htype : getTargetType event flag = some .output) {locations : StrSet}
    (hlocations : targets[event]? = some locations) {loc : Str} (hloc : loc ∈ locations)
    (houtputs : ∀ l ∈ locations, getTargetType l flag = some .output) (draw : Nat) :
    ∃ l ∈ locations, getTarget targets event flag draw = some ⟨.output, l⟩ := by
  obtain ⟨target, hmem, hdrawn⟩ := drawn_isSome (List.ne_nil_of_mem (Std.TreeSet.mem_toList.mpr hloc)) draw
  have htarget := Std.TreeSet.mem_toList.mp hmem
  refine ⟨target, htarget, ?_⟩
  rw [getTarget_eq htype hlocations, hdrawn, Option.bind_some, houtputs target htarget]
  rfl

/-- A location is taken for an output where the flag is set or it does not begin like an input. -/
private theorem getTargetType_eq_output_iff {target : Str} (hne : target ≠ []) :
    getTargetType target flag = some .output ↔ flag = true ∨ target.head? ≠ some 'i' := by
  obtain ⟨c, rest, rfl⟩ := List.exists_cons_of_ne_nil hne
  cases flag <;> simp [getTargetType]

/-- Targets resolve exactly when the location on each line is taken for an output. -/
private theorem resolvesTargets_iff (hcoded : flag = false → AllCoded eventMap content) :
    ResolvesTargets eventMap flag content ↔
      ∀ line ∈ getlines '\n' content, getTargetType (location line) flag = some .output := by
  obtain ⟨targets, hload, hkeys, hfiled⟩ := loadTargets_spec hcoded
  constructor
  · rintro ⟨targets', hload', hresolves⟩ line hline
    obtain rfl : targets = targets' := Option.some.inj (hload.symm.trans hload')
    obtain ⟨event, hevent⟩ := exists_targetEvent hcoded hline
    obtain ⟨locations, hlocations, -⟩ := (hfiled event (location line)).mpr ⟨line, hline, hevent, rfl⟩
    have hkey : event ∈ targets := Std.TreeMap.mem_iff_isSome_getElem?.mpr (by rw [hlocations]; rfl)
    have hdraw := (hresolves event hkey).2 line hline hevent
    exact ((exists_getTarget_iff (targetType_of_targetEvent hevent) hlocations _).mp hdraw).2
  · intro houtput
    refine ⟨targets, hload, fun event hkey => ?_⟩
    obtain ⟨loc, locations, hlocations, hloc⟩ := hkeys event hkey
    have hlines (l : Str) : l ∈ locations ↔
        ∃ line ∈ getlines '\n' content, targetEvent eventMap flag line = some event ∧ location line = l := by
      rw [← hfiled, Filed, hlocations]
      simp
    obtain ⟨line₀, -, hevent₀, -⟩ := (hlines loc).mp hloc
    have htype := targetType_of_targetEvent hevent₀
    constructor
    · intro draw
      have houtputs (l : Str) (hl : l ∈ locations) : getTargetType l flag = some .output := by
        obtain ⟨line, hline, -, rfl⟩ := (hlines l).mp hl
        exact houtput line hline
      obtain ⟨l, hl, hget⟩ := getTarget_of_outputs htype hlocations hloc houtputs draw
      obtain ⟨line, hline, hevent, rfl⟩ := (hlines l).mp hl
      exact ⟨line, hline, hevent, hget⟩
    · intro line hline hevent
      exact (exists_getTarget_iff htype hlocations _).mpr ⟨(hlines _).mpr ⟨line, hline, hevent, rfl⟩, houtput line hline⟩

/-- Targets resolve to what the file says exactly when the flag is set, or no location
begins with the letter that marks inputs. -/
theorem targets_resolve_iff (hlines : LocationLines content) (hcoded : flag = false → AllCoded eventMap content) :
    ResolvesTargets eventMap flag content ↔
      flag = true ∨ ∀ line ∈ getlines '\n' content, (location line).head? ≠ some 'i' := by
  simp only [resolvesTargets_iff hcoded, ← forall_or_left]
  apply forall₂_congr
  intro line hline
  obtain ⟨loc, event, rfl, hloc, hevent⟩ := hlines line hline
  rw [(line_split hevent).1]
  exact getTargetType_eq_output_iff (List.ne_nil_of_mem hloc)

def mapA : Std.TreeMap Str Str := (∅ : Std.TreeMap Str Str).insert ['A'] ['2']

/-- The location of event 2 begins with i, so it is taken for an input. -/
theorem targets_unresolved_init :
    (loadTargets mapA false "init.c:12:2".toList).map (fun targets => getTarget targets ['o', 'A'] false 0) =
        some (some ⟨.input, "init.c:12".toList⟩) ∧
      ¬ ResolvesTargets mapA false "init.c:12:2".toList := by
  have hload : loadTargets mapA false "init.c:12:2".toList =
      some ((∅ : Std.TreeMap Str StrSet).insert ['o', 'A'] ((∅ : StrSet).insert "init.c:12".toList)) := rfl
  refine ⟨by rw [hload]; rfl, ?_⟩
  rintro ⟨targets, h, hresolves⟩
  rw [hload] at h
  cases h
  obtain ⟨line, -, -, hget⟩ := (hresolves ['o', 'A'] (by decide)).1 0
  cases hget

/-- Two locations of one event. -/
theorem targets_resolve_iff_main :
    ResolvesTargets mapA false "main.c:12:2\nmain.c:40:2".toList ↔
      false = true ∨ ∀ line ∈ getlines '\n' "main.c:12:2\nmain.c:40:2".toList, (location line).head? ≠ some 'i' := by
  have hlines : getlines '\n' "main.c:12:2\nmain.c:40:2".toList = ["main.c:12:2".toList, "main.c:40:2".toList] := by decide
  refine targets_resolve_iff (fun line hline => ?_) fun _ line hline => ?_
  · rw [hlines, List.mem_pair] at hline
    rcases hline with rfl | rfl
    · exact ⟨"main.c:12".toList, ['2'], rfl, by decide, by decide⟩
    · exact ⟨"main.c:40".toList, ['2'], rfl, by decide, by decide⟩
  · rw [hlines, List.mem_pair] at hline
    rcases hline with rfl | rfl
    · exact ⟨['A'], rfl⟩
    · exact ⟨['A'], rfl⟩

end LtlFuzzer.Fuzzer
