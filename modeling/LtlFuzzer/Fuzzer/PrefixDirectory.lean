import LtlFuzzer.Automata.Graph
import LtlFuzzer.Foundation.Delimiters
import LtlFuzzer.Foundation.Draws
import LtlFuzzer.Foundation.Numerals
import LtlFuzzer.Foundation.Runs
import Std.Data.TreeMap.Lemmas

/-! The prefix directory: written by the instrumented protocol, read by the fuzzer. -/
namespace LtlFuzzer.Fuzzer
open Foundation Numerals Delimiters

/-- Files by their full path. -/
abbrev Files := Std.TreeMap Str Str

/-- A name that a directory can list. -/
structure FileName where
  name : Str
  nonempty : name ≠ []
  no_slash : '/' ∉ name
  not_self : name ≠ ['.']
  not_parent : name ≠ ['.', '.']

private theorem comma_mem_path {states : List Int} (h : states ≠ []) :
    ',' ∈ terminated [','] (states.map showInt) := by
  obtain ⟨n, ns, rfl⟩ := List.exists_cons_of_ne_nil h
  simp

private theorem slash_not_mem_path (states : List Int) : '/' ∉ terminated [','] (states.map showInt) := by
  intro hm
  obtain ⟨_, hr, hm⟩ := List.mem_flatMap.mp hm
  obtain ⟨n, _, rfl⟩ := List.mem_map.mp hr
  rcases List.mem_append.mp hm with hm | hm
  · rcases mem_showInt hm with h | h
    · exact absurd h (by decide)
    · exact absurd h (by decide)
  · exact absurd hm (by decide)

/-- An automata path is a file name. -/
def FileName.ofStates (states : List Int) (h : states ≠ []) : FileName where
  name := terminated [','] (states.map showInt)
  nonempty := List.ne_nil_of_mem (comma_mem_path h)
  no_slash := slash_not_mem_path states
  not_self he := absurd (he ▸ comma_mem_path h) (by decide)
  not_parent he := absurd (he ▸ comma_mem_path h) (by decide)

/-- One call of the writer. -/
structure Save where
  aPath : FileName
  pfx : Str

/-- Append to the file of the path, which is created where it is missing. -/
def savedPrefixPath (subject : Str) (files : Files) (s : Save) : Files :=
  let fileName := (subject ++ "prefix/".toList) ++ s.aPath.name
  files.insert fileName ((files[fileName]?).getD [] ++ if s.pfx = [] then [] else s.pfx ++ ['@', '@'])

/-- The directory is emptied before the first call. -/
def savedFiles (subject : Str) (saves : List Save) : Files := saves.foldl (savedPrefixPath subject) ∅

/-- The directory that the fuzzer reads. -/
def prefixDir (subject : Str) : Str := subject ++ "prefix".toList

/-- The names that readdir returns. -/
def readdir (files : Files) (dir : Str) : List Str :=
  ['.'] :: ['.', '.'] :: (files.keys.filterMap (List.isPrefixOf? (dir ++ ['/']))).filter ('/' ∉ ·)

def getPrefix (files : Files) (aPath dir : Str) (draw : Nat) : Option Str :=
  match files[dir ++ aPath]? with
  | none => some []
  | some totalPrefix => if totalPrefix = [] then some [] else drawn draw (cutRecords ['@', '@'] totalPrefix)

/-- The two draws of one selection. -/
structure PathRolls where
  path : Nat
  token : Nat

def selectAutomataPathAndPrefix (files : Files) (dir : Str) (rolls : PathRolls) : Option (Str × Str) :=
  let fileList := (readdir files dir).filter fun f => f ≠ ['.'] ∧ f ≠ ['.', '.']
  if fileList = [] then some (['0', ','], [])
  else do
    let selectedPath ← drawn rolls.path fileList
    let pfx ← getPrefix files selectedPath dir rolls.token
    return (selectedPath, pfx)

/-- A prefix of the path, empty only where no other was saved. -/
def Faithful (saves : List Save) (r : Str × Str) : Prop :=
  if r.2 = [] then ∀ s ∈ saves, s.aPath.name = r.1 → s.pfx = []
  else ∃ s ∈ saves, s.aPath.name = r.1 ∧ s.pfx = r.2

/-- Every draw gives a saved prefix back, and every nonempty one has its draw. -/
def GivesBack (subject : Str) (saves : List Save) : Prop :=
  (∀ rolls, ∃ r, selectAutomataPathAndPrefix (savedFiles subject saves) (prefixDir subject) rolls = some r ∧
    Faithful saves r) ∧
  ∀ s ∈ saves, s.pfx ≠ [] →
    ∃ rolls, selectAutomataPathAndPrefix (savedFiles subject saves) (prefixDir subject) rolls =
      some (s.aPath.name, s.pfx)

private theorem mem_savedFiles (subject : Str) (saves : List Save) :
    ∀ k, k ∈ savedFiles subject saves ↔ ∃ s ∈ saves, (subject ++ "prefix/".toList) ++ s.aPath.name = k := by
  refine Runs.foldl_history (fun (saves : List Save) (files : Files) =>
    ∀ k, k ∈ files ↔ ∃ s ∈ saves, (subject ++ "prefix/".toList) ++ s.aPath.name = k) ?_ ?_ saves
  · simp
  · intro past files s h k
    rw [savedPrefixPath, Std.TreeMap.mem_insert, Std.LawfulEqCmp.compare_eq_iff_eq, h k]
    simp [or_comm, or_and_right, exists_or]

/-- The directory lists the paths saved. -/
private theorem mem_fileList (subject : Str) (saves : List Save) (f : Str) :
    f ∈ (readdir (savedFiles subject saves) (prefixDir subject)).filter (fun f => f ≠ ['.'] ∧ f ≠ ['.', '.']) ↔
      ∃ s ∈ saves, s.aPath.name = f := by
  have hdir : prefixDir subject ++ ['/'] = subject ++ "prefix/".toList := by
    rw [prefixDir, List.append_assoc]
    rfl
  have hkeys (f : Str) : f ∈ (savedFiles subject saves).keys.filterMap (List.isPrefixOf? (prefixDir subject ++ ['/'])) ↔
      ∃ s ∈ saves, s.aPath.name = f := by
    simp only [List.mem_filterMap, List.isPrefixOf?_eq_some_iff_append_eq, Std.TreeMap.mem_keys, hdir]
    constructor
    · rintro ⟨_, hk, rfl⟩
      obtain ⟨s, hs, he⟩ := (mem_savedFiles subject saves _).mp hk
      exact ⟨s, hs, List.append_cancel_left he⟩
    · rintro ⟨s, hs, rfl⟩
      exact ⟨_, (mem_savedFiles subject saves _).mpr ⟨s, hs, rfl⟩, rfl⟩
  rw [List.mem_filter, readdir, List.mem_cons, List.mem_cons, List.mem_filter, hkeys]
  constructor
  · rintro ⟨h, hne⟩
    obtain ⟨h1, h2⟩ := of_decide_eq_true hne
    exact ((h.resolve_left h1).resolve_left h2).1
  · rintro ⟨s, hs, rfl⟩
    refine ⟨.inr (.inr ⟨⟨s, hs, rfl⟩, decide_eq_true s.aPath.no_slash⟩), ?_⟩
    exact decide_eq_true ⟨s.aPath.not_self, s.aPath.not_parent⟩

/-- No file is found where the reader looks: the slash is missing. -/
private theorem getPrefix_savedFiles (subject : Str) (saves : List Save) (a : FileName) (draw : Nat) :
    getPrefix (savedFiles subject saves) a.name (prefixDir subject) draw = some [] := by
  have hmiss : prefixDir subject ++ a.name ∉ savedFiles subject saves := by
    rw [mem_savedFiles]
    rintro ⟨s, _, he⟩
    have hslash : prefixDir subject ++ '/' :: s.aPath.name = prefixDir subject ++ a.name := by
      rw [← he, prefixDir]
      simp
    exact a.no_slash (List.append_cancel_left hslash ▸ List.mem_cons_self)
  rw [getPrefix, Std.TreeMap.getElem?_eq_none hmiss]

/-- Every selection comes with the empty prefix. -/
private theorem select_savedFiles (subject : Str) (saves : List Save) (rolls : PathRolls) :
    ∃ a, selectAutomataPathAndPrefix (savedFiles subject saves) (prefixDir subject) rolls = some (a, []) := by
  have hmem := mem_fileList subject saves
  rw [selectAutomataPathAndPrefix]
  generalize (readdir (savedFiles subject saves) (prefixDir subject)).filter _ = fileList at hmem ⊢
  by_cases hnil : fileList = []
  · exact ⟨['0', ','], if_pos hnil⟩
  · obtain ⟨f, hf, hdrawn⟩ := drawn_isSome hnil rolls.path
    obtain ⟨s, hs, rfl⟩ := (hmem f).mp hf
    refine ⟨s.aPath.name, ?_⟩
    simp only [if_neg hnil, hdrawn, Option.bind_eq_bind, Option.bind_some, getPrefix_savedFiles]
    rfl

/-- A saved path can be drawn. -/
private theorem exists_select (subject : Str) {saves : List Save} {s : Save} (hs : s ∈ saves) :
    ∃ rolls, selectAutomataPathAndPrefix (savedFiles subject saves) (prefixDir subject) rolls =
      some (s.aPath.name, []) := by
  have hmem := (mem_fileList subject saves s.aPath.name).mpr ⟨s, hs, rfl⟩
  obtain ⟨draw, hdraw⟩ := exists_drawn_iff.mpr hmem
  refine ⟨⟨draw, 0⟩, ?_⟩
  rw [selectAutomataPathAndPrefix]
  simp only [if_neg (List.ne_nil_of_mem hmem), hdraw, Option.bind_eq_bind, Option.bind_some,
    getPrefix_savedFiles]
  rfl

/-- The directory gives back what was saved exactly when nothing but empty prefixes was. -/
theorem prefix_directory_gives_back_iff (subject : Str) (saves : List Save) :
    GivesBack subject saves ↔ ∀ s ∈ saves, s.pfx = [] := by
  constructor
  · rintro ⟨hfaith, _⟩ s hs
    obtain ⟨rolls, hr⟩ := exists_select subject hs
    obtain ⟨r, hr', h⟩ := hfaith rolls
    rw [hr, Option.some_inj] at hr'
    subst hr'
    exact h s hs rfl
  · intro hall
    refine ⟨fun rolls => ?_, fun s hs hne => absurd (hall s hs) hne⟩
    obtain ⟨a, ha⟩ := select_savedFiles subject saves rolls
    exact ⟨(a, []), ha, fun s hs _ => hall s hs⟩

def savedHi : Save := ⟨.ofStates [0] (by decide), "hi;;".toList⟩

/-- A message saved under the path 0 is not given back with it. -/
theorem prefix_directory_forgets_hi :
    selectAutomataPathAndPrefix (savedFiles "/s/".toList [savedHi]) (prefixDir "/s/".toList) ⟨0, 0⟩ =
        some (['0', ','], []) ∧
      ¬ Faithful [savedHi] (['0', ','], []) := by
  refine ⟨by decide, fun h => ?_⟩
  have hpfx := h savedHi List.mem_cons_self rfl
  cases hpfx

end LtlFuzzer.Fuzzer
