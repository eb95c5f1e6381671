import LtlFuzzer.Automata.Graph
import Mathlib.Tactic.Common
import Std.Data.TreeMap.Lemmas

/-! The shared table of automata paths, their prefixes and metrics. -/
namespace LtlFuzzer.Instrumentation

abbrev StringStringMap := Std.TreeMap Str Str
abbrev StringStringStringMap := Std.TreeMap Str StringStringMap

/-- The arguments of one write. -/
structure PathWrite where
  automataPath : Str
  pfx : Str
  metric : Str

/-- The shared segment: the names in use and the table. -/
structure Segment where
  names : StrSet
  table : StringStringStringMap

def tableName : Str := "table_map".toList

/-- The segment once the store has constructed its table. -/
def openSegment : Segment := ⟨(∅ : StrSet).insert tableName, ∅⟩

/-- Construct a map of one pair under the name of its path and prefix, and insert it. None
is the null pointer of a name in use, which the code dereferences. -/
def constructMap (seg : Segment) (w : PathWrite) : Option Segment :=
  let name := w.automataPath ++ w.pfx
  if name ∈ seg.names then none
  else some ⟨seg.names.insert name,
    seg.table.insertIfNew w.automataPath ((∅ : StringStringMap).insertIfNew w.pfx w.metric)⟩

def insertInitAutomataPath (seg : Segment) (w : PathWrite) : Option Segment := constructMap seg w

def writeToSharedTable (seg : Segment) (w : PathWrite) : Option Segment :=
  match seg.table[w.automataPath]? with
  | none => constructMap seg w
  | some _ => some { seg with table := seg.table.modify w.automataPath (·.insertIfNew w.pfx w.metric) }

/-- What the fuzzer inserts first. -/
def initWrite : PathWrite := ⟨['0', ','], [], ['1']⟩

def runWrites (ws : List PathWrite) : Option Segment := do
  let seg ← insertInitAutomataPath openSegment initWrite
  ws.foldlM writeToSharedTable seg

/-- The first metric written for a path and a prefix. -/
def firstMetric (ws : List PathWrite) (p x : Str) : Option Str :=
  (ws.find? fun w => w.automataPath = p ∧ w.pfx = x).map PathWrite.metric

/-- The names that the first write of each path constructs. -/
def constructedNames : List Str → List PathWrite → List Str
  | _, [] => []
  | seen, w :: ws =>
    (if w.automataPath ∈ seen then [] else [w.automataPath ++ w.pfx]) ++
      constructedNames (seen ++ [w.automataPath]) ws

def entry (table : StringStringStringMap) (p x : Str) : Option Str := (table[p]?).bind (·[x]?)

/-- The table holds every path written, each prefix with its first metric. -/
structure Represents (ws : List PathWrite) (table : StringStringStringMap) : Prop where
  paths : ∀ p, p ∈ table ↔ p ∈ ws.map PathWrite.automataPath
  entries : ∀ p x, entry table p x = firstMetric ws p x

private theorem firstMetric_append (ws : List PathWrite) (w : PathWrite) (p x : Str) :
    firstMetric (ws ++ [w]) p x =
      (firstMetric ws p x).or (if w.automataPath = p ∧ w.pfx = x then some w.metric else none) := by
  rw [firstMetric, firstMetric, List.find?_append, Option.map_or, List.find?_singleton]
  congr 1
  split_ifs <;> simp_all

private theorem getElem?_insertPair (m : StringStringMap) (x y metric : Str) :
    (m.insertIfNew x metric)[y]? = m[y]?.or (if x = y then some metric else none) := by
  rw [Std.TreeMap.getElem?_insertIfNew]
  simp only [Std.LawfulEqCmp.compare_eq_iff_eq]
  by_cases hx : x = y
  · subst hx
    by_cases hm : x ∈ m
    · have hsome : m[x]? = some m[x] := Std.TreeMap.getElem?_eq_some_getElem hm
      rw [if_neg (fun h => h.2 hm), hsome, Option.some_or]
    · rw [if_pos ⟨rfl, hm⟩, Std.TreeMap.getElem?_eq_none hm, if_pos rfl, Option.none_or]
  · rw [if_neg (fun h => hx h.1), if_neg hx, Option.or_none]

/-- A fresh path gets a map of one pair. -/
private theorem represents_fresh {ws : List PathWrite} {table : StringStringStringMap} {w : PathWrite}
    (h : Represents ws table) (hw : w.automataPath ∉ table) :
    Represents (ws ++ [w])
      (table.insertIfNew w.automataPath ((∅ : StringStringMap).insertIfNew w.pfx w.metric)) := by
  have hnone : table[w.automataPath]? = none := Std.TreeMap.getElem?_eq_none hw
  refine ⟨fun p => ?_, fun p x => ?_⟩
  · rw [Std.TreeMap.mem_insertIfNew, Std.LawfulEqCmp.compare_eq_iff_eq, h.paths]
    simp [or_comm, eq_comm]
  · rw [firstMetric_append, ← h.entries, entry, Std.TreeMap.getElem?_insertIfNew]
    simp only [Std.LawfulEqCmp.compare_eq_iff_eq]
    by_cases hp : w.automataPath = p
    · subst hp
      have hempty : (∅ : StringStringMap)[x]? = none := Std.TreeMap.getElem?_emptyc
      rw [if_pos ⟨rfl, hw⟩, Option.bind_some, getElem?_insertPair, hempty, entry, hnone]
      simp
    · simp [hp, entry]

/-- A known path gets the pair unless it has the prefix already. -/
private theorem represents_known {ws : List PathWrite} {table : StringStringStringMap} {w : PathWrite}
    (h : Represents ws table) (hw : w.automataPath ∈ table) :
    Represents (ws ++ [w]) (table.modify w.automataPath (·.insertIfNew w.pfx w.metric)) := by
  refine ⟨fun p => ?_, fun p x => ?_⟩
  · rw [Std.TreeMap.mem_modify, h.paths, List.map_append, List.mem_append, List.map_singleton,
      List.mem_singleton]
    refine ⟨.inl, fun hp => hp.elim id ?_⟩
    rintro rfl
    exact (h.paths _).mp hw
  · rw [firstMetric_append, ← h.entries, entry, Std.TreeMap.getElem?_modify]
    simp only [Std.LawfulEqCmp.compare_eq_iff_eq]
    by_cases hp : w.automataPath = p
    · subst hp
      obtain ⟨inner, hinner⟩ : ∃ inner, table[w.automataPath]? = some inner :=
        ⟨_, Std.TreeMap.getElem?_eq_some_getElem hw⟩
      rw [if_pos rfl, hinner, Option.map_some, Option.bind_some, getElem?_insertPair, entry, hinner]
      simp
    · simp [hp, entry]

/-- Distinct names, none of them in use. -/
def FreshNames (used : StrSet) (ns : List Str) : Prop := ns.Nodup ∧ ∀ n ∈ ns, n ∉ used

private theorem freshNames_cons {used : StrSet} {n : Str} {ns : List Str} :
    FreshNames used (n :: ns) ↔ n ∉ used ∧ FreshNames (used.insert n) ns := by
  rw [FreshNames, FreshNames, List.nodup_cons, List.forall_mem_cons]
  simp only [mem_insert_iff, not_or]
  constructor
  · rintro ⟨⟨hn, hns⟩, hu, h⟩
    exact ⟨hu, hns, fun m hm => ⟨fun he => hn (he ▸ hm), h m hm⟩⟩
  · rintro ⟨hu, hns, h⟩
    exact ⟨⟨fun hn => (h n hn).1 rfl, hns⟩, hu, fun m hm => (h m hm).2⟩

/-- A run of writes stops at the first name in use; otherwise nothing is lost. -/
private theorem run_writes (ws past : List PathWrite) (seg : Segment) (h : Represents past seg.table) :
    (FreshNames seg.names (constructedNames (past.map PathWrite.automataPath) ws) ∧
      ∃ seg', ws.foldlM writeToSharedTable seg = some seg' ∧ Represents (past ++ ws) seg'.table) ∨
    (¬ FreshNames seg.names (constructedNames (past.map PathWrite.automataPath) ws) ∧
      ws.foldlM writeToSharedTable seg = none) := by
  induction ws generalizing past seg with
  | nil => exact .inl ⟨⟨List.nodup_nil, by simp [constructedNames]⟩, seg, rfl, by simpa using h⟩
  | cons w ws ih =>
    have hassoc : past ++ w :: ws = past ++ [w] ++ ws := by simp
    have hseen : past.map PathWrite.automataPath ++ [w.automataPath] =
        (past ++ [w]).map PathWrite.automataPath := by simp
    rw [List.foldlM_cons, hassoc, constructedNames, hseen]
    by_cases hw : w.automataPath ∈ past.map PathWrite.automataPath
    · have hmem := (h.paths _).mpr hw
      have hinner := Std.TreeMap.getElem?_eq_some_getElem hmem
      rw [if_pos hw, List.nil_append, writeToSharedTable, hinner]
      exact ih (past ++ [w]) ⟨seg.names, _⟩ (represents_known h hmem)
    · have hfresh : w.automataPath ∉ seg.table := fun hmem => hw ((h.paths _).mp hmem)
      rw [if_neg hw, List.singleton_append, freshNames_cons, writeToSharedTable,
        Std.TreeMap.getElem?_eq_none hfresh]
      by_cases hn : w.automataPath ++ w.pfx ∈ seg.names
      · exact .inr ⟨fun hc => hc.1 hn, by simp [constructMap, hn]⟩
      · simp only [constructMap, hn, not_false_eq_true, true_and]
        exact ih (past ++ [w]) ⟨seg.names.insert (w.automataPath ++ w.pfx), _⟩ (represents_fresh h hfresh)

private theorem represents_nil : Represents [] ∅ :=
  ⟨fun p => by simp, fun p x => by simp [entry, firstMetric]⟩

/-- Every write completes and the table is exact, precisely when the names constructed
for the first prefixes of the paths are distinct. -/
theorem shared_table_exact_iff (ws : List PathWrite) :
    (∃ seg, runWrites ws = some seg ∧ Represents (initWrite :: ws) seg.table) ↔
      (tableName :: constructedNames [] (initWrite :: ws)).Nodup := by
  have hrun : runWrites ws = (initWrite :: ws).foldlM writeToSharedTable openSegment := rfl
  have hfresh : FreshNames openSegment.names (constructedNames [] (initWrite :: ws)) ↔
      (tableName :: constructedNames [] (initWrite :: ws)).Nodup := by
    rw [FreshNames, List.nodup_cons, and_comm]
    simp only [openSegment, mem_insert_iff, Std.TreeSet.not_mem_emptyc, or_false]
    exact and_congr_left fun _ => ⟨fun h hm => h _ hm rfl, fun h n hn he => h (he ▸ hn)⟩
  rw [hrun, ← hfresh]
  rcases run_writes (initWrite :: ws) [] openSegment represents_nil with ⟨hf, hs⟩ | ⟨hf, hnone⟩
  · exact iff_of_true hs hf
  · refine iff_of_false ?_ hf
    rw [hnone]
    rintro ⟨_, h, _⟩
    cases h

/-- Inputs 2, 3, 4 along states 0, 1 and inputs 3, 4 along states 0, 1, 2 have one name. -/
theorem shared_table_name_clash :
    runWrites [⟨"0,1,".toList, "2,3,4,".toList, ['1']⟩, ⟨"0,1,2,".toList, "3,4,".toList, ['1']⟩] = none := by
  decide

end LtlFuzzer.Instrumentation
