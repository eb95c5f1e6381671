import LtlFuzzer.Foundation.Draws
import LtlFuzzer.Foundation.Runs
import LtlFuzzer.Instrumentation.PathTable

/-! Choosing a stored path and one of its prefixes while the instrumented program adds others. -/
namespace LtlFuzzer.Fuzzer
open Foundation Instrumentation

structure Prefix where
  pfx : Str
  feedback : Str

/-- The process-wide flag is kept with the store. The cached iterator is the key it stands
at; none is the end of the table. -/
structure PathsStore where
  segment : Segment
  initRun : Bool
  selectedItem : Option Str

def initPath : Str := ['0', ',']

/-- Only in the initial run can the initial path be selected. -/
def PathsStore.selectAutomataPath (store : PathsStore) (draw : Nat) : Option Str × PathsStore :=
  let vector := store.segment.table.keys.filter fun path => path ≠ initPath && !store.initRun
  if vector.length = 0 then (store.segment.table.keys.head?, { store with initRun := false })
  else (drawn draw vector, store)

def PathsStore.selectPrefix (store : PathsStore) (draw : Nat) : Option Prefix := do
  let item ← store.selectedItem
  let mapM ← store.segment.table[item]?
  drawn draw (mapM.toList.map fun e => ⟨e.1, e.2⟩)

/-- The two draws of one selection. -/
structure TableRolls where
  path : Nat
  pfx : Nat

/-- None: the end of the table is dereferenced, or a draw is made from an empty list. -/
def PathsStore.selectPrefixAPath (store : PathsStore) (rolls : TableRolls) : Option ((Prefix × Str) × PathsStore) := do
  let (item, store) := store.selectAutomataPath rolls.path
  let store := { store with selectedItem := item }
  let aPath ← store.selectedItem
  let pfx ← store.selectPrefix rolls.pfx
  some ((pfx, aPath), store)

inductive Action where
  | insert (w : PathWrite)
  | select (rolls : TableRolls)

/-- A write that meets a name in use stops the instrumented program and leaves the segment as it is. -/
def PathsStore.step (store : PathsStore) : Action → Option PathsStore
  | .insert w => some { store with segment := (writeToSharedTable store.segment w).getD store.segment }
  | .select rolls => (store.selectPrefixAPath rolls).map Prod.snd

/-- The store when fuzzing starts. -/
def PathsStore.initial : Option PathsStore := do
  let segment ← insertInitAutomataPath Instrumentation.openSegment initWrite
  some ⟨segment, true, none⟩

def campaign (acts : List Action) : Option PathsStore := do
  let store ← PathsStore.initial
  acts.foldlM PathsStore.step store

def Selects : Action → Prop
  | .insert _ => False
  | .select _ => True

/-- The initial path is there, every path has a prefix, and the flag tells whether a
selection was made. -/
structure Sound (past : List Action) (store : PathsStore) : Prop where
  init : initPath ∈ store.segment.table
  stored : ∀ (p : Str) (inner : StringStringMap), store.segment.table[p]? = some inner → ∃ x : Str, x ∈ inner
  flag : store.initRun = true → ∀ a ∈ past, ¬ Selects a

variable {past : List Action} {store : PathsStore}

private theorem mem_insertPath {table : StringStringStringMap} {inner : StringStringMap} {p q : Str} :
    p ∈ table.insertIfNew q inner ↔ q = p ∨ p ∈ table := by
  rw [Std.TreeMap.mem_insertIfNew, Std.LawfulEqCmp.compare_eq_iff_eq]

private theorem exists_mem_insertPair (m : StringStringMap) (x metric : Str) : ∃ y : Str, y ∈ m.insertIfNew x metric :=
  ⟨x, by simp [Std.TreeMap.mem_insertIfNew]⟩

/-- A new path comes with a prefix. -/
private theorem stored_insertPath {table : StringStringStringMap} {path x metric : Str}
    (h : ∀ (p : Str) (inner : StringStringMap), table[p]? = some inner → ∃ y : Str, y ∈ inner) (p : Str)
    (inner : StringStringMap)
    (hp : (table.insertIfNew path ((∅ : StringStringMap).insertIfNew x metric))[p]? = some inner) : ∃ y : Str, y ∈ inner := by
  rw [Std.TreeMap.getElem?_insertIfNew] at hp
  split at hp
  · obtain rfl := Option.some.inj hp
    exact exists_mem_insertPair ∅ x metric
  · exact h p inner hp

/-- A write adds a path, or a prefix to a path that is there. -/
theorem table_of_write {seg seg' : Segment} {w : PathWrite} (hw : writeToSharedTable seg w = some seg') :
    seg'.table = seg.table.insertIfNew w.automataPath ((∅ : StringStringMap).insertIfNew w.pfx w.metric) ∨
      seg'.table = seg.table.modify w.automataPath (·.insertIfNew w.pfx w.metric) := by
  rw [writeToSharedTable] at hw
  split at hw
  · rw [constructMap] at hw
    split at hw
    · cases hw
    · obtain rfl := Option.some.inj hw
      exact .inl rfl
  · obtain rfl := Option.some.inj hw
    exact .inr rfl

private theorem write_init {seg seg' : Segment} {w : PathWrite} (h : initPath ∈ seg.table)
    (hw : writeToSharedTable seg w = some seg') : initPath ∈ seg'.table := by
  rcases table_of_write hw with ht | ht
  · rw [ht]
    exact mem_insertPath.mpr (.inr h)
  · rw [ht]
    exact Std.TreeMap.mem_modify.mpr h

private theorem write_stored {seg seg' : Segment} {w : PathWrite}
    (h : ∀ (p : Str) (inner : StringStringMap), seg.table[p]? = some inner → ∃ x : Str, x ∈ inner)
    (hw : writeToSharedTable seg w = some seg') (p : Str) (inner : StringStringMap)
    (hp : seg'.table[p]? = some inner) : ∃ x : Str, x ∈ inner := by
  rcases table_of_write hw with ht | ht
  · rw [ht] at hp
    exact stored_insertPath h p inner hp
  · rw [ht, Std.TreeMap.getElem?_modify] at hp
    split at hp
    · obtain ⟨old, -, rfl⟩ := Option.map_eq_some_iff.mp hp
      exact exists_mem_insertPair old w.pfx w.metric
    · exact h p inner hp

theorem Sound.insert (h : Sound past store) (w : PathWrite) :
    Sound (past ++ [.insert w])
      { store with segment := (writeToSharedTable store.segment w).getD store.segment } := by
  have hflag : store.initRun = true → ∀ a ∈ past ++ [.insert w], ¬ Selects a := by
    intro hi a ha
    rcases List.mem_append.mp ha with ha | ha
    · exact h.flag hi a ha
    · obtain rfl := List.mem_singleton.mp ha
      exact id
  cases hw : writeToSharedTable store.segment w with
  | none => exact ⟨h.init, h.stored, hflag⟩
  | some seg' => exact ⟨write_init h.init hw, write_stored h.stored hw, hflag⟩

/-- The path selected is stored, and it is the initial one only in the initial run or where
there is no other. -/
private theorem Sound.selectAutomataPath (h : Sound past store) (draw : Nat) :
    ∃ p ∈ store.segment.table, store.selectAutomataPath draw = (some p, { store with initRun := false }) ∧
      (p = initPath → store.initRun = true ∨ ∀ q ∈ store.segment.table, q = initPath) := by
  rw [PathsStore.selectAutomataPath]
  have hvec (p : Str) : p ∈ store.segment.table.keys.filter (fun path => path ≠ initPath && !store.initRun) ↔
      p ∈ store.segment.table ∧ p ≠ initPath ∧ store.initRun = false := by
    simp [List.mem_filter]
  generalize store.segment.table.keys.filter (fun path => path ≠ initPath && !store.initRun) = vector at hvec ⊢
  by_cases hv : vector = []
  · have hne : store.segment.table.keys ≠ [] := List.ne_nil_of_mem (Std.TreeMap.mem_keys.mpr h.init)
    refine ⟨store.segment.table.keys.head hne, Std.TreeMap.mem_keys.mp (List.head_mem hne), ?_, fun _ => ?_⟩
    · simp [hv, List.head?_eq_some_head hne]
    · cases hf : store.initRun with
      | true => exact .inl rfl
      | false =>
        refine .inr fun q hq => Decidable.byContradiction fun hne => ?_
        have hmem := (hvec q).mpr ⟨hq, hne, hf⟩
        rw [hv] at hmem
        cases hmem
  · obtain ⟨p, hp, hdraw⟩ := drawn_isSome hv draw
    obtain ⟨hmem, hne, hf⟩ := (hvec p).mp hp
    refine ⟨p, hmem, ?_, fun he => absurd he hne⟩
    rw [if_neg (fun hl => hv (List.length_eq_zero_iff.mp hl)), hdraw, ← hf]

private theorem Sound.selectPrefix (h : Sound past store) {p : Str} (hp : p ∈ store.segment.table)
    (hitem : store.selectedItem = some p) (draw : Nat) :
    ∃ pfx, store.selectPrefix draw = some pfx ∧ entry store.segment.table p pfx.pfx = some pfx.feedback := by
  have hinner := Std.TreeMap.getElem?_eq_some_getElem hp
  obtain ⟨x, hx⟩ := h.stored p _ hinner
  have hne : (store.segment.table[p].toList.map fun e => (⟨e.1, e.2⟩ : Prefix)) ≠ [] := by
    have hget := Std.TreeMap.mem_toList_iff_getElem?_eq_some.mpr (Std.TreeMap.getElem?_eq_some_getElem hx)
    exact List.ne_nil_of_mem (List.mem_map_of_mem hget)
  obtain ⟨pfx, hmem, hdraw⟩ := drawn_isSome hne draw
  obtain ⟨⟨y, feedback⟩, he, rfl⟩ := List.mem_map.mp hmem
  refine ⟨⟨y, feedback⟩, ?_, ?_⟩
  · rw [PathsStore.selectPrefix, hitem, Option.bind_eq_bind, Option.bind_some, hinner]
    exact hdraw
  · rw [entry, hinner]
    exact Std.TreeMap.mem_toList_iff_getElem?_eq_some.mp he

/-- What one selection gives, and the store it leaves. -/
theorem Sound.selectPrefixAPath (h : Sound past store) (rolls : TableRolls) :
    ∃ pfx path, store.selectPrefixAPath rolls =
        some ((pfx, path), { store with initRun := false, selectedItem := some path }) ∧
      entry store.segment.table path pfx.pfx = some pfx.feedback ∧
      (path = initPath → store.initRun = true ∨ ∀ q ∈ store.segment.table, q = initPath) := by
  obtain ⟨path, hp, hsel, hinit⟩ := h.selectAutomataPath rolls.path
  have hs : Sound past { store with initRun := false, selectedItem := some path } := ⟨h.init, h.stored, nofun⟩
  obtain ⟨pfx, hpfx, hentry⟩ := hs.selectPrefix hp rfl rolls.pfx
  refine ⟨pfx, path, ?_, hentry, hinit⟩
  simp only [PathsStore.selectPrefixAPath, hsel, Option.bind_eq_bind, Option.bind_some, hpfx]

private theorem Sound.step (past : List Action) (store : PathsStore) (a : Action) (h : Sound past store) :
    ∃ store', store.step a = some store' ∧ Sound (past ++ [a]) store' := by
  cases a with
  | insert w => exact ⟨_, rfl, h.insert w⟩
  | select rolls =>
    obtain ⟨pfx, path, hsel, -, -⟩ := h.selectPrefixAPath rolls
    refine ⟨_, by rw [PathsStore.step, hsel]; rfl, ?_⟩
    exact ⟨h.init, h.stored, nofun⟩

theorem sound_initial : ∃ store, PathsStore.initial = some store ∧ Sound [] store := by
  have hname : initWrite.automataPath ++ initWrite.pfx ∉ Instrumentation.openSegment.names := by decide
  refine ⟨_, by simp only [PathsStore.initial, insertInitAutomataPath, constructMap, if_neg hname]; rfl,
    mem_insertPath.mpr (.inl rfl), stored_insertPath fun p inner hp => ?_, fun _ a ha => nomatch ha⟩
  cases Std.TreeMap.getElem?_emptyc.symm.trans hp

/-- Whatever was written and selected before, no selection draws from an empty list: it
returns a prefix stored under the path it returns, and the initial path only first or where
there is no other. -/
theorem selection_sound (acts : List Action) (rolls : TableRolls) :
    ∃ store, campaign acts = some store ∧ ∃ pfx path store', store.selectPrefixAPath rolls = some ((pfx, path), store') ∧
      entry store.segment.table path pfx.pfx = some pfx.feedback ∧
      (path = initPath → (∀ a ∈ acts, ¬ Selects a) ∨ ∀ q ∈ store.segment.table, q = initPath) := by
  obtain ⟨start, hstart, h0⟩ := sound_initial
  obtain ⟨store, hrun, hs⟩ := Runs.foldlM_history Sound h0 Sound.step acts
  obtain ⟨pfx, path, hsel, hentry, hinit⟩ := hs.selectPrefixAPath rolls
  refine ⟨store, by rw [campaign, hstart]; exact hrun, pfx, path, _, hsel, hentry, fun he => ?_⟩
  exact (hinit he).imp_left fun hf => hs.flag hf

end LtlFuzzer.Fuzzer
