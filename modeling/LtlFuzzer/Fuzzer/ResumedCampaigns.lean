import LtlFuzzer.Aflgo.CommonPrefix
import LtlFuzzer.Fuzzer.PathSelection
import LtlFuzzer.Fuzzer.TargetsStore
import LtlFuzzer.Instrumentation.Acceptance
import LtlFuzzer.Instrumentation.ResumedRuns

/-! Whole campaigns on a common program: what is selected takes the next run to where the run that stored it was. -/
namespace LtlFuzzer.Fuzzer
open Foundation Runs Memory Automata Instrumentation Aflgo

/-- The end of a run: its trace is checked, and unless that ends the program what it found is written. -/
def evaluateTrace (A : TwaGraph) (segment : Segment) (b : CodeBean) : Segment :=
  let states := (A.modelCheckEvents (b.trace false) {}).1
  match extractPrefixAutomataPath b states false with
  | .error _ => segment
  | .ok (aPath, pfx) => match checkAcceptance A b states aPath false with
    | .error _ => segment
    | .ok () => if aPath = [] then segment else (writeToSharedTable segment ⟨aPath, pfx, ['1']⟩).getD segment

/-- The fuzzer's store and the region with the prefix for the next runs. -/
structure CampaignState where
  store : PathsStore
  shm : PrefixSmem

/-- The fuzzer selects, and for an output hands over the prefix; or the program is run on a test case behind that prefix,
or on a file alone. A run ends after it read so many bytes, and left these hashes of its states. -/
inductive CampaignEvent where
  | select (rolls : TableRolls) (type : TargetType)
  | run (mem : Bytes) (size : Nat) (hashes : List Nat)
  | direct (file : Bytes) (size : Nat) (hashes : List Nat)

section
variable (P : Program) (A : TwaGraph) (names : Std.TreeMap Int Str)

/-- A run of the program on a file. -/
def runProgram (c : CampaignState) (file : Bytes) (size : Nat) (hashes : List Nat) : CampaignState :=
  let b := { P.recorded names ((file ++ P.atEnd).take size) with stateVector := hashes }
  { c with store := { c.store with segment := evaluateTrace A c.store.segment b } }

def CampaignState.step (c : CampaignState) : CampaignEvent → Option CampaignState
  | .select rolls type => do
    let ((pfx, _), store) ← c.store.selectPrefixAPath rolls
    match type with
    | .input => some { c with store := store }
    | .output => match publishCommon c.shm pfx.pfx with
      | .error _ => none
      | .ok shm => some ⟨store, shm⟩
  | .run mem size hashes => do
    let file ← addPrefixCommon mem c.shm
    some (runProgram P A names c file size hashes)
  | .direct file size hashes => some (runProgram P A names c file size hashes)

/-- The campaign when fuzzing starts, with a new region. -/
def CampaignState.initial : Option CampaignState := do
  let store ← PathsStore.initial
  some ⟨store, ⟨fun _ => 0, 0⟩⟩

/-- A run whose prefix can be relied on and handed over: an output that changed the state on its own is positive, and
the inputs fit into the region. -/
def Storable (bytes : List UInt8) : Prop :=
  ChangingOutputsPositive (P.recorded names bytes).traceCommon (P.checked A names bytes) ∧
    (P.prefixNumbers A names bytes).length ≤ arraySize

/-- Every run of the campaign can be relied on. -/
def RunsStorable (c : CampaignState) : CampaignEvent → Prop
  | .select _ _ => True
  | .run mem size _ => ∀ file, addPrefixCommon mem c.shm = some file → Storable P A names ((file ++ P.atEnd).take size)
  | .direct file size _ => Storable P A names ((file ++ P.atEnd).take size)

/-- What the run of an event reads. -/
def bytesRead (c : CampaignState) : CampaignEvent → Option Bytes
  | .select _ _ => none
  | .run mem size _ => (addPrefixCommon mem c.shm).map fun file => (file ++ P.atEnd).take size
  | .direct file size _ => some ((file ++ P.atEnd).take size)

/-- Among the events there is a run with this path and this prefix, which can be relied on. -/
def StoredBy (start : CampaignState) (events : List CampaignEvent) (path pfx : Str) : Prop :=
  ∃ before e after c bytes, events = before ++ e :: after ∧ before.foldlM (CampaignState.step P A names) start = some c ∧
    bytesRead P c e = some bytes ∧ Storable P A names bytes ∧ path = automataPath (P.checked A names bytes) ∧
    pfx = numbersText (P.prefixNumbers A names bytes)

/-- Every pair in the table is the initial one or stored by a run; the region can be read. -/
structure Resumable (start : CampaignState) (past : List CampaignEvent) (c : CampaignState) : Prop where
  sound : Sound [] c.store
  stored : ∀ p x metric, entry c.store.segment.table p x = some metric →
    (p = initPath ∧ x = []) ∨ StoredBy P A names start past p x
  region : c.shm.arrSize.toNat ≤ arraySize

end

private theorem of_getElem?_insertPair {m : StringStringMap} {x y metric fb : Str} (h : (m.insertIfNew x metric)[y]? = some fb) :
    m[y]? = some fb ∨ y = x := by
  rw [Std.TreeMap.getElem?_insertIfNew] at h
  split_ifs at h with hx
  · exact .inr (Std.LawfulEqCmp.compare_eq_iff_eq.mp hx.1).symm
  · exact .inl h

/-- A write adds its pair and no other. -/
private theorem entry_of_write {seg seg' : Segment} {w : PathWrite} (hw : writeToSharedTable seg w = some seg') {p x metric : Str}
    (h : entry seg'.table p x = some metric) : entry seg.table p x = some metric ∨ (p = w.automataPath ∧ x = w.pfx) := by
  obtain ⟨inner, hinner, hx⟩ := Option.bind_eq_some_iff.mp h
  rcases table_of_write hw with ht | ht
  · rw [ht, Std.TreeMap.getElem?_insertIfNew] at hinner
    split_ifs at hinner with hp
    · obtain rfl := Option.some.inj hinner
      rcases of_getElem?_insertPair hx with hempty | rfl
      · cases Std.TreeMap.getElem?_emptyc.symm.trans hempty
      · exact .inr ⟨(Std.LawfulEqCmp.compare_eq_iff_eq.mp hp.1).symm, rfl⟩
    · exact .inl (Option.bind_eq_some_iff.mpr ⟨inner, hinner, hx⟩)
  · rw [ht, Std.TreeMap.getElem?_modify] at hinner
    split_ifs at hinner with hp
    · obtain ⟨old, hold, rfl⟩ := Option.map_eq_some_iff.mp hinner
      obtain rfl := Std.LawfulEqCmp.compare_eq_iff_eq.mp hp
      rcases of_getElem?_insertPair hx with hx | rfl
      · exact .inl (Option.bind_eq_some_iff.mpr ⟨old, hold, hx⟩)
      · exact .inr ⟨rfl, rfl⟩
    · exact .inl (Option.bind_eq_some_iff.mpr ⟨inner, hinner, hx⟩)

variable {P : Program} {A : TwaGraph} {names : Std.TreeMap Int Str} {start : CampaignState} {past : List CampaignEvent}

private theorem StoredBy.mono {path pfx : Str} (h : StoredBy P A names start past path pfx) (e : CampaignEvent) :
    StoredBy P A names start (past ++ [e]) path pfx := by
  obtain ⟨before, e', after, c, bytes, rfl, h⟩ := h
  exact ⟨before, e', after ++ [e], c, bytes, by rw [List.append_assoc, List.cons_append], h⟩

/-- What a run can write is its path and its prefix. -/
private theorem evaluateTrace_segment (bytes : List UInt8) (hashes : List Nat) (segment : Segment) :
    evaluateTrace A segment { P.recorded names bytes with stateVector := hashes } = segment ∨
    automataPath (P.checked A names bytes) ≠ [] ∧
      evaluateTrace A segment { P.recorded names bytes with stateVector := hashes } = (writeToSharedTable segment
        ⟨automataPath (P.checked A names bytes), numbersText (P.prefixNumbers A names bytes), ['1']⟩).getD segment := by
  have hextract : extractPrefixAutomataPath { P.recorded names bytes with stateVector := hashes } (P.checked A names bytes) false =
      .ok (automataPath (P.checked A names bytes), numbersText (P.prefixNumbers A names bytes)) := by
    have h := extract_common (b := { P.recorded names bytes with stateVector := hashes })
      (length_genuine_recordPairs A names (P.pairs bytes) {})
    rw [numbersText, Program.prefixNumbers, List.map_map]
    exact h
  have hstates : (A.modelCheckEvents (CodeBean.trace { P.recorded names bytes with stateVector := hashes } false) {}).1 =
      P.checked A names bytes := rfl
  rw [evaluateTrace, hstates, hextract]
  dsimp only
  cases checkAcceptance A { P.recorded names bytes with stateVector := hashes } (P.checked A names bytes)
    (automataPath (P.checked A names bytes)) false with
  | error e => exact .inl rfl
  | ok u =>
    dsimp only
    split_ifs with hpath
    · exact .inl rfl
    · exact .inr ⟨hpath, rfl⟩

/-- A run adds its path with its prefix, or nothing. -/
private theorem Resumable.runProgram {c : CampaignState} (hc : Resumable P A names start past c)
    (hpast : past.foldlM (CampaignState.step P A names) start = some c) {e : CampaignEvent} {file : Bytes} {size : Nat}
    (hashes : List Nat) (hread : bytesRead P c e = some ((file ++ P.atEnd).take size))
    (h : Storable P A names ((file ++ P.atEnd).take size)) :
    Resumable P A names start (past ++ [e]) (runProgram P A names c file size hashes) := by
  have hold (p x metric : Str) (hx : entry c.store.segment.table p x = some metric) :
      (p = initPath ∧ x = []) ∨ StoredBy P A names start (past ++ [e]) p x :=
    (hc.stored p x metric hx).imp_right fun hby => hby.mono e
  rw [Fuzzer.runProgram]
  dsimp only
  rcases evaluateTrace_segment ((file ++ P.atEnd).take size) hashes c.store.segment with hseg | ⟨-, hseg⟩
  · rw [hseg]
    exact ⟨hc.sound, hold, hc.region⟩
  · rw [hseg]
    have hsound := hc.sound.insert ⟨automataPath (P.checked A names ((file ++ P.atEnd).take size)),
      numbersText (P.prefixNumbers A names ((file ++ P.atEnd).take size)), ['1']⟩
    refine ⟨⟨hsound.init, hsound.stored, fun _ a ha => nomatch ha⟩, fun p x metric hx => ?_, hc.region⟩
    dsimp only at hx
    cases hw : writeToSharedTable c.store.segment ⟨automataPath (P.checked A names ((file ++ P.atEnd).take size)),
        numbersText (P.prefixNumbers A names ((file ++ P.atEnd).take size)), ['1']⟩ with
    | none =>
      rw [hw] at hx
      exact hold p x metric hx
    | some seg =>
      rw [hw] at hx
      rcases entry_of_write hw hx with hx | ⟨rfl, rfl⟩
      · exact hold p x metric hx
      · exact .inr ⟨past, e, [], c, _, rfl, hpast, hread, h, rfl, rfl⟩

/-- The region after numbers that fit, and every file that is then written. -/
private theorem publish_numbers {ns : List Int} (hns : ∀ n ∈ ns, -2 ^ 31 ≤ n ∧ n < 2 ^ 31) (hfit : ns.length ≤ arraySize)
    (shm : PrefixSmem) : ∃ shm', publishCommon shm (numbersText ns) = .ok shm' ∧ shm'.arrSize.toNat = ns.length ∧
      ∀ mem, addPrefixCommon mem shm' = some (ns.map inputByte ++ mem) := by
  have hsize : (UInt32.ofNat ns.length).toNat = ns.length := by
    rw [UInt32.toNat_ofNat', Nat.mod_eq_of_lt (Nat.lt_of_le_of_lt hfit (by decide))]
  refine ⟨⟨Memory.store shm.array 0 (ns.map inputByte), UInt32.ofNat ns.length⟩, ?_, hsize, fun mem => ?_⟩
  · rw [publishCommon]
    split_ifs with hempty
    · obtain rfl := numbersText_eq_nil_iff.mp hempty
      rfl
    · have hall : (ns.map Int8.ofInt).take ns.length = ns.map Int8.ofInt := List.take_of_length_le (List.length_map _).le
      rw [stringToInputType_numbersText hns]
      dsimp only
      rw [writeToShmemCommon, List.length_map, hsize, if_neg (Nat.not_lt.mpr hfit), hall, List.map_map]
      rfl
  · have hread : (List.range ns.length).map (Memory.store shm.array 0 (ns.map inputByte)) = ns.map inputByte := by
      apply List.ext_getElem
      · simp
      · intro i hi hi'
        have := store_at (m := shm.array) (a := 0) hi'
        rw [Nat.zero_add] at this
        rw [List.getElem_map, List.getElem_range, this]
    rw [addPrefixCommon, hsize, hread, if_neg (Nat.not_lt.mpr hfit)]
    split_ifs with hzero
    · rw [List.length_eq_zero_iff.mp hzero]
      rfl
    · rfl

private theorem prefixNumbers_range (hP : P.Regular) (bytes : List UInt8) :
    ∀ n ∈ P.prefixNumbers A names bytes, -2 ^ 31 ≤ n ∧ n < 2 ^ 31 := by
  intro n hn
  obtain ⟨b, -, rfl⟩ := P.mem_prefixNumbers hn
  exact hP.int b

/-- A selection comes with a prefix that can be handed over, and its path is where every run behind it goes. -/
private theorem Resumable.select {c : CampaignState} (hP : P.Regular) (hA : A.NonFalse) (hc : Resumable P A names start past c)
    (rolls : TableRolls) : ∃ pfx path store' shm', c.store.selectPrefixAPath rolls = some ((pfx, path), store') ∧
      publishCommon c.shm pfx.pfx = .ok shm' ∧ Sound [] store' ∧ store'.segment = c.store.segment ∧
      shm'.arrSize.toNat ≤ arraySize ∧ ((path = initPath ∧ pfx.pfx = []) ∨ StoredBy P A names start past path pfx.pfx ∧
        ∀ mem, ∃ file, addPrefixCommon mem shm' = some file ∧ ∀ size ≥ shm'.arrSize.toNat,
          path <+: automataPath (P.checked A names ((file ++ P.atEnd).take size))) := by
  obtain ⟨pfx, path, hsel, hentry, -⟩ := hc.sound.selectPrefixAPath rolls
  have hsound : Sound [] { c.store with initRun := false, selectedItem := some path } :=
    ⟨hc.sound.init, hc.sound.stored, nofun⟩
  rcases hc.stored path pfx.pfx pfx.feedback hentry with ⟨rfl, hempty⟩ | hby
  · refine ⟨pfx, _, _, ⟨Memory.store c.shm.array 0 [], 0⟩, hsel, ?_, hsound, rfl, Nat.zero_le _, .inl ⟨rfl, hempty⟩⟩
    rw [hempty]
    rfl
  · obtain ⟨before, e, after, c₀, bytes, -, -, -, ⟨hpositive, hfit⟩, rfl, htext⟩ := id hby
    obtain ⟨shm', hpublish, hsize, hfile⟩ := publish_numbers (prefixNumbers_range hP bytes) hfit c.shm
    refine ⟨pfx, _, _, shm', hsel, by rw [htext]; exact hpublish, hsound, rfl, hsize ▸ hfit,
      .inr ⟨hby, fun mem => ⟨_, hfile mem, fun size hle => ?_⟩⟩⟩
    have htake : (((P.prefixNumbers A names bytes).map inputByte ++ mem) ++ P.atEnd).take size =
        (P.prefixNumbers A names bytes).map inputByte ++ ((mem ++ P.atEnd).take (size - (P.prefixNumbers A names bytes).length)) := by
      rw [List.append_assoc, List.take_append, List.length_map, List.take_of_length_le (by rw [List.length_map]; omega)]
    rw [htake]
    exact prefix_resumes hP hA hpositive _

private theorem Resumable.step (hP : P.Regular) (hA : A.NonFalse) (past : List CampaignEvent) (c : CampaignState) (e : CampaignEvent)
    (hpast : past.foldlM (CampaignState.step P A names) start = some c) (hc : Resumable P A names start past c)
    (he : RunsStorable P A names c e) : ∃ c', c.step P A names e = some c' ∧ Resumable P A names start (past ++ [e]) c' := by
  cases e with
  | select rolls type =>
    obtain ⟨pfx, path, store', shm', hsel, hpublish, hsound, hsegment, hregion, -⟩ := hc.select hP hA rolls
    have hstored (p x metric : Str) (hx : entry store'.segment.table p x = some metric) :
        (p = initPath ∧ x = []) ∨ StoredBy P A names start (past ++ [.select rolls type]) p x :=
      (hc.stored p x metric (hsegment ▸ hx)).imp_right fun hby => hby.mono _
    cases type with
    | input => exact ⟨⟨store', c.shm⟩, by simp [CampaignState.step, hsel], hsound, hstored, hc.region⟩
    | output => exact ⟨⟨store', shm'⟩, by simp [CampaignState.step, hsel, hpublish], hsound, hstored, hregion⟩
  | run mem size hashes =>
    obtain ⟨file, hfile⟩ : ∃ file, addPrefixCommon mem c.shm = some file := by
      rw [addPrefixCommon, if_neg (Nat.not_lt.mpr hc.region)]
      split_ifs
      exacts [⟨_, rfl⟩, ⟨_, rfl⟩]
    exact ⟨_, by rw [CampaignState.step, hfile]; rfl,
      hc.runProgram hpast hashes (by rw [bytesRead, hfile, Option.map_some]) (he file hfile)⟩
  | direct file size hashes => exact ⟨_, rfl, hc.runProgram hpast hashes rfl he⟩

/-- At first there is the initial path alone. -/
private theorem resumable_initial : ∃ c, CampaignState.initial = some c ∧ Resumable P A names c [] c := by
  obtain ⟨store, hstore, hsound⟩ := sound_initial
  have hbind : (insertInitAutomataPath openSegment initWrite).bind (fun segment => some ⟨segment, true, none⟩) = some store :=
    hstore
  obtain ⟨segment, hinsert, hs⟩ := Option.bind_eq_some_iff.mp hbind
  obtain rfl := Option.some.inj hs
  have hwrite : writeToSharedTable openSegment initWrite = some segment := hinsert
  refine ⟨_, by rw [CampaignState.initial, hstore]; rfl, hsound, fun p x metric hx => ?_, Nat.zero_le _⟩
  rcases entry_of_write hwrite hx with hempty | hinit
  · cases hempty
  · exact .inl hinit

/-- In a campaign whose runs can be relied on no selection and no run fails. A selection falls on the initial path, or on
the path and the prefix of one of the runs; then every run that reads all of the prefix it hands over begins with that path. -/
theorem selections_resume (hP : P.Regular) (hA : A.NonFalse) (events : List CampaignEvent)
    (h : ∀ c, CampaignState.initial = some c → AllMeet (CampaignState.step P A names) (RunsStorable P A names) c events)
    (rolls : TableRolls) :
    ∃ start c, CampaignState.initial = some start ∧ events.foldlM (CampaignState.step P A names) start = some c ∧
      ∃ pfx path store' shm', c.store.selectPrefixAPath rolls = some ((pfx, path), store') ∧
        publishCommon c.shm pfx.pfx = .ok shm' ∧
        ((path = initPath ∧ pfx.pfx = []) ∨ StoredBy P A names start events path pfx.pfx ∧
          ∀ mem, ∃ file, addPrefixCommon mem shm' = some file ∧ ∀ size ≥ shm'.arrSize.toNat,
            path <+: automataPath (P.checked A names ((file ++ P.atEnd).take size))) := by
  obtain ⟨start, hstart, h0⟩ := @resumable_initial P A names
  obtain ⟨c, hrun, hc⟩ := exists_foldlM_history_of_allMeet (Resumable P A names start) (Resumable.step hP hA) h0 events
    (h start hstart)
  obtain ⟨pfx, path, store', shm', hsel, hpublish, -, -, -, hresume⟩ := hc.select hP hA rolls
  exact ⟨start, c, hstart, hrun, pfx, path, store', shm', hsel, hpublish, hresume⟩

/-- A program that answers to the input 1 with the output 1 once it was given the input 2. -/
def unlocked : Program where
  State := Bool
  initial := false
  read b := b.toInt8.toInt
  step s i := (s || i = 2, if s && i = 1 then 1 else 2)
  atEnd := [0xff]

private theorem unlocked_regular : unlocked.Regular := by
  refine ⟨fun s i h => ?_, fun b => ?_, fun b => ?_⟩
  · have hpositive : 0 < (unlocked.step s i).2 := by
      change 0 < if _ then (1 : Int) else 2
      split_ifs <;> decide
    exact absurd h (Int.not_le.mpr hpositive)
  · have hcast : Int8.ofInt b.toInt8.toInt = b.toInt8 := Int8.toInt_inj.mp (Int8.toInt_ofInt_of_le b.toInt8.le_toInt b.toInt8.toInt_lt)
    change (Int8.ofInt b.toInt8.toInt).toUInt8.toInt8.toInt = b.toInt8.toInt
    rw [hcast, UInt8.toUInt8_toInt8]
  · have := b.toInt8.le_toInt
    have := b.toInt8.toInt_lt
    change -2 ^ 31 ≤ b.toInt8.toInt ∧ b.toInt8.toInt < 2 ^ 31
    omega

/-- The output 1 is the event that moves the automaton. -/
private def alarms : Std.TreeMap Int Str := (∅ : Std.TreeMap Int Str).insert 1 "invalid".toList

private theorem unlocked_storable : Storable unlocked reachesInvalid alarms [2, 1] := by
  have hpoints : changePoints (-2) 0 (genuine (unlocked.checked reachesInvalid alarms [2, 1])) = [(0, 0), (3, 1)] := by rfl
  have hnumber : numberAt (unlocked.recorded alarms [2, 1]).traceCommon 3 = 1 := by rfl
  refine ⟨fun k hk _ => ?_, by decide⟩
  obtain ⟨p, hp, he⟩ := hk
  rw [hpoints] at hp
  obtain rfl | rfl : p = (0, 0) ∨ p = (3, 1) := by simpa using hp
  · omega
  · rw [← he, hnumber]
    decide

private theorem unlocked_selects :
    (CampaignState.initial.bind fun c => ([CampaignEvent.direct [2, 1] 2 [7, 8], .select ⟨0, 0⟩ .output].foldlM
        (CampaignState.step unlocked reachesInvalid alarms) c).bind fun c =>
      (c.store.selectPrefixAPath ⟨0, 0⟩).map fun r => (r.1.1.pfx, r.1.2)) = some ("2,1,".toList, "0,1,".toList) := by
  decide +kernel

/-- The second selection is of the path of the run on the bytes 2 and 1. -/
theorem selections_resume_unlocked :
    ∃ start c, CampaignState.initial = some start ∧
      [CampaignEvent.direct [2, 1] 2 [7, 8], .select ⟨0, 0⟩ .output].foldlM
        (CampaignState.step unlocked reachesInvalid alarms) start = some c ∧
      ∃ pfx path store' shm', c.store.selectPrefixAPath ⟨0, 0⟩ = some ((pfx, path), store') ∧
        publishCommon c.shm pfx.pfx = .ok shm' ∧ pfx.pfx = "2,1,".toList ∧ path = "0,1,".toList ∧
        StoredBy unlocked reachesInvalid alarms start [.direct [2, 1] 2 [7, 8], .select ⟨0, 0⟩ .output] path pfx.pfx ∧
        ∀ mem, ∃ file, addPrefixCommon mem shm' = some file ∧ ∀ size ≥ shm'.arrSize.toNat,
          path <+: automataPath (unlocked.checked reachesInvalid alarms ((file ++ [0xff]).take size)) := by
  obtain ⟨start, c, hstart, hrun, pfx, path, store', shm', hsel, hpublish, hresume⟩ :=
    selections_resume unlocked_regular reachesInvalid_nonFalse [.direct [2, 1] 2 [7, 8], .select ⟨0, 0⟩ .output]
      (fun _ _ => ⟨unlocked_storable, allMeet_singleton.mpr trivial⟩) ⟨0, 0⟩
  have hvalue := unlocked_selects
  rw [hstart, Option.bind_some, hrun, Option.bind_some, hsel, Option.map_some, Option.some_inj, Prod.mk.injEq] at hvalue
  obtain ⟨hpfx, hpath⟩ := hvalue
  refine ⟨start, c, hstart, hrun, pfx, path, store', shm', hsel, hpublish, hpfx, hpath, hresume.resolve_left ?_⟩
  rintro ⟨-, hempty⟩
  rw [hpfx] at hempty
  cases hempty

end LtlFuzzer.Fuzzer
