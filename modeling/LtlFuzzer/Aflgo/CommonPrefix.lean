import LtlFuzzer.Aflgo.Delivery
import LtlFuzzer.Instrumentation.ReplayedInputs

/-! The prefix of a common program between its text and the bytes that are copied: into the
shared region, in front of a test case, and over the start of the input. -/
namespace LtlFuzzer.Aflgo
open Foundation Memory Numerals Delimiters Automata Instrumentation

/-- The pieces between commas, empty ones too. -/
def string2vector (s : Str) : List Str := s.splitOn ','

/-- The numbers of a text, cut to the width of an input; none is the exception for a piece
that is not a number. -/
def stringToInputType (p : Str) : Option (List Int8) :=
  ((string2vector p).filter (· ≠ [])).mapM fun e => (stoi e).map Int8.ofInt

/-- How a copy can fail: the text is not numbers, or the bytes go past the destination. -/
inductive CopyFault where
  | badNumber
  | overflow
  deriving DecidableEq, Repr

def writeToShmemCommon (shm : PrefixSmem) (arr : List Int8) (arrSize : UInt32) : Except CopyFault PrefixSmem :=
  if arraySize < arrSize.toNat then .error .overflow
  else .ok ⟨store shm.array 0 ((arr.take arrSize.toNat).map Int8.toUInt8), arrSize⟩

/-- What the fuzzer does with a prefix before it starts the engine. -/
def publishCommon (shm : PrefixSmem) (pfx : Str) : Except CopyFault PrefixSmem :=
  if pfx = [] then writeToShmemCommon shm [0] 0
  else match stringToInputType pfx with
    | none => .error .badNumber
    | some pre => writeToShmemCommon shm pre (UInt32.ofNat pre.length)

/-- The copy over the start of the input before the program is run. -/
def replacePrefix (input : Bytes) (pfx : Str) : Except CopyFault Bytes :=
  if pfx = [] then .ok input
  else match stringToInputType pfx with
    | none => .error .badNumber
    | some pre =>
      if input.length < pre.length then .error .overflow
      else .ok (pre.map Int8.toUInt8 ++ input.drop pre.length)

/-- The largest file of the engine. -/
def maxFile : Nat := 1024 * 1024

/-- A test case that is written to a file. -/
structure FileCase where
  mem : Bytes
  bounded : mem.length ≤ maxFile

def FileCase.len (t : FileCase) : UInt32 := UInt32.ofNat t.mem.length

/-- The length that goes with what `addPrefixCommon` returns. -/
def addPrefixCommonLen (len : UInt32) (shm : PrefixSmem) : UInt32 := len + shm.arrSize

/-- Numbers as the recorder writes them. -/
def numbersText (ns : List Int) : Str := terminated [','] (ns.map showInt)

/-- The numbers of a recorded text, and those of the text behind it. -/
theorem stringToInputType_append {ns : List Int} (h : ∀ n ∈ ns, -2 ^ 31 ≤ n ∧ n < 2 ^ 31) (code : Str) :
    stringToInputType (numbersText ns ++ code) = (stringToInputType code).map (ns.map Int8.ofInt ++ ·) := by
  rw [stringToInputType, string2vector, numbersText, splitOn_terminated_append (comma_not_mem_of_mem_map ns),
    stringToInputType, string2vector]
  induction ns with
  | nil => simp
  | cons n ns ih =>
    obtain ⟨⟨hlo, hhi⟩, hns⟩ := List.forall_mem_cons.mp h
    have hne : showInt n ≠ [] := by
      cases n <;> simp [showInt, showNat_ne_nil]
    rw [List.map_cons, List.cons_append, List.filter_cons_of_pos (by simpa using hne), List.mapM_cons, stoi_showInt hlo hhi, ih hns]
    cases ((code.splitOn ',').filter (· ≠ [])).mapM fun e => (stoi e).map Int8.ofInt <;> rfl

theorem stringToInputType_numbersText {ns : List Int} (h : ∀ n ∈ ns, -2 ^ 31 ≤ n ∧ n < 2 ^ 31) :
    stringToInputType (numbersText ns) = some (ns.map Int8.ofInt) := by
  have hempty : stringToInputType [] = some [] := rfl
  have := stringToInputType_append h []
  rwa [List.append_nil, hempty, Option.map_some, List.append_nil] at this

theorem numbersText_eq_nil_iff {ns : List Int} : numbersText ns = [] ↔ ns = [] := by
  cases ns <;> simp [numbersText]

/-- The text of inputs. -/
def encodeInputs (xs : List Int8) : Str := numbersText (xs.map Int8.toInt)

private theorem toInt_range (xs : List Int8) : ∀ n ∈ xs.map Int8.toInt, -2 ^ 31 ≤ n ∧ n < 2 ^ 31 := by
  intro n hn
  obtain ⟨x, -, rfl⟩ := List.mem_map.mp hn
  have := x.le_toInt
  have := x.toInt_lt
  omega

theorem stringToInputType_encodeInputs (xs : List Int8) : stringToInputType (encodeInputs xs) = some xs := by
  have hcast (x : Int8) : Int8.ofInt x.toInt = x := Int8.toInt_inj.mp (Int8.toInt_ofInt_of_le x.le_toInt x.toInt_lt)
  rw [encodeInputs, stringToInputType_numbersText (toInt_range xs), List.map_map]
  simp [Function.comp_def, hcast]

private theorem toNat_size {n : Nat} (h : n ≤ arraySize) : (UInt32.ofNat n).toNat = n := by
  rw [UInt32.toNat_ofNat', Nat.mod_eq_of_lt (Nat.lt_of_le_of_lt h (by decide))]

/-- The region after inputs that fit, whatever it held before. -/
theorem publishCommon_encodeInputs {xs : List Int8} (hx : xs.length ≤ arraySize) (shm : PrefixSmem) :
    publishCommon shm (encodeInputs xs) = .ok ⟨store shm.array 0 (xs.map Int8.toUInt8), UInt32.ofNat xs.length⟩ := by
  rw [publishCommon]
  split_ifs with hempty
  · obtain rfl : xs = [] := by simpa [encodeInputs, numbersText_eq_nil_iff] using hempty
    rfl
  · rw [stringToInputType_encodeInputs]
    change writeToShmemCommon shm xs (UInt32.ofNat xs.length) = _
    rw [writeToShmemCommon, toNat_size hx, if_neg (Nat.not_lt.mpr hx), List.take_length]

/-- Inputs that fit go through their text and the region to the front of every test case. -/
theorem prefix_journey {xs : List Int8} (hx : xs.length ≤ arraySize) (shm : PrefixSmem) (t : FileCase) :
    stringToInputType (encodeInputs xs) = some xs ∧
      ∃ shm', publishCommon shm (encodeInputs xs) = .ok shm' ∧
        addPrefixCommon t.mem shm' = some (xs.map Int8.toUInt8 ++ t.mem) ∧
        (addPrefixCommonLen t.len shm').toNat = xs.length + t.mem.length := by
  have hsize := toNat_size hx
  refine ⟨stringToInputType_encodeInputs xs, _, publishCommon_encodeInputs hx shm, ?_, ?_⟩
  · -- the array is read from its first byte on, over the rows
    have hread : (List.range xs.length).map (store shm.array 0 (xs.map Int8.toUInt8)) = xs.map Int8.toUInt8 := by
      apply List.ext_getElem
      · simp
      · intro i hi hi'
        have := store_at (m := shm.array) (a := 0) hi'
        rw [Nat.zero_add] at this
        rw [List.getElem_map, List.getElem_range, this]
    rw [addPrefixCommon, hsize, hread, if_neg (Nat.not_lt.mpr hx)]
    split_ifs with hzero
    · rw [List.length_eq_zero_iff.mp hzero]
      rfl
    · rfl
  · have hlen : t.len.toNat = t.mem.length := by
      rw [FileCase.len, UInt32.toNat_ofNat', Nat.mod_eq_of_lt (Nat.lt_of_le_of_lt t.bounded (by decide))]
    have hsum : t.mem.length + xs.length < 2 ^ 32 := by
      have := t.bounded
      unfold maxFile at this
      unfold arraySize slotSize at hx
      omega
    rw [addPrefixCommonLen, UInt32.toNat_add, hlen, hsize, Nat.mod_eq_of_lt hsum, Nat.add_comm]

/-- Longer inputs were in the region before. -/
theorem prefix_journey_negative :
    [(-1 : Int8), 65].length ≤ arraySize ∧ stringToInputType (encodeInputs [-1, 65]) = some [-1, 65] ∧
      ∃ shm', publishCommon ⟨fun _ => 7, 3⟩ (encodeInputs [-1, 65]) = .ok shm' ∧
        addPrefixCommon [66] shm' = some ([(-1 : Int8), 65].map Int8.toUInt8 ++ [66]) ∧
        (addPrefixCommonLen (FileCase.len ⟨[66], by decide⟩) shm').toNat = 2 + 1 :=
  ⟨by decide, prefix_journey (by decide : [(-1 : Int8), 65].length ≤ arraySize) ⟨fun _ => 7, 3⟩ ⟨[66], by decide⟩⟩

/-- Neither copy goes past its destination: the prefix with the code of an event over the
input, the prefix alone into the region. -/
def CopiesFit (shm : PrefixSmem) (input : Bytes) (code pfx : Str) : Prop :=
  replacePrefix input (pfx ++ code) ≠ .error .overflow ∧ publishCommon shm pfx ≠ .error .overflow

/-- An input of the trace that changed the state, or with a positive output before a later change. -/
def Contributes (common : List Int) (states : List MCState) (j : Nat) : Prop :=
  j % 2 = 0 ∧ (ChangedAt states j ∨
    ((∃ p ∈ changePoints (-2) 0 (genuine states), j < p.1) ∧ 0 < numberAt common (j + 1)))

instance (common : List Int) (states : List MCState) (j : Nat) : Decidable (Contributes common states j) :=
  inferInstanceAs (Decidable (j % 2 = 0 ∧ ((∃ p ∈ changePoints (-2) 0 (genuine states), p.1 = j) ∨
    ((∃ p ∈ changePoints (-2) 0 (genuine states), j < p.1) ∧ 0 < numberAt common (j + 1)))))

def contributing (common : List Int) (states : List MCState) : Nat :=
  (List.range common.length).countP fun j => Contributes common states j

private theorem length_inputsUsed {common : List Int} {states : List MCState} (hnn : ∀ s ∈ genuine states, 0 ≤ s)
    (hlen : (genuine states).length ≤ common.length) :
    (inputsUsed common states).length = contributing common states := by
  rw [contributing, List.countP_eq_length_filter]
  apply List.Perm.length_eq
  apply (List.perm_ext_iff_of_nodup (inputsUsed_nodup hnn) (List.nodup_range.filter _)).mpr
  intro j
  rw [mem_inputsUsed hnn, List.mem_filter, List.mem_range, decide_eq_true_eq]
  refine ⟨fun h => ⟨?_, h⟩, And.right⟩
  rcases h.2 with ⟨p, hp, he⟩ | ⟨⟨p, hp, hlt⟩, -⟩
  · have := (changePoints_range hp).2
    omega
  · have := (changePoints_range hp).2
    omega

private theorem replacePrefix_fits_iff {ns : List Int} (h : ∀ n ∈ ns, -2 ^ 31 ≤ n ∧ n < 2 ^ 31) (input : Bytes) (code : Str) :
    replacePrefix input (numbersText ns ++ code) ≠ .error .overflow ↔
      ∀ more, stringToInputType code = some more → ns.length + more.length ≤ input.length := by
  rw [replacePrefix, stringToInputType_append h]
  split_ifs with hempty
  · obtain ⟨hns, rfl⟩ := List.append_eq_nil_iff.mp hempty
    obtain rfl := numbersText_eq_nil_iff.mp hns
    refine iff_of_true (by simp) fun more hmore => ?_
    cases hmore
    exact Nat.zero_le _
  · cases stringToInputType code with
    | none => simp
    | some more =>
      simp only [Option.map_some, Option.some_inj, forall_eq', List.length_append, List.length_map]
      split_ifs with hlt
      · exact iff_of_false (by simp) (by omega)
      · exact iff_of_true (by simp) (by omega)

private theorem publishCommon_fits_iff {ns : List Int} (h : ∀ n ∈ ns, -2 ^ 31 ≤ n ∧ n < 2 ^ 31) (shm : PrefixSmem) :
    publishCommon shm (numbersText ns) ≠ .error .overflow ↔ ns.length % 2 ^ 32 ≤ arraySize := by
  rw [publishCommon, stringToInputType_numbersText h]
  split_ifs with hempty
  · obtain rfl := numbersText_eq_nil_iff.mp hempty
    exact iff_of_true (by simp [writeToShmemCommon]) (Nat.zero_le _)
  · simp only [writeToShmemCommon, List.length_map, UInt32.toNat_ofNat']
    split_ifs with hlt
    · exact iff_of_false (by simp) (by omega)
    · exact iff_of_true (by simp) (by omega)

/-- The numbers of an input and its output, as the program passes them on. -/
def ints (p : Int32 × Int32) : Int × Int := (p.1.toInt, p.2.toInt)

private theorem numberAt_range (names : Std.TreeMap Int Str) (pairs : List (Int32 × Int32)) (j : Nat) :
    -2 ^ 31 ≤ numberAt (recordPairs names (pairs.map ints)).traceCommon j ∧
      numberAt (recordPairs names (pairs.map ints)).traceCommon j < 2 ^ 31 := by
  have hall : ∀ n ∈ (recordPairs names (pairs.map ints)).traceCommon, -2 ^ 31 ≤ n ∧ n < 2 ^ 31 := by
    rw [recordPairs_traceCommon]
    intro n hn
    obtain ⟨q, hq, hn⟩ := List.mem_flatMap.mp hn
    obtain ⟨p, -, rfl⟩ := List.mem_map.mp hq
    have hbounds (x : Int32) : -2 ^ 31 ≤ x.toInt ∧ x.toInt < 2 ^ 31 := ⟨x.le_toInt, x.toInt_lt⟩
    simp only [ints, List.mem_cons, List.not_mem_nil, or_false] at hn
    rcases hn with rfl | rfl
    · exact hbounds p.1
    · exact hbounds p.2
  rw [numberAt]
  cases hj : (recordPairs names (pairs.map ints)).traceCommon[j]? with
  | none => decide
  | some n => exact hall n (List.mem_of_getElem? hj)

/-- A recorded prefix is copied within its destinations exactly when the inputs that make it,
with the numbers of the event's code if these can be read, are no more than the input has
bytes, and they are no more than the array has, as a 32-bit count. -/
theorem recorded_prefix_fits_iff (A : TwaGraph) (names : Std.TreeMap Int Str) (pairs : List (Int32 × Int32)) (st : Statics)
    (shm : PrefixSmem) (input : Bytes) (code : Str) :
    ∃ b states aPath pfx, b = recordPairs names (pairs.map ints) ∧
      states = (A.modelCheckEvents (b.trace false) st).1 ∧
      extractPrefixAutomataPath b states false = .ok (aPath, pfx) ∧
      (CopiesFit shm input code pfx ↔
        (∀ more, stringToInputType code = some more →
            contributing b.traceCommon states + more.length ≤ input.length) ∧
          contributing b.traceCommon states % 2 ^ 32 ≤ arraySize) := by
  have hnn := genuine_nonneg A ((recordPairs names (pairs.map ints)).trace false) st
  have hlen := length_genuine_recordPairs A names (pairs.map ints) st
  refine ⟨_, _, _, _, rfl, rfl, extract_common hlen, ?_⟩
  rw [← length_inputsUsed hnn hlen]
  generalize inputsUsed _ _ = used
  have hrange : ∀ n ∈ used.map (numberAt (recordPairs names (pairs.map ints)).traceCommon), -2 ^ 31 ≤ n ∧ n < 2 ^ 31 := by
    intro n hn
    obtain ⟨j, -, rfl⟩ := List.mem_map.mp hn
    exact numberAt_range names pairs j
  have htext : terminated [','] (used.map fun j => showInt (numberAt (recordPairs names (pairs.map ints)).traceCommon j)) =
      numbersText (used.map (numberAt (recordPairs names (pairs.map ints)).traceCommon)) := by
    rw [numbersText, List.map_map]
    rfl
  rw [htext, CopiesFit, replacePrefix_fits_iff hrange, publishCommon_fits_iff hrange, List.length_map]

/-- Two inputs were recorded and the seed file has one byte. -/
theorem recorded_prefix_overflows :
    ∃ b states, b = recordPairs namesAB [(1, 1), (2, 1), (3, 0)] ∧
      states = (reachesInvalid.modelCheckEvents (b.trace false) {}).1 ∧
      extractPrefixAutomataPath b states false = .ok ("0,1,".toList, "1,2,".toList) ∧
      replacePrefix [65] ("1,2,".toList ++ ['3']) = .error .overflow :=
  ⟨_, _, rfl, rfl, rfl, rfl⟩

end LtlFuzzer.Aflgo
