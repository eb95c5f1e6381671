import LtlFuzzer.Automata.Graph
import LtlFuzzer.Foundation.Memory
import Mathlib.Data.List.TakeWhile

/-! The shared region that hands a protocol prefix to the fuzzing engine. -/
namespace LtlFuzzer.Aflgo
open Foundation Memory

/-- The bytes of a message. -/
abbrev Bytes := List UInt8

def slotSize : Nat := 32768
def arraySize : Nat := 32 * slotSize

/-- The slots one after the other, and the count. -/
structure PrefixSmem where
  array : Nat → UInt8
  arrSize : UInt32

/-- Copying a string with its terminator. -/
def stpcpy (m : Nat → UInt8) (a : Nat) (s : Bytes) : Nat → UInt8 := store m a (s ++ [0])

/-- The copying loop from a slot on, and the exception that ends it. -/
def writeSlots (m : Nat → UInt8) (i : Nat) : List Bytes → (Nat → UInt8) × Option Str
  | [] => (m, none)
  | s :: arr =>
    if 20000 < s.length then (m, some "Single length at shared memory overflow".toList)
    else writeSlots (stpcpy m (slotSize * i) s) (i + 1) arr

/-- What the region holds afterwards, and the exception thrown. -/
def writeToShmemProtocol (shm : PrefixSmem) (arr : List Bytes) (arrSize : UInt32) : PrefixSmem × Option Str :=
  if 30 < arrSize then (shm, some "Total length at shared memory overflow".toList)
  else if arrSize = 0 then ({ shm with arrSize := 0 }, none)
  else match writeSlots shm.array 0 (arr.take arrSize.toNat) with
    | (m, some e) => ({ shm with array := m }, some e)
    | (m, none) => (⟨m, arrSize⟩, none)

/-- A string that is read from a slot; none where no terminator follows in the array. -/
def slot (m : Nat → UInt8) (i : Nat) : Option Bytes := cstr 0 m (slotSize * i) (arraySize - slotSize * i)

/-- The reading loop, with a number of slots left from one on. It ends at an empty string. -/
def readSlots (m : Nat → UInt8) (i : Nat) : Nat → Option (List Bytes)
  | 0 => some []
  | n + 1 => do
    let s ← slot m i
    if s = [] then some [] else (readSlots m (i + 1) n).map (s :: ·)

def addPrefixProtocol (shm : PrefixSmem) : Option (List Bytes) := readSlots shm.array 0 shm.arrSize.toNat

/-- The hand-over of a vector as the fuzzer calls it. -/
def handOver (shm : PrefixSmem) (arr : List Bytes) : PrefixSmem × Option Str :=
  writeToShmemProtocol shm arr (UInt32.ofNat arr.length)

/-- Faithful and atomic: what is read is the vector, or after an exception what was read before. -/
def Faithful (shm : PrefixSmem) (arr : List Bytes) : Prop :=
  match handOver shm arr with
  | (shm', some _) => ∀ old, addPrefixProtocol shm = some old → addPrefixProtocol shm' = some old
  | (shm', none) => addPrefixProtocol shm' = some arr

/-- The reader comes to a slot: it is counted, and no string before it is empty. -/
def Reached (m : Nat → UInt8) (i count j : Nat) : Prop := i ≤ j ∧ j < i + count ∧ ∀ l, i ≤ l → l < j → slot m l ≠ some []

/-- The strings before the first that is too long, and what the old region holds in their place. -/
def StopsHarmless (shm : PrefixSmem) (arr : List Bytes) : Prop :=
  ∃ pre s rest, arr = pre ++ s :: rest ∧ (∀ x ∈ pre, x.length ≤ 20000) ∧ 20000 < s.length ∧
    (addPrefixProtocol shm ≠ none →
      ∀ i < pre.length, Reached shm.array 0 shm.arrSize.toNat i → slot shm.array i = pre[i]?)

/-- Too many strings; or none is empty or too long and the count fits; or the first that
is too long follows only strings that the region holds already, as far as it is read. -/
def Harmless (shm : PrefixSmem) (arr : List Bytes) : Prop :=
  30 < arr.length % 2 ^ 32 ∨ (arr.length < 2 ^ 32 ∧ ∀ s ∈ arr, s ≠ [] ∧ s.length ≤ 20000) ∨
    StopsHarmless shm (arr.take (arr.length % 2 ^ 32))

/-- The memory once all of the strings are copied. -/
def copied (m : Nat → UInt8) (i : Nat) : List Bytes → Nat → UInt8
  | [] => m
  | s :: arr => copied (stpcpy m (slotSize * i) s) (i + 1) arr

variable {m m' : Nat → UInt8} {arr : List Bytes}

private theorem writeSlots_fit (h : ∀ s ∈ arr, s.length ≤ 20000) (m : Nat → UInt8) (i : Nat) :
    writeSlots m i arr = (copied m i arr, none) := by
  induction arr generalizing m i with
  | nil => rfl
  | cons s arr ih =>
    obtain ⟨hs, harr⟩ := List.forall_mem_cons.mp h
    rw [writeSlots, if_neg (Nat.not_lt.mpr hs), ih harr, copied]

private theorem writeSlots_stop {s : Bytes} (rest : List Bytes) (h : ∀ s ∈ arr, s.length ≤ 20000)
    (hs : 20000 < s.length) (m : Nat → UInt8) (i : Nat) :
    ∃ e, writeSlots m i (arr ++ s :: rest) = (copied m i arr, some e) := by
  induction arr generalizing m i with
  | nil => exact ⟨_, by rw [List.nil_append, writeSlots, if_pos hs, copied]⟩
  | cons x arr ih =>
    obtain ⟨hx, harr⟩ := List.forall_mem_cons.mp h
    obtain ⟨e, he⟩ := ih harr (stpcpy m (slotSize * i) x) (i + 1)
    exact ⟨e, by rw [List.cons_append, writeSlots, if_neg (Nat.not_lt.mpr hx), he, copied]⟩

/-- Copying starts at its slot. -/
private theorem copied_below {i j : Nat} (arr : List Bytes) (m : Nat → UInt8) (hj : j < slotSize * i) :
    copied m i arr j = m j := by
  induction arr generalizing m i with
  | nil => rfl
  | cons s arr ih =>
    rw [copied, ih _ (Nat.lt_of_lt_of_le hj (Nat.mul_le_mul_left _ (Nat.le_succ i))), stpcpy, store_of_lt _ hj]

/-- Copying stays within its slots. -/
private theorem copied_above {i j : Nat} (h : ∀ s ∈ arr, s.length ≤ 20000) (m : Nat → UInt8)
    (hj : slotSize * (i + arr.length) ≤ j) : copied m i arr j = m j := by
  induction arr generalizing m i with
  | nil => rfl
  | cons s arr ih =>
    obtain ⟨hs, harr⟩ := List.forall_mem_cons.mp h
    rw [List.length_cons] at hj
    have hend : slotSize * i + (s ++ [0]).length ≤ j := by
      rw [List.length_append, List.length_singleton]
      unfold slotSize at hj ⊢
      omega
    rw [copied, ih harr _ (by rwa [Nat.add_right_comm, Nat.add_assoc i]), stpcpy, store_of_ge hend]

private theorem slot_copied {i t : Nat} (h : ∀ s ∈ arr, s.length ≤ 20000 ∧ 0 ∉ s) (m : Nat → UInt8)
    (hi : i + arr.length ≤ 32) (ht : t < arr.length) : slot (copied m i arr) (i + t) = some arr[t] := by
  induction arr generalizing m i t with
  | nil => cases ht
  | cons s arr ih =>
    obtain ⟨⟨hs, hfree⟩, harr⟩ := List.forall_mem_cons.mp h
    rw [List.length_cons] at hi ht
    cases t with
    | zero =>
      have hread (j : Nat) (hj : j < (s ++ [0]).length) : copied m i (s :: arr) (slotSize * i + j) = (s ++ [0])[j] := by
        have hlen : j < s.length + 1 := by simpa using hj
        have hlt : slotSize * i + j < slotSize * (i + 1) := by
          unfold slotSize
          omega
        rw [copied, copied_below arr _ hlt, stpcpy, store_at hj]
      change cstr 0 (copied m i (s :: arr)) (slotSize * i) (arraySize - slotSize * i) = some s
      refine cstr_of_reads (fun j hj => ?_) ?_ hfree ?_
      · rw [hread j (by simp; omega), List.getElem_append_left hj]
      · rw [hread s.length (by simp), List.getElem_concat_length rfl]
      · unfold arraySize slotSize
        omega
    | succ t =>
      have := ih harr (stpcpy m (slotSize * i) s) (i := i + 1) (by omega) (by omega : t < arr.length)
      rwa [Nat.add_right_comm, Nat.add_assoc] at this

/-- A slot after those copied is as before. -/
private theorem slot_above {j : Nat} (h : ∀ s ∈ arr, s.length ≤ 20000) (hj : arr.length ≤ j) :
    slot (copied m 0 arr) j = slot m j := by
  refine cstr_congr _ fun l hl => copied_above h m (Nat.le_trans (Nat.mul_le_mul_left _ ?_) hl)
  omega

private theorem readSlots_of_slots {i : Nat} (h : ∀ t (ht : t < arr.length), slot m (i + t) = some arr[t]) :
    readSlots m i arr.length = some (arr.takeWhile (· ≠ [])) := by
  induction arr generalizing i with
  | nil => rfl
  | cons s arr ih =>
    obtain ⟨hs, hslots⟩ := (forall_getElem_cons (P := fun j x => slot m j = some x)).mp h
    have hrest := ih hslots
    rw [List.length_cons, readSlots, hs, Option.bind_eq_bind, Option.bind_some, hrest]
    by_cases hne : s = []
    · simp [hne]
    · simp [hne]

/-- No string that is read is longer than the array. -/
theorem length_lt_of_mem_readSlots {i n : Nat} {read : List Bytes} {s : Bytes} (h : readSlots m i n = some read)
    (hs : s ∈ read) : s.length < arraySize := by
  induction n generalizing i read with
  | zero =>
    cases h
    cases hs
  | succ n ih =>
    rw [readSlots] at h
    obtain ⟨x, hx, h⟩ := Option.bind_eq_some_iff.mp h
    split_ifs at h with hne
    · cases h
      cases hs
    · obtain ⟨rest, hrest, rfl⟩ := Option.map_eq_some_iff.mp h
      rcases List.mem_cons.mp hs with rfl | hs
      · exact Nat.lt_of_lt_of_le (length_lt_of_cstr hx) (Nat.sub_le _ _)
      · exact ih hrest hs

private theorem reached_succ {i n j : Nat} :
    Reached m i (n + 1) j ↔ j = i ∨ slot m i ≠ some [] ∧ Reached m (i + 1) n j := by
  constructor
  · rintro ⟨hle, hlt, hbefore⟩
    rcases Nat.eq_or_lt_of_le hle with rfl | hij
    · exact .inl rfl
    · exact .inr ⟨hbefore i (Nat.le_refl i) hij, hij, by omega, fun l hl => hbefore l (Nat.le_of_succ_le hl)⟩
  · rintro (rfl | ⟨hi, hle, hlt, hbefore⟩)
    · exact ⟨Nat.le_refl j, by omega, fun l h₁ h₂ => absurd h₁ (Nat.not_le.mpr h₂)⟩
    · refine ⟨Nat.le_of_succ_le hle, by omega, fun l h₁ h₂ => ?_⟩
      rcases Nat.eq_or_lt_of_le h₁ with rfl | hil
      · exact hi
      · exact hbefore l hil h₂

/-- Another memory gives the same strings exactly when it has the same at every slot reached. -/
private theorem readSlots_eq_iff {i n : Nat} {old : List Bytes} (h : readSlots m i n = some old) :
    readSlots m' i n = some old ↔ ∀ j, Reached m i n j → slot m j = slot m' j := by
  induction n generalizing i old with
  | zero => exact iff_of_true h fun j hj => absurd hj.2.1 (Nat.not_lt.mpr hj.1)
  | succ n ih =>
    rw [readSlots] at h ⊢
    obtain ⟨s, hs, h⟩ := Option.bind_eq_some_iff.mp h
    simp only [reached_succ, forall_eq_or_imp, hs]
    by_cases hne : s = []
    · subst hne
      obtain rfl : [] = old := Option.some.inj h
      cases hs' : slot m' i with
      | none => simp
      | some s' => cases s' <;> simp
    · rw [if_neg hne] at h
      obtain ⟨rest, hrest, rfl⟩ := Option.map_eq_some_iff.mp h
      have hlater : (∀ j, some s ≠ some [] ∧ Reached m (i + 1) n j → slot m j = slot m' j) ↔
          readSlots m' (i + 1) n = some rest := by
        rw [ih hrest]
        simp [hne]
      rw [hlater]
      cases hs' : slot m' i with
      | none => simp
      | some s' =>
        by_cases he : s' = []
        · subst he
          simp [hne]
        · simp [he, eq_comm, and_comm]

private theorem count_eq (arr : List Bytes) : (UInt32.ofNat arr.length).toNat = arr.length % 2 ^ 32 := UInt32.toNat_ofNat'

/-- What a call within the count does. -/
private theorem handOver_eq (shm : PrefixSmem) (hn : arr.length % 2 ^ 32 ≤ 30) (hpos : arr.length % 2 ^ 32 ≠ 0) :
    handOver shm arr = match writeSlots shm.array 0 (arr.take (arr.length % 2 ^ 32)) with
      | (m, some e) => ({ shm with array := m }, some e)
      | (m, none) => (⟨m, UInt32.ofNat arr.length⟩, none) := by
  have hle : ¬ 30 < UInt32.ofNat arr.length := by
    rw [UInt32.lt_iff_toNat_lt, count_eq]
    exact Nat.not_lt.mpr hn
  have hne : UInt32.ofNat arr.length ≠ 0 := fun h => hpos (by rw [← count_eq, h]; rfl)
  rw [handOver, writeToShmemProtocol, if_neg hle, if_neg hne, count_eq]

private theorem faithful_of_fit (shm : PrefixSmem) (hfree : ∀ s ∈ arr, 0 ∉ s) (hn : arr.length % 2 ^ 32 ≤ 30)
    (hpos : arr.length % 2 ^ 32 ≠ 0) (hfit : ∀ s ∈ arr.take (arr.length % 2 ^ 32), s.length ≤ 20000) :
    Faithful shm arr ↔ arr.length < 2 ^ 32 ∧ ∀ s ∈ arr, s ≠ [] := by
  have hlen : (arr.take (arr.length % 2 ^ 32)).length = arr.length % 2 ^ 32 :=
    List.length_take_of_le (Nat.mod_le _ _)
  have hslots (t : Nat) (ht : t < (arr.take (arr.length % 2 ^ 32)).length) :
      slot (copied shm.array 0 (arr.take (arr.length % 2 ^ 32))) (0 + t) = some (arr.take (arr.length % 2 ^ 32))[t] :=
    slot_copied (fun s hs => ⟨hfit s hs, hfree s (List.mem_of_mem_take hs)⟩) shm.array (by omega) ht
  have hread := readSlots_of_slots hslots
  rw [hlen] at hread
  rw [Faithful, handOver_eq shm hn hpos, writeSlots_fit hfit]
  simp only [addPrefixProtocol, count_eq, hread, Option.some.injEq]
  constructor
  · intro h
    have hle : arr.length ≤ arr.length % 2 ^ 32 := by
      calc arr.length = ((arr.take (arr.length % 2 ^ 32)).takeWhile (· ≠ [])).length := by rw [h]
        _ ≤ (arr.take (arr.length % 2 ^ 32)).length := (List.takeWhile_sublist _).length_le
        _ = arr.length % 2 ^ 32 := hlen
    refine ⟨by omega, ?_⟩
    rw [List.take_of_length_le hle] at h
    simpa using List.takeWhile_eq_self_iff.mp h
  · rintro ⟨hlt, hne⟩
    rw [Nat.mod_eq_of_lt hlt, List.take_length]
    exact List.takeWhile_eq_self_iff.mpr (by simpa using hne)

private theorem faithful_of_stop (shm : PrefixSmem) (hfree : ∀ s ∈ arr, 0 ∉ s) (hn : arr.length % 2 ^ 32 ≤ 30)
    {pre rest : List Bytes} {s : Bytes} (harr : arr.take (arr.length % 2 ^ 32) = pre ++ s :: rest)
    (hfit : ∀ x ∈ pre, x.length ≤ 20000) (hs : 20000 < s.length) :
    Faithful shm arr ↔ (addPrefixProtocol shm ≠ none →
      ∀ i < pre.length, Reached shm.array 0 shm.arrSize.toNat i → slot shm.array i = pre[i]?) := by
  have hlen : pre.length + (rest.length + 1) = arr.length % 2 ^ 32 := by
    have := congrArg List.length harr
    rwa [List.length_take_of_le (Nat.mod_le _ _), List.length_append, List.length_cons, eq_comm] at this
  have hpre (i : Nat) (hi : i < pre.length) : slot (copied shm.array 0 pre) i = pre[i]? := by
    have hmem (x : Bytes) (hx : x ∈ pre) : x ∈ arr :=
      List.mem_of_mem_take (by rw [harr]; exact List.mem_append_left _ hx)
    have := slot_copied (fun x hx => ⟨hfit x hx, hfree x (hmem x hx)⟩) shm.array (i := 0) (by omega) hi
    rwa [Nat.zero_add, ← List.getElem?_eq_getElem hi] at this
  obtain ⟨e, he⟩ := writeSlots_stop rest hfit hs shm.array 0
  rw [Faithful, handOver_eq shm hn (by omega), harr, he]
  simp only [addPrefixProtocol]
  constructor
  · intro h hsome i hi hreached
    obtain ⟨old, hold⟩ := Option.ne_none_iff_exists'.mp hsome
    rw [(readSlots_eq_iff hold).mp (h old hold) i hreached, hpre i hi]
  · intro h old hold
    refine (readSlots_eq_iff hold).mpr fun j hj => ?_
    by_cases hjpre : j < pre.length
    · rw [hpre j hjpre, h (by simp [hold]) j hjpre hj]
    · exact (slot_above hfit (Nat.not_lt.mp hjpre)).symm

/-- Too many strings: it throws before it writes. -/
private theorem faithful_of_many (shm : PrefixSmem) (hn : 30 < arr.length % 2 ^ 32) : Faithful shm arr := by
  have hlt : 30 < UInt32.ofNat arr.length := by
    rw [UInt32.lt_iff_toNat_lt, count_eq]
    exact hn
  rw [Faithful, handOver, writeToShmemProtocol, if_pos hlt]
  exact fun old h => h

/-- A count of none: the region reads as empty afterwards. -/
private theorem faithful_of_zero (shm : PrefixSmem) (hzero : arr.length % 2 ^ 32 = 0) : Faithful shm arr ↔ arr = [] := by
  have hcount : UInt32.ofNat arr.length = 0 := UInt32.toNat_inj.mp ((count_eq arr).trans hzero)
  rw [Faithful, handOver, hcount, writeToShmemProtocol, if_neg (by decide), if_pos rfl]
  change some [] = some arr ↔ _
  rw [Option.some.injEq, eq_comm]

private theorem not_stopsHarmless (shm : PrefixSmem) (hfit : ∀ s ∈ arr, s.length ≤ 20000) : ¬ StopsHarmless shm arr := by
  rintro ⟨pre, s, rest, rfl, -, hs, -⟩
  exact absurd (hfit s (by simp)) (Nat.not_le.mpr hs)

/-- The hand-over is faithful and atomic exactly when it is harmless. -/
theorem handOver_faithful_iff (shm : PrefixSmem) (hfree : ∀ s ∈ arr, 0 ∉ s) : Faithful shm arr ↔ Harmless shm arr := by
  rw [Harmless]
  by_cases hn : 30 < arr.length % 2 ^ 32
  · exact iff_of_true (faithful_of_many shm hn) (.inl hn)
  by_cases hpos : arr.length % 2 ^ 32 = 0
  · have hnone : ¬ StopsHarmless shm (arr.take (arr.length % 2 ^ 32)) := by
      rw [hpos, List.take_zero]
      exact not_stopsHarmless shm (List.forall_mem_nil _)
    rw [faithful_of_zero shm hpos]
    simp only [hn, hnone, false_or, or_false]
    constructor
    · rintro rfl
      exact ⟨by decide, by simp⟩
    · rintro ⟨hlt, -⟩
      rw [Nat.mod_eq_of_lt hlt] at hpos
      exact List.length_eq_zero_iff.mp hpos
  have hle := Nat.not_lt.mp hn
  cases hfind : (arr.take (arr.length % 2 ^ 32)).find? fun s => 20000 < s.length with
  | none =>
    have hfit : ∀ s ∈ arr.take (arr.length % 2 ^ 32), s.length ≤ 20000 := by
      simpa using List.find?_eq_none.mp hfind
    rw [faithful_of_fit shm hfree hle hpos hfit]
    simp only [hn, not_stopsHarmless shm hfit, false_or, or_false]
    refine and_congr_right fun hlt => forall₂_congr fun s hs => ⟨fun hne => ⟨hne, hfit s ?_⟩, And.left⟩
    rwa [Nat.mod_eq_of_lt hlt, List.take_length]
  | some s =>
    obtain ⟨hs, pre, rest, harr, hpre⟩ := List.find?_eq_some_iff_append.mp hfind
    have hlong : 20000 < s.length := of_decide_eq_true hs
    have hfit : ∀ x ∈ pre, x.length ≤ 20000 := by simpa using hpre
    constructor
    · intro h
      exact .inr (.inr ⟨pre, s, rest, harr, hfit, hlong, (faithful_of_stop shm hfree hle harr hfit hlong).mp h⟩)
    · rintro (h | ⟨-, h⟩ | ⟨pre', s', rest', harr', hfit', hs', hslots⟩)
      · exact absurd h hn
      · have := (h s (List.mem_of_mem_take (by rw [harr]; simp))).2
        omega
      · exact (faithful_of_stop shm hfree hle harr' hfit' hs').mpr hslots

/-- A region that was never written to. -/
def blankRegion : PrefixSmem := ⟨fun _ => 0, 0⟩

/-- A region that holds one message. -/
def oneMessage : PrefixSmem := (handOver blankRegion [[65]]).1

def longMessage : Bytes := List.replicate 20001 67

private theorem torn : ¬ Faithful oneMessage [[66], longMessage] := by
  have hlong : 20000 < longMessage.length := by
    rw [longMessage, List.length_replicate]
    omega
  have hfree : ∀ s ∈ [[66], longMessage], (0 : UInt8) ∉ s := by
    intro s hs h
    rcases List.mem_pair.mp hs with rfl | rfl
    · cases List.mem_singleton.mp h
    · cases List.eq_of_mem_replicate h
  have harr : [[66], longMessage].take ([[66], longMessage].length % 2 ^ 32) = [[66]] ++ longMessage :: [] := rfl
  rw [faithful_of_stop oneMessage hfree (by decide) harr (by decide) hlong]
  intro h
  have hreached : Reached oneMessage.array 0 oneMessage.arrSize.toNat 0 :=
    ⟨Nat.le_refl 0, by decide, fun l h₁ h₂ => absurd h₁ (Nat.not_le.mpr h₂)⟩
  have hslot : slot oneMessage.array 0 = some [66] := h (by decide) 0 (by decide) hreached
  exact absurd hslot (by decide)

/-- An empty message ends the list that is read; a message that is too long leaves the
messages before it in place of the old. -/
theorem handOver_unfaithful :
    addPrefixProtocol (handOver blankRegion [[65], [], [66]]).1 = some [[65]] ∧
      ¬ Faithful blankRegion [[65], [], [66]] ∧ ¬ Faithful oneMessage [[66], longMessage] := by
  have hread : addPrefixProtocol (handOver blankRegion [[65], [], [66]]).1 = some [[65]] := by decide
  refine ⟨hread, fun h => ?_, torn⟩
  have hall : addPrefixProtocol (handOver blankRegion [[65], [], [66]]).1 = some [[65], [], [66]] := h
  rw [hread] at hall
  cases hall

theorem handOver_faithful_iff_two : Faithful blankRegion [[65], [66, 67]] ↔ Harmless blankRegion [[65], [66, 67]] :=
  handOver_faithful_iff blankRegion (by decide)

end LtlFuzzer.Aflgo
