import LtlFuzzer.Aflgo.PrefixRegion
import Mathlib.Data.List.TakeDrop
import Mathlib.Logic.Function.Basic

/-! Cutting a telnet seed into requests, and reading the messages back by their regions. -/
namespace LtlFuzzer.Aflgo
open Foundation

structure Region where
  startByte : Nat
  endByte : Nat
  deriving DecidableEq, Repr

/-- The counters and the request under construction. A seed has no more than MAX_FILE
bytes, so none of the counters wraps. -/
structure TelnetScan where
  mem : Nat → UInt8
  memCount : Nat
  memSize : Nat
  curStart : Nat
  curEnd : Nat
  regions : List Region

/-- The loop over what the buffer holds from byte_count on. None is a write past the
memory block. -/
def scanTelnet (bufSize : Nat) : List UInt8 → TelnetScan → Option (List Region)
  | [], s => some s.regions
  | byte :: rest, s =>
    if s.memSize ≤ s.memCount then none
    else
      let mem := Function.update s.mem s.memCount byte
      if 1 < s.memCount ∧ mem (s.memCount - 1) = 0x0D ∧ mem s.memCount = 0x0A then
        scanTelnet bufSize rest
          ⟨mem, 0, s.memSize, s.curEnd + 1, s.curEnd + 1, s.regions ++ [⟨s.curStart, s.curEnd⟩]⟩
      else if s.curEnd + 1 = bufSize - 1 then some (s.regions ++ [⟨s.curStart, s.curEnd + 1⟩])
      else
        let memSize := if s.memCount + 1 = s.memSize then s.memSize * 2 else s.memSize
        scanTelnet bufSize rest ⟨mem, s.memCount + 1, memSize, s.curStart, s.curEnd + 1, s.regions⟩

def extractRequestsTelnet (buf : Bytes) : Option (List Region) :=
  (scanTelnet buf.length buf ⟨fun _ => 0, 0, 1024, 0, 0, []⟩).map fun regions =>
    if regions = [] ∧ 0 < buf.length then [⟨0, buf.length - 1⟩] else regions

/-- Each message is read on from where the last one ended, into a block of zeros. -/
def constructKlMessages : Bytes → List Region → List Bytes
  | _, [] => []
  | seed, r :: regions =>
    let len := r.endByte - r.startByte + 1
    List.takeD len seed 0 :: constructKlMessages (seed.drop len) regions

/-- The regions lie side by side from a byte on up to another. -/
def Tiles : Nat → Nat → List Region → Prop
  | start, stop, [] => start = stop
  | start, stop, r :: regions => r.startByte = start ∧ r.startByte ≤ r.endByte ∧ Tiles (r.endByte + 1) stop regions

/-- The regions tile the buffer, and the messages are all of it. -/
def SplitsWhole (buf : Bytes) : Prop :=
  ∃ regions, extractRequestsTelnet buf = some regions ∧ Tiles 0 buf.length regions ∧
    (constructKlMessages buf regions).flatten = buf

/-- The request under construction after some bytes, both with the last byte in front. -/
def openRequest : List UInt8 → List UInt8
  | [] => []
  | byte :: before =>
    if 1 < (openRequest before).length ∧ (openRequest before).head? = some 0x0D ∧ byte = 0x0A then []
    else byte :: openRequest before

/-- How many line ends stand in a row at the end, last byte in front. One that starts the
buffer does not count. -/
def trailingPairs : List UInt8 → Nat
  | 0x0A :: 0x0D :: byte :: before => trailingPairs (byte :: before) + 1
  | _ => 0

theorem Tiles.le {start stop : Nat} {regions : List Region} (h : Tiles start stop regions) : start ≤ stop := by
  induction regions generalizing start with
  | nil => exact Nat.le_of_eq h
  | cons r regions ih =>
    obtain ⟨rfl, hle, hrest⟩ := h
    have := ih hrest
    omega

/-- Where the regions end is determined. -/
theorem Tiles.unique {start stop stop' : Nat} {regions : List Region} (h : Tiles start stop regions)
    (h' : Tiles start stop' regions) : stop = stop' := by
  induction regions generalizing start with
  | nil => exact h.symm.trans h'
  | cons r regions ih => exact ih h.2.2 h'.2.2

theorem Tiles.eq_nil_iff {start stop : Nat} {regions : List Region} (h : Tiles start stop regions) :
    regions = [] ↔ start = stop := by
  cases regions with
  | nil => exact iff_of_true rfl h
  | cons r regions =>
    obtain ⟨rfl, hle, hrest⟩ := h
    have := hrest.le
    exact iff_of_false (List.cons_ne_nil r regions) (by omega)

/-- What the messages hold is the part of the file that the regions tile. -/
theorem flatten_constructKlMessages {start stop : Nat} {regions : List Region} (h : Tiles start stop regions) {seed : Bytes}
    (hlen : stop - start ≤ seed.length) : (constructKlMessages seed regions).flatten = seed.take (stop - start) := by
  induction regions generalizing start seed with
  | nil =>
    obtain rfl : start = stop := h
    rw [Nat.sub_self, List.take_zero]
    rfl
  | cons r regions ih =>
    obtain ⟨rfl, hle, hrest⟩ := h
    have hstop := hrest.le
    obtain ⟨len, hfirst⟩ : ∃ len, r.endByte - r.startByte + 1 = len := ⟨_, rfl⟩
    obtain ⟨more, hmore⟩ : ∃ more, stop - (r.endByte + 1) = more := ⟨_, rfl⟩
    have hsum : stop - r.startByte = len + more := by omega
    rw [constructKlMessages, hfirst, List.flatten_cons, ih hrest (by rw [List.length_drop]; omega), hmore, hsum,
      List.take_add, List.takeD_eq_take _ (by omega)]

private theorem openRequest_cons_of_ne {byte : UInt8} (h : byte ≠ 0x0A) (before : List UInt8) :
    openRequest (byte :: before) = byte :: openRequest before :=
  if_neg fun he => h he.2.2

private theorem openRequest_of_ne_nil {byte : UInt8} {before : List UInt8} (h : openRequest (byte :: before) ≠ []) :
    openRequest (byte :: before) = byte :: openRequest before := by
  rw [openRequest] at h ⊢
  split_ifs at h ⊢ with hends
  · exact absurd rfl h
  · rfl

/-- A request that ends does so with a line end, and is longer than that alone. -/
private theorem pair_of_ended {x : UInt8} {before : List UInt8} (h : openRequest (x :: before) = []) :
    ∃ byte rest, x :: before = 0x0A :: 0x0D :: byte :: rest := by
  rw [openRequest] at h
  split_ifs at h with hends
  obtain ⟨hlen, hhead, rfl⟩ := hends
  cases before with
  | nil => cases hhead
  | cons y before =>
    have hopen : openRequest (y :: before) = y :: openRequest before :=
      openRequest_of_ne_nil fun hnil => by simp [hnil] at hhead
    rw [hopen] at hlen hhead
    obtain rfl : y = 0x0D := Option.some.inj hhead
    cases before with
    | nil => simp [openRequest] at hlen
    | cons z before => exact ⟨z, before, rfl⟩

/-- A request has just ended, or none has begun, exactly after an odd number of line ends. -/
theorem openRequest_eq_nil_iff (before : List UInt8) :
    openRequest before = [] ↔ before = [] ∨ trailingPairs before % 2 = 1 := by
  induction before using trailingPairs.induct with
  | case1 byte before ih =>
    have hcr : openRequest (0x0D :: byte :: before) = 0x0D :: openRequest (byte :: before) :=
      openRequest_cons_of_ne (by decide) _
    have hends : openRequest (0x0A :: 0x0D :: byte :: before) = [] ↔ openRequest (byte :: before) ≠ [] := by
      rw [openRequest, hcr]
      cases openRequest (byte :: before) <;> simp
    rw [hends, ne_eq, ih, trailingPairs]
    simp
    omega
  | case2 before hshape =>
    have hnone : trailingPairs before = 0 := by
      rw [trailingPairs]
      exact hshape
    rw [hnone]
    simp only [Nat.zero_mod, Nat.zero_ne_one, or_false]
    constructor
    · intro h
      cases before with
      | nil => rfl
      | cons x before =>
        obtain ⟨byte, rest, hpair⟩ := pair_of_ended h
        exact absurd hpair (hshape byte rest)
    · rintro rfl
      rfl

/-- The counters after some bytes, last one in front: they are in step. -/
structure InStep (before : List UInt8) (s : TelnetScan) : Prop where
  memCount : s.memCount = (openRequest before).length
  memSize : s.memCount < s.memSize
  last : 0 < s.memCount → (openRequest before).head? = some (s.mem (s.memCount - 1))
  curEnd : s.curEnd = before.length
  curStart : s.curStart + s.memCount = s.curEnd

/-- The test for a line end is right about the request under construction. -/
private theorem InStep.ends_iff {before : List UInt8} {s : TelnetScan} (h : InStep before s) (byte : UInt8) :
    (1 < s.memCount ∧ Function.update s.mem s.memCount byte (s.memCount - 1) = 0x0D ∧
      Function.update s.mem s.memCount byte s.memCount = 0x0A) ↔ openRequest (byte :: before) = [] := by
  rw [openRequest, Function.update_self, ← h.memCount]
  by_cases hlen : 1 < s.memCount
  · rw [Function.update_of_ne (by omega), h.last (by omega)]
    simp [hlen]
  · simp [hlen]

private theorem InStep.restart {before : List UInt8} {s : TelnetScan} (h : InStep before s) {byte : UInt8}
    (hends : openRequest (byte :: before) = []) (mem : Nat → UInt8) (regions : List Region) :
    InStep (byte :: before) ⟨mem, 0, s.memSize, s.curEnd + 1, s.curEnd + 1, regions⟩ := by
  refine ⟨by rw [hends]; rfl, Nat.lt_of_le_of_lt (Nat.zero_le _) h.memSize, fun hlt => absurd hlt (Nat.lt_irrefl 0), ?_, rfl⟩
  rw [h.curEnd, List.length_cons]

private theorem InStep.goOn {before : List UInt8} {s : TelnetScan} (h : InStep before s) {byte : UInt8}
    (hopen : openRequest (byte :: before) = byte :: openRequest before) (regions : List Region) :
    InStep (byte :: before) ⟨Function.update s.mem s.memCount byte, s.memCount + 1,
      if s.memCount + 1 = s.memSize then s.memSize * 2 else s.memSize, s.curStart, s.curEnd + 1, regions⟩ := by
  have hsize := h.memSize
  have hstart := h.curStart
  refine ⟨?_, ?_, fun _ => ?_, ?_, ?_⟩
  · rw [hopen, List.length_cons, h.memCount]
  · simp only
    split_ifs <;> omega
  · rw [hopen, List.head?_cons]
    exact congrArg some (Function.update_self s.memCount byte s.mem).symm
  · rw [h.curEnd, List.length_cons]
  · simp only
    omega

/-- A byte that ends the request. -/
private theorem scanTelnet_ended (bufSize : Nat) {before : List UInt8} {s : TelnetScan} (h : InStep before s) {byte : UInt8}
    (hends : openRequest (byte :: before) = []) (rest : List UInt8) :
    ∃ s', scanTelnet bufSize (byte :: rest) s = scanTelnet bufSize rest s' ∧ InStep (byte :: before) s' ∧
      s'.regions = s.regions ++ [⟨s.curStart, s.curEnd⟩] ∧ s'.curStart = s.curEnd + 1 := by
  refine ⟨_, ?_, h.restart hends (Function.update s.mem s.memCount byte) _, rfl, rfl⟩
  rw [scanTelnet, if_neg (Nat.not_le.mpr h.memSize)]
  exact if_pos ((h.ends_iff byte).mpr hends)

/-- A byte within the request; if the buffer has one more byte, the scan stops here. -/
private theorem scanTelnet_open (bufSize : Nat) {before : List UInt8} {s : TelnetScan} (h : InStep before s) {byte : UInt8}
    (hopen : openRequest (byte :: before) ≠ []) (rest : List UInt8) :
    ∃ s', scanTelnet bufSize (byte :: rest) s = (if s.curEnd + 1 = bufSize - 1 then
          some (s.regions ++ [⟨s.curStart, s.curEnd + 1⟩]) else scanTelnet bufSize rest s') ∧
      InStep (byte :: before) s' ∧ s'.regions = s.regions ∧ s'.curStart = s.curStart := by
  refine ⟨_, ?_, h.goOn (openRequest_of_ne_nil hopen) s.regions, rfl, rfl⟩
  rw [scanTelnet, if_neg (Nat.not_le.mpr h.memSize)]
  exact if_neg (mt (h.ends_iff byte).mp hopen)

/-- The regions tile the rest of the buffer, without its last byte where a request has ended
right before that. -/
private theorem scanTelnet_tiles {bufSize : Nat} {before rest : List UInt8} {s : TelnetScan} (hrest : rest ≠ [])
    (h : InStep before s) (hsize : bufSize = before.length + rest.length) (hone : rest.length = 1 → openRequest before = []) :
    ∃ new, scanTelnet bufSize rest s = some (s.regions ++ new) ∧
      Tiles s.curStart (if openRequest (rest.dropLast.reverse ++ before) = [] then bufSize - 1 else bufSize) new := by
  induction rest generalizing before s with
  | nil => exact absurd rfl hrest
  | cons byte rest ih =>
    have hcurEnd := h.curEnd
    have hcurStart := h.curStart
    rw [List.length_cons] at hsize
    cases rest with
    | nil =>
      have hnone := hone rfl
      have hopen : openRequest (byte :: before) ≠ [] := by simp [openRequest, hnone]
      have hcount : s.memCount = 0 := by rw [h.memCount, hnone, List.length_nil]
      rw [List.length_nil] at hsize
      obtain ⟨s', hscan, -, hregions, -⟩ := scanTelnet_open bufSize h hopen []
      refine ⟨[], ?_, ?_⟩
      · rw [hscan, if_neg (by omega), scanTelnet, hregions, List.append_nil]
      · rw [List.dropLast_singleton, List.reverse_nil, List.nil_append, if_pos hnone]
        change s.curStart = bufSize - 1
        omega
    | cons y rest =>
      have hlater : (byte :: y :: rest).dropLast.reverse ++ before = (y :: rest).dropLast.reverse ++ byte :: before := by
        simp
      have hlater_size : bufSize = (byte :: before).length + (y :: rest).length := by
        rw [hsize, List.length_cons, List.length_cons]
        omega
      rw [hlater]
      by_cases hends : openRequest (byte :: before) = []
      · obtain ⟨s', hscan, hstep, hregions, hstart⟩ := scanTelnet_ended bufSize h hends (y :: rest)
        obtain ⟨new, hscan', htiles⟩ := ih (List.cons_ne_nil y rest) hstep hlater_size fun _ => hends
        rw [hstart] at htiles
        refine ⟨⟨s.curStart, s.curEnd⟩ :: new, ?_, rfl, by simp only; omega, htiles⟩
        rw [hscan, hscan', hregions, List.append_assoc, List.singleton_append]
      · obtain ⟨s', hscan, hstep, hregions, hstart⟩ := scanTelnet_open bufSize h hends (y :: rest)
        rw [hscan]
        rw [List.length_cons] at hsize
        cases rest with
        | nil =>
          rw [List.length_nil] at hsize
          refine ⟨[⟨s.curStart, s.curEnd + 1⟩], if_pos (by omega), rfl, by simp only; omega, ?_⟩
          rw [List.dropLast_singleton, List.reverse_nil, List.nil_append, if_neg hends]
          change s.curEnd + 1 + 1 = bufSize
          omega
        | cons z rest =>
          rw [List.length_cons] at hsize
          rw [if_neg (by omega), ← hregions, ← hstart]
          exact ih (List.cons_ne_nil y _) hstep hlater_size fun hlen => by simp at hlen

/-- What the regions tile: all of the buffer, or all but its last byte. -/
private theorem extractRequestsTelnet_tiles {buf : Bytes} (hne : buf ≠ []) :
    ∃ regions, extractRequestsTelnet buf = some regions ∧
      Tiles 0 (if trailingPairs buf.dropLast.reverse % 2 = 0 then buf.length else buf.length - 1) regions := by
  have hpos : 0 < buf.length := List.length_pos_of_ne_nil hne
  have hstart : InStep [] ⟨fun _ => 0, 0, 1024, 0, 0, []⟩ :=
    ⟨rfl, by decide, fun hlt => absurd hlt (Nat.lt_irrefl 0), rfl, rfl⟩
  obtain ⟨regions, hscan, htiles⟩ := scanTelnet_tiles hne hstart (Nat.zero_add _).symm fun _ => rfl
  rw [List.nil_append] at hscan
  simp only [List.append_nil, openRequest_eq_nil_iff, List.reverse_eq_nil_iff] at htiles
  rw [extractRequestsTelnet, hscan, Option.map_some]
  refine ⟨_, rfl, ?_⟩
  by_cases hone : buf.length = 1
  · -- one byte gives no region, and the fallback's is the whole buffer
    have hnil : buf.dropLast = [] := List.eq_nil_of_length_eq_zero (by simp [hone])
    simp only [hnil, true_or, if_true, hone] at htiles
    have hregions : regions = [] := htiles.eq_nil_iff.mpr rfl
    rw [hregions, hnil, hone]
    exact ⟨rfl, Nat.le_refl 0, rfl⟩
  · have hdrop : buf.dropLast ≠ [] := fun h => hone (by
      have := congrArg List.length h
      simp at this
      omega)
    have hsame : (if buf.dropLast = [] ∨ trailingPairs buf.dropLast.reverse % 2 = 1 then buf.length - 1 else buf.length) =
        if trailingPairs buf.dropLast.reverse % 2 = 0 then buf.length else buf.length - 1 := by
      simp only [hdrop, false_or]
      split_ifs <;> omega
    rw [hsame] at htiles
    have hregions : regions ≠ [] := fun h => by
      have := htiles.eq_nil_iff.mp h
      split_ifs at this <;> omega
    have hkept : (if regions = [] ∧ 0 < buf.length then [⟨0, buf.length - 1⟩] else regions) = regions :=
      if_neg fun h => hregions h.1
    rwa [hkept]

/-- A telnet seed is split without loss exactly when the line ends that stand in a row right
before its last byte are even in number. -/
theorem telnet_seed_splits_iff {buf : Bytes} (hne : buf ≠ []) :
    SplitsWhole buf ↔ trailingPairs buf.dropLast.reverse % 2 = 0 := by
  have hpos : 0 < buf.length := List.length_pos_of_ne_nil hne
  obtain ⟨regions, hextract, htiles⟩ := extractRequestsTelnet_tiles hne
  constructor
  · rintro ⟨regions', hextract', htiles', -⟩
    obtain rfl : regions = regions' := Option.some.inj (hextract.symm.trans hextract')
    have hend := htiles.unique htiles'
    split_ifs at hend with heven
    · exact heven
    · omega
  · intro heven
    rw [if_pos heven] at htiles
    refine ⟨regions, hextract, htiles, ?_⟩
    rw [flatten_constructKlMessages htiles (Nat.sub_le _ _), Nat.sub_zero, List.take_length]

/-- In x CR LF y the last byte is in no region. -/
theorem telnet_seed_loses_last :
    extractRequestsTelnet [120, 13, 10, 121] = some [⟨0, 2⟩] ∧
      constructKlMessages [120, 13, 10, 121] [⟨0, 2⟩] = [[120, 13, 10]] ∧ ¬ SplitsWhole [120, 13, 10, 121] := by
  have hextract : extractRequestsTelnet [120, 13, 10, 121] = some [⟨0, 2⟩] := by decide
  refine ⟨hextract, by decide, ?_⟩
  rintro ⟨regions, h, -, hall⟩
  rw [hextract] at h
  cases h
  exact absurd hall (by decide)

theorem telnet_seed_splits_iff_two :
    SplitsWhole [97, 13, 10, 98, 13, 10] ↔ trailingPairs [13, 98, 10, 13, 97] % 2 = 0 :=
  telnet_seed_splits_iff (by decide)

end LtlFuzzer.Aflgo
