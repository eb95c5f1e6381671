import LtlFuzzer.Aflgo.Delivery
import LtlFuzzer.Aflgo.TelnetRequests
import LtlFuzzer.Foundation.Faults

/-! Sending a session with the local buffers that its messages are also copied to. -/
namespace LtlFuzzer.Aflgo
open Foundation Memory

def inputBufferSize : Nat := 100000
def indexSize : Nat := 20

/-- The buffer past whose end a write goes. -/
inductive BufferFault where
  | inputBuffer
  | index
  deriving DecidableEq, Repr

/-- The memory that the loop finds: the input buffer is not initialised, and a message has
bytes behind it that belong to its string until the first zero. -/
structure Stack where
  inputBuffer : Nat → UInt8
  behind : Nat → Bytes

/-- A message as a string. -/
def Stack.text (stack : Stack) (k : Nat) (m : Message) : Bytes := (m.mdata ++ stack.behind k).takeWhile (· ≠ 0)

/-- Appending a string to the one in a buffer of a size. -/
def strcat (m : Nat → UInt8) (size : Nat) (s : Bytes) : Option (Nat → UInt8) :=
  match cstr 0 m 0 size with
  | none => none
  | some old => if old.length + s.length < size then some (stpcpy m old.length s) else none

/-- The sending loop with its copies. -/
def sendBuffered (net : Network) (stack : Stack) (messagesSent counter : Nat) (inputBuffer : Nat → UInt8) :
    List Message → Except BufferFault (List Bytes × Nat)
  | [] => .ok ([], messagesSent)
  | m :: ms =>
    let (n, took) := netSend (net.sending messagesSent) m.msize
    match strcat inputBuffer inputBufferSize (stack.text messagesSent m) with
    | none => .error .inputBuffer
    | some inputBuffer =>
      if indexSize ≤ counter then .error .index
      else if n ≠ m.msize then .ok (arrival took m.mdata, messagesSent + 1)
      else if net.recvFails messagesSent then .ok (arrival took m.mdata, messagesSent + 1)
      else (sendBuffered net stack (messagesSent + 1) (counter + 1) inputBuffer ms).map fun r =>
        (arrival took m.mdata ++ r.1, r.2)

/-- A run with its buffers: what `sendOverNetwork` gives, or the first write past an end. -/
def sendWithBuffers (prefixShm : Option PrefixSmem) (klMessages : List Message) (messagesSent : Nat) (net : Network)
    (stack : Stack) : Except BufferFault (Option (List Bytes × Nat)) :=
  if !net.connects || net.earlyRecvFails then .ok (some ([], messagesSent))
  else match addedMessages prefixShm with
    | none => .ok none
    | some added =>
      let (first, n) := sendAdded net 0 added
      (sendBuffered net stack n 0 stack.inputBuffer klMessages).map fun r => some (first ++ r.1, r.2)

/-- How many bytes the messages have as strings, numbered from one on. -/
def Stack.textLength (stack : Stack) : Nat → List Message → Nat
  | _, [] => 0
  | k, m :: ms => (stack.text k m).length + stack.textLength (k + 1) ms

/-- There are no more messages than places, and the input buffer begins with a string that
leaves room for all of theirs. -/
def Stack.Holds (stack : Stack) (k : Nat) (ms : List Message) : Prop :=
  ms.length ≤ indexSize ∧
    (ms = [] ∨ ∃ old, cstr 0 stack.inputBuffer 0 inputBufferSize = some old ∧
      old.length + stack.textLength k ms < inputBufferSize)

variable {net : Network} {stack : Stack}

theorem zero_not_mem_text (k : Nat) (m : Message) : 0 ∉ stack.text k m := by
  intro h
  have := List.mem_takeWhile_imp h
  simp at this

/-- The string after another was appended to it. -/
theorem strcat_eq_some {m m' : Nat → UInt8} {size : Nat} {s : Bytes} (hs : 0 ∉ s) (h : strcat m size s = some m') :
    ∃ old, cstr 0 m 0 size = some old ∧ old.length + s.length < size ∧ cstr 0 m' 0 size = some (old ++ s) := by
  rw [strcat] at h
  cases hold : cstr 0 m 0 size with
  | none => simp [hold] at h
  | some old =>
    rw [hold] at h
    simp only [Option.ite_none_right_eq_some, Option.some_inj] at h
    obtain ⟨hlt, rfl⟩ := h
    have := cstr_store_end hold hs hlt
    rw [Nat.zero_add] at this
    exact ⟨old, rfl, hlt, this⟩

private theorem strcat_eq_none {m : Nat → UInt8} {size : Nat} {s : Bytes} (h : strcat m size s = none) (old : Bytes)
    (hold : cstr 0 m 0 size = some old) : size ≤ old.length + s.length := by
  rw [strcat, hold] at h
  simpa using h

/-- The messages that the loop comes to begin with the first. -/
private theorem exists_handed_cons (net : Network) (k : Nat) (m : Message) (ms : List Message) :
    ∃ rest, handed net k (m :: ms) = m :: rest := by
  rw [handed]
  split_ifs
  · exact ⟨_, rfl⟩
  · exact ⟨_, rfl⟩

/-- One round whose copies stay within the buffers. -/
private theorem sendBuffered_round {k counter : Nat} {inputBuffer inputBuffer' : Nat → UInt8} {m : Message}
    (hcat : strcat inputBuffer inputBufferSize (stack.text k m) = some inputBuffer') (hc : counter < indexSize)
    (ms : List Message) :
    sendBuffered net stack k counter inputBuffer (m :: ms) =
      if Whole net k m.mdata ∧ net.recvFails k = false then
        (sendBuffered net stack (k + 1) (counter + 1) inputBuffer' ms).map fun r =>
          (arrival (netSend (net.sending k) m.msize).2 m.mdata ++ r.1, r.2)
      else .ok (arrival (netSend (net.sending k) m.msize).2 m.mdata, k + 1) := by
  have hsent : (netSend (net.sending k) m.msize).1 = m.msize ↔ Whole net k m.mdata := netSend_eq_iff _ _
  simp only [sendBuffered, hcat, Nat.not_le.mpr hc, if_false, ne_eq, hsent]
  by_cases hw : Whole net k m.mdata
  · cases hr : net.recvFails k <;> simp [hw]
  · simp [hw]

/-- The loop stays within its buffers where they hold the messages that it comes to. -/
private theorem sendBuffered_within_iff (ms : List Message) {k counter : Nat} {inputBuffer : Nat → UInt8}
    (hc : counter ≤ indexSize) :
    (∃ r, sendBuffered net stack k counter inputBuffer ms = .ok r) ↔
      counter + (handed net k ms).length ≤ indexSize ∧
        (handed net k ms = [] ∨ ∃ old, cstr 0 inputBuffer 0 inputBufferSize = some old ∧
          old.length + stack.textLength k (handed net k ms) < inputBufferSize) := by
  induction ms generalizing k counter inputBuffer with
  | nil => simpa [sendBuffered, handed] using hc
  | cons m ms ih =>
    obtain ⟨rest, hrest⟩ := exists_handed_cons net k m ms
    cases hcat : strcat inputBuffer inputBufferSize (stack.text k m) with
    | none =>
      refine iff_of_false (by simp [sendBuffered, hcat]) ?_
      rw [hrest, Stack.textLength]
      rintro ⟨-, hnil | ⟨old, hold, hlt⟩⟩
      · cases hnil
      · have := strcat_eq_none hcat old hold
        omega
    | some inputBuffer' =>
      obtain ⟨old, hold, hlt, hnew⟩ := strcat_eq_some (zero_not_mem_text k m) hcat
      by_cases hfull : indexSize ≤ counter
      · refine iff_of_false (by simp [sendBuffered, hcat, hfull]) ?_
        rw [hrest, List.length_cons]
        rintro ⟨hle, -⟩
        omega
      · rw [sendBuffered_round hcat (Nat.not_le.mp hfull), handed]
        split_ifs with hgo
        · -- the string in the buffer is the old one and the message's
          rw [Faults.exists_map_eq_ok, ih (by omega), List.length_cons, Stack.textLength, hnew]
          simp only [Option.some_inj, exists_eq_left', hold, List.length_append, false_or]
          cases handed net (k + 1) ms with
          | nil =>
            simp only [Stack.textLength, List.length_nil, true_or, and_true]
            omega
          | cons m' ms =>
            simp only [reduceCtorEq, false_or]
            omega
        · refine iff_of_true ⟨_, rfl⟩ ⟨?_, .inr ⟨old, hold, ?_⟩⟩
          · rw [List.length_singleton]
            omega
          · simpa [Stack.textLength] using hlt

/-- The copies do not change what is sent. -/
private theorem sendBuffered_eq_ok (ms : List Message) {k counter : Nat} {inputBuffer : Nat → UInt8} {r : List Bytes × Nat}
    (h : sendBuffered net stack k counter inputBuffer ms = .ok r) : r = sendMessages net k ms := by
  induction ms generalizing k counter inputBuffer r with
  | nil =>
    cases h
    rfl
  | cons m ms ih =>
    cases hcat : strcat inputBuffer inputBufferSize (stack.text k m) with
    | none => simp [sendBuffered, hcat] at h
    | some inputBuffer' =>
      by_cases hfull : indexSize ≤ counter
      · simp [sendBuffered, hcat, hfull] at h
      · rw [sendBuffered_round hcat (Nat.not_le.mp hfull)] at h
        have hsent : (netSend (net.sending k) m.msize).1 = m.msize ↔ Whole net k m.mdata := netSend_eq_iff _ _
        simp only [sendMessages, ne_eq, hsent]
        split_ifs at h with hgo
        · obtain ⟨r', hr', rfl⟩ := Faults.map_eq_ok.mp h
          rw [ih hr']
          simp [hgo]
        · cases h
          by_cases hw : Whole net k m.mdata
          · have hr : net.recvFails k = true := by simpa [hw] using hgo
            simp [hw, hr]
          · simp [hw]

/-- Where no write goes past an end, a run is the one without the buffers. -/
theorem sendWithBuffers_eq_ok {prefixShm : Option PrefixSmem} {klMessages : List Message} {messagesSent : Nat}
    {r : Option (List Bytes × Nat)} (h : sendWithBuffers prefixShm klMessages messagesSent net stack = .ok r) :
    r = sendOverNetwork prefixShm klMessages messagesSent net := by
  rw [sendWithBuffers] at h
  rw [sendOverNetwork]
  split_ifs at h ⊢
  · cases h
    rfl
  · cases hadd : addedMessages prefixShm with
    | none =>
      rw [hadd] at h
      cases h
      rfl
    | some added =>
      rw [hadd] at h
      obtain ⟨r', hr', rfl⟩ := Faults.map_eq_ok.mp h
      rw [sendBuffered_eq_ok klMessages hr']
      rfl

theorem sendWithBuffers_within_iff (prefixShm : Option PrefixSmem) (klMessages : List Message) (messagesSent : Nat)
    (net : Network) (stack : Stack) :
    (∃ r, sendWithBuffers prefixShm klMessages messagesSent net stack = .ok r) ↔
      (net.connects = true → net.earlyRecvFails = false → ∀ added, addedMessages prefixShm = some added →
        stack.Holds added.length (handed net added.length klMessages)) := by
  rw [sendWithBuffers]
  split_ifs with hend
  · refine iff_of_true ⟨_, rfl⟩ fun hc hr => ?_
    simp [hc, hr] at hend
  · have hgo : net.connects = true ∧ net.earlyRecvFails = false := by simpa using hend
    simp only [hgo, forall_true_left]
    cases hadd : addedMessages prefixShm with
    | none => exact iff_of_true ⟨_, rfl⟩ fun added h => by cases h
    | some added =>
      simp only [Option.some_inj, forall_eq']
      have hwithin : (∃ r, sendBuffered net stack added.length 0 stack.inputBuffer klMessages = .ok r) ↔ _ :=
        sendBuffered_within_iff klMessages (Nat.zero_le indexSize)
      rw [Nat.zero_add] at hwithin
      rw [Stack.Holds, ← hwithin, sendAdded_eq, Nat.zero_add]
      exact Faults.exists_map_eq_ok

private theorem textLength_append (k : Nat) (ms more : List Message) :
    stack.textLength k (ms ++ more) = stack.textLength k ms + stack.textLength (k + ms.length) more := by
  induction ms generalizing k with
  | nil => exact (Nat.zero_add _).symm
  | cons m ms ih =>
    have hk : k + 1 + ms.length = k + (m :: ms).length := by
      rw [List.length_cons]
      omega
    rw [List.cons_append, Stack.textLength, Stack.textLength, ih, hk, Nat.add_assoc]

private theorem Stack.Holds.of_isPrefix {k : Nat} {ms all : List Message} (h : stack.Holds k all) (hp : ms <+: all) :
    stack.Holds k ms := by
  obtain ⟨more, rfl⟩ := hp
  obtain ⟨hlen, hroom⟩ := h
  rw [List.length_append] at hlen
  refine ⟨by omega, ?_⟩
  rcases hroom with hnil | ⟨old, hold, hlt⟩
  · exact .inl (List.append_eq_nil_iff.mp hnil).1
  · rw [textLength_append] at hlt
    exact .inr ⟨old, hold, by omega⟩

/-- A network that takes every message. -/
def obliging : Network := ⟨true, false, fun _ => ⟨true, []⟩, fun _ => false⟩

theorem handed_obliging (k : Nat) (ms : List Message) : handed obliging k ms = ms := by
  induction ms generalizing k with
  | nil => rfl
  | cons m ms ih =>
    rw [handed, if_pos ⟨rfl, rfl⟩, ih]

/-- A run stays within its buffers exactly when, if it comes to sending, they hold the
messages that are handed to the socket behind those of the prefix; over every network,
exactly when they hold the whole list. -/
theorem send_within_buffers_iff (prefixShm : Option PrefixSmem) (klMessages : List Message) (messagesSent : Nat)
    (stack : Stack) :
    (∀ net, (∃ r, sendWithBuffers prefixShm klMessages messagesSent net stack = .ok r) ↔
      (net.connects = true → net.earlyRecvFails = false → ∀ added, addedMessages prefixShm = some added →
        stack.Holds added.length (handed net added.length klMessages))) ∧
    ((∀ net, ∃ r, sendWithBuffers prefixShm klMessages messagesSent net stack = .ok r) ↔
      ∀ added, addedMessages prefixShm = some added → stack.Holds added.length klMessages) := by
  refine ⟨fun net => sendWithBuffers_within_iff prefixShm klMessages messagesSent net stack, ?_, ?_⟩
  · intro h added hadd
    have := (sendWithBuffers_within_iff prefixShm klMessages messagesSent obliging stack).mp (h obliging) rfl rfl added hadd
    rwa [handed_obliging] at this
  · intro h net
    apply (sendWithBuffers_within_iff prefixShm klMessages messagesSent net stack).mpr
    intro _ _ added hadd
    exact (h added hadd).of_isPrefix (handed_isPrefix klMessages)

/-- A session of short lines, as the extractor cuts it. -/
def shortLines (n : Nat) : Bytes := (List.replicate n [97, 0x0D, 0x0A]).flatten

def shortMessages (n : Nat) : List Message := List.replicate n ⟨[97, 0x0D, 0x0A], by decide, by decide⟩

/-- The buffer is clear, and a byte of the allocator stands behind each message. -/
def clearStack : Stack := ⟨fun _ => 0, fun _ => [0xF0]⟩

/-- With 21 lines the last size is written behind the array. -/
theorem send_exceeds_index :
    (∃ regions, extractRequestsTelnet (shortLines 21) = some regions ∧
        constructKlMessages (shortLines 21) regions = (shortMessages 21).map Message.mdata) ∧
      sendWithBuffers none (shortMessages 21) 0 obliging clearStack = .error .index :=
  ⟨⟨_, rfl, by decide⟩, by decide +kernel⟩

end LtlFuzzer.Aflgo
