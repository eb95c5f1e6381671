import LtlFuzzer.Aflgo.PrefixRegion

/-! A test case on its way to the program, through a file or over the network. The prefix
is added on the way. -/
namespace LtlFuzzer.Aflgo
open Foundation

/-- The largest block that is allocated. -/
def maxAlloc : Nat := 0x40000000

/-- A message of the list. No memory is given for an empty one, and the list does not take it. -/
structure Message where
  mdata : Bytes
  nonempty : mdata ≠ []
  bounded : mdata.length ≤ maxAlloc

def Message.msize (m : Message) : Nat := m.mdata.length

/-- The socket as a message comes: whether it is writable, and what `send` returns call
after call, none for an error. After these it takes what is left. -/
structure Sending where
  writable : Bool
  results : List (Option Nat)

/-- The sending loop: what is returned, and how many bytes the socket took. -/
def sendLoop (len byteCount : Nat) : List (Option Nat) → Int × Nat
  | [] => (len, len)
  | r :: results =>
    if len ≤ byteCount then (byteCount, byteCount)
    else match r with
      | none => (-1, byteCount)
      | some n => if n = 0 then (byteCount, byteCount) else sendLoop len (min len (byteCount + n)) results

def netSend (s : Sending) (len : Nat) : Int × Nat := if s.writable then sendLoop len 0 s.results else (0, 0)

/-- The network in a run, with the messages numbered as they are counted. -/
structure Network where
  connects : Bool
  earlyRecvFails : Bool
  sending : Nat → Sending
  recvFails : Nat → Bool

/-- What the program gets of a message of which the socket took a number of bytes. -/
def arrival (n : Nat) (m : Bytes) : List Bytes := if n = 0 then [] else [m.take n]

/-- The prefix is sent without a look at what is returned. -/
def sendAdded (net : Network) (messagesSent : Nat) : List Bytes → List Bytes × Nat
  | [] => ([], messagesSent)
  | m :: ms =>
    let (rest, n) := sendAdded net (messagesSent + 1) ms
    (arrival (netSend (net.sending messagesSent) m.length).2 m ++ rest, n)

/-- The list is sent until a message is not sent whole, or no response can be read. -/
def sendMessages (net : Network) (messagesSent : Nat) : List Message → List Bytes × Nat
  | [] => ([], messagesSent)
  | m :: ms =>
    let (n, took) := netSend (net.sending messagesSent) m.msize
    if n ≠ m.msize then (arrival took m.mdata, messagesSent + 1)
    else if net.recvFails messagesSent then (arrival took m.mdata, messagesSent + 1)
    else
      let (rest, sent) := sendMessages net (messagesSent + 1) ms
      (arrival took m.mdata ++ rest, sent)

/-- The prefix messages, where the region is attached. -/
def addedMessages : Option PrefixSmem → Option (List Bytes)
  | none => some []
  | some shm => addPrefixProtocol shm

/-- What the program gets, and the count of messages after the run. A run that ends before
it sends leaves the count of the run before. -/
def sendOverNetwork (prefixShm : Option PrefixSmem) (klMessages : List Message) (messagesSent : Nat) (net : Network) :
    Option (List Bytes × Nat) :=
  if !net.connects || net.earlyRecvFails then some ([], messagesSent)
  else do
    let added ← addedMessages prefixShm
    let (first, n) := sendAdded net 0 added
    let (rest, n) := sendMessages net n klMessages
    some (first ++ rest, n)

/-- The prefix in front, in a new block; none where it is longer than the array. -/
def addPrefixCommon (mem : Bytes) (shm : PrefixSmem) : Option Bytes :=
  let prefixSize := shm.arrSize.toNat
  if prefixSize = 0 then some mem
  else if arraySize < prefixSize then none
  else some ((List.range prefixSize).map shm.array ++ mem)

/-- What the file holds that the program reads. -/
def writeToTestcase (prefixShm : Option PrefixSmem) (mem : Bytes) : Option Bytes :=
  match prefixShm with
  | none => some mem
  | some shm => addPrefixCommon mem shm

/-- What arrives of messages that are all handed to the socket, from a count on. -/
def arrived (net : Network) (k : Nat) : List Bytes → List Bytes
  | [] => []
  | m :: ms => arrival (netSend (net.sending k) m.length).2 m ++ arrived net (k + 1) ms

/-- The socket takes a message whole. -/
def Whole (net : Network) (k : Nat) (m : Bytes) : Prop := (netSend (net.sending k) m.length).2 = m.length

instance (net : Network) (k : Nat) (m : Bytes) : Decidable (Whole net k m) := inferInstanceAs (Decidable (_ = _))

/-- The messages of the list that are handed to the socket, from a count on. -/
def handed (net : Network) (k : Nat) : List Message → List Message
  | [] => []
  | m :: ms => if Whole net k m.mdata ∧ net.recvFails k = false then m :: handed net (k + 1) ms else [m]

private theorem sendLoop_spec (len : Nat) (results : List (Option Nat)) {n : Nat} (hn : n ≤ len) :
    (sendLoop len n results).2 ≤ len ∧ ((sendLoop len n results).1 = len ↔ (sendLoop len n results).2 = len) := by
  induction results generalizing n with
  | nil => simp [sendLoop]
  | cons r results ih =>
    by_cases hle : len ≤ n
    · simp [sendLoop, hle, hn]
    · cases r with
      | none =>
        simp only [sendLoop, hle, if_false]
        exact ⟨hn, iff_of_false (by omega) (by omega)⟩
      | some m =>
        by_cases hm : m = 0
        · simp [sendLoop, hle, hm, hn]
        · simpa only [sendLoop, hle, hm, if_false] using ih (Nat.min_le_left _ _)

theorem netSend_le (s : Sending) (len : Nat) : (netSend s len).2 ≤ len := by
  rw [netSend]
  split_ifs with h
  · exact (sendLoop_spec len s.results (Nat.zero_le len)).1
  · exact Nat.zero_le len

/-- The length is returned exactly when the message was taken whole. -/
theorem netSend_eq_iff (s : Sending) (len : Nat) : (netSend s len).1 = len ↔ (netSend s len).2 = len := by
  rw [netSend]
  split_ifs with h
  · exact (sendLoop_spec len s.results (Nat.zero_le len)).2
  · exact Int.natCast_inj (m := 0)

variable {net : Network} {k : Nat}

theorem sendAdded_eq (ms : List Bytes) : sendAdded net k ms = (arrived net k ms, k + ms.length) := by
  induction ms generalizing k with
  | nil => rfl
  | cons m ms ih =>
    rw [sendAdded, ih, arrived, List.length_cons, Nat.add_right_comm, Nat.add_assoc]

theorem sendMessages_eq (ms : List Message) : sendMessages net k ms =
    (arrived net k ((handed net k ms).map Message.mdata), k + (handed net k ms).length) := by
  induction ms generalizing k with
  | nil => rfl
  | cons m ms ih =>
    have hsent : (netSend (net.sending k) m.msize).1 = m.msize ↔ Whole net k m.mdata := netSend_eq_iff _ _
    rw [sendMessages, handed]
    simp only [ne_eq, hsent, ih]
    by_cases hw : Whole net k m.mdata
    · cases hr : net.recvFails k
      · simp [hw, arrived, Message.msize]
        omega
      · simp [hw, arrived, Message.msize]
    · simp [hw, arrived, Message.msize]

theorem handed_isPrefix (ms : List Message) : handed net k ms <+: ms := by
  induction ms generalizing k with
  | nil => exact List.prefix_refl []
  | cons m ms ih =>
    rw [handed]
    split_ifs with h
    · exact List.prefix_cons_inj m |>.mpr ih
    · exact ⟨ms, rfl⟩

theorem length_arrived_le (ms : List Bytes) : (arrived net k ms).length ≤ ms.length := by
  induction ms generalizing k with
  | nil => exact Nat.le_refl 0
  | cons m ms ih =>
    have : (arrival (netSend (net.sending k) m.length).2 m).length ≤ 1 := by
      rw [arrival]
      split_ifs <;> simp
    rw [arrived, List.length_append, List.length_cons]
    have := ih (k := k + 1)
    omega

/-- What arrives is no longer than what was sent. -/
theorem length_lt_of_mem_arrived {ms : List Bytes} {b : Nat} (h : ∀ m ∈ ms, m.length < b) :
    ∀ m ∈ arrived net k ms, m.length < b := by
  induction ms generalizing k with
  | nil => simp [arrived]
  | cons m ms ih =>
    obtain ⟨hm, hms⟩ := List.forall_mem_cons.mp h
    intro x hx
    rw [arrived, List.mem_append, arrival] at hx
    rcases hx with hx | hx
    · split_ifs at hx with hzero
      · cases hx
      · rw [List.mem_singleton.mp hx]
        exact Nat.lt_of_le_of_lt (List.length_take_le' _ _) hm
    · exact ih hms x hx

/-- All of it arrives as it was sent exactly when each message is taken whole. -/
theorem arrived_eq_iff {ms : List Bytes} (h : ∀ m ∈ ms, m ≠ []) :
    arrived net k ms = ms ↔ ∀ i (hi : i < ms.length), Whole net (k + i) ms[i] := by
  induction ms generalizing k with
  | nil => simp [arrived]
  | cons m ms ih =>
    obtain ⟨hm, hms⟩ := List.forall_mem_cons.mp h
    have hall : (∀ i (hi : i < (m :: ms).length), Whole net (k + i) (m :: ms)[i]) ↔
        Whole net k m ∧ arrived net (k + 1) ms = ms := by
      rw [ih hms]
      exact Memory.forall_getElem_cons (P := Whole net)
    rw [hall, arrived, arrival, Whole]
    split_ifs with hzero
    · refine iff_of_false (fun he => ?_) fun hw => hm (List.length_eq_zero_iff.mp (by rw [← hw.1, hzero]))
      have hle : (arrived net (k + 1) ms).length ≤ ms.length := length_arrived_le ms
      rw [← List.nil_append (arrived net (k + 1) ms), he, List.length_cons] at hle
      omega
    · have hle := netSend_le (net.sending k) m.length
      rw [List.singleton_append, List.cons.injEq, List.take_eq_self_iff]
      refine and_congr_left' ⟨fun hge => Nat.le_antisymm hle hge, fun he => he.ge⟩

/-- A run that comes to sending, with the prefix it adds. -/
theorem sendOverNetwork_eq {prefixShm : Option PrefixSmem} {added : List Bytes} (hadd : addedMessages prefixShm = some added)
    (hc : net.connects = true) (hr : net.earlyRecvFails = false) (klMessages : List Message) (n : Nat) :
    sendOverNetwork prefixShm klMessages n net = some
      (arrived net 0 added ++ arrived net added.length ((handed net added.length klMessages).map Message.mdata),
        added.length + (handed net added.length klMessages).length) := by
  simp [sendOverNetwork, hc, hr, hadd, sendAdded_eq, sendMessages_eq]

end LtlFuzzer.Aflgo
