import LtlFuzzer.Aflgo.SendBuffers
import LtlFuzzer.Foundation.Framing

/-! What is saved of a crash, beside what the program was given in the run. -/
namespace LtlFuzzer.Aflgo
open Foundation Framing

/-- At most a number of messages in one file, each after its size where the file is for a replay. -/
def saveKlMessagesToFile (klMessages : List Message) (replayEnabled : Bool) (maxCount : Nat) : Bytes :=
  (klMessages.take maxCount).flatMap fun m => if replayEnabled then frame 4 m.mdata else m.mdata

def keepUniqueCrash : Nat := 5000

/-- The crashes kept so far, and whether the crash at hand set new bits in their map. -/
structure CrashStore where
  uniqueCrashes : Nat
  dumbMode : Bool
  newBits : Bool

def CrashStore.keeps (store : CrashStore) : Bool := store.uniqueCrashes < keepUniqueCrash && (store.dumbMode || store.newBits)

/-- A test case, for a program that reads a file or for a server. -/
inductive TestCase where
  | common (mem : Bytes)
  | protocol (klMessages : List Message)

/-- The file of a crash, if it is kept. -/
def keepAsCrash (store : CrashStore) (messagesSent : Nat) (t : TestCase) : Option Bytes :=
  if store.keeps then match t with
    | .common mem => some mem
    | .protocol klMessages => some (saveKlMessagesToFile klMessages true messagesSent)
  else none

/-- A run: what the program gets, messages after their sizes, and the count of messages. -/
def deliver (prefixShm : Option PrefixSmem) (net : Network) (messagesSent : Nat) : TestCase → Option (Bytes × Nat)
  | .common mem => (writeToTestcase prefixShm mem).map (·, messagesSent)
  | .protocol klMessages => (sendOverNetwork prefixShm klMessages messagesSent net).map fun r => (frames 4 r.1, r.2)

/-- If the crash of a run is kept, its file is what the program got. -/
def SavedAsDelivered (store : CrashStore) (prefixShm : Option PrefixSmem) (net : Network) (messagesSent : Nat)
    (t : TestCase) : Prop :=
  ∀ out n, deliver prefixShm net messagesSent t = some (out, n) →
    ∀ file, keepAsCrash store n t = some file → file = out

/-- No prefix message arrives, every message that is handed over is taken whole, and there is
no prefix or the whole list is handed over; or as many messages arrive as are saved, and the list
begins with those of the prefix and goes on with its own. -/
def Repeats (net : Network) (added : List Bytes) (klMessages : List Message) : Prop :=
  let first := arrived net 0 added
  let sent := (handed net added.length klMessages).map Message.mdata
  let rest := arrived net added.length sent
  let texts := klMessages.map Message.mdata
  (first = [] ∧ (∀ i (hi : i < sent.length), Whole net (added.length + i) sent[i]) ∧
    (added = [] ∨ sent.length = texts.length)) ∨
  (first ≠ [] ∧ first.length + rest.length = min (added.length + sent.length) texts.length ∧
    first <+: texts ∧ rest <+: texts.drop first.length)

/-- There is no prefix, or one longer than the array; the run sends nothing and the count of
the run before is zero or the list is empty; or the list repeats what arrives. -/
def Agrees (prefixShm : Option PrefixSmem) (net : Network) (messagesSent : Nat) : TestCase → Prop
  | .common _ => ∀ shm, prefixShm = some shm → shm.arrSize = 0 ∨ arraySize < shm.arrSize.toNat
  | .protocol klMessages =>
    if net.connects = false ∨ net.earlyRecvFails = true then messagesSent = 0 ∨ klMessages = []
    else ∀ added, addedMessages prefixShm = some added → Repeats net added klMessages

private theorem prefix_append_iff {α : Type} {a b l : List α} : a ++ b <+: l ↔ a <+: l ∧ b <+: l.drop a.length := by
  constructor
  · rintro ⟨c, rfl⟩
    refine ⟨⟨b ++ c, (List.append_assoc a b c).symm⟩, ?_⟩
    rw [List.append_assoc, List.drop_left]
    exact List.prefix_append b c
  · rintro ⟨⟨c, rfl⟩, h⟩
    rw [List.drop_left] at h
    exact (List.prefix_append_right_inj a).mpr h

private theorem take_eq_append_iff {α : Type} {a b l : List α} {n : Nat} :
    l.take n = a ++ b ↔ a.length + b.length = min n l.length ∧ a <+: l ∧ b <+: l.drop a.length := by
  rw [← prefix_append_iff, ← List.length_append]
  constructor
  · intro h
    exact ⟨by rw [← h, List.length_take], h ▸ List.take_prefix n l⟩
  · rintro ⟨hlen, hpre⟩
    rw [List.prefix_iff_eq_take.mp hpre, hlen, List.take_eq_take_min]

private theorem saved_eq (klMessages : List Message) (n : Nat) :
    saveKlMessagesToFile klMessages true n = frames 4 ((klMessages.map Message.mdata).take n) := by
  rw [saveKlMessagesToFile, frames, ← List.map_take, List.flatMap_map]
  rfl

private theorem short_of_message {klMessages : List Message} {m : Bytes} (h : m ∈ klMessages.map Message.mdata) :
    m.length < 256 ^ 4 := by
  obtain ⟨msg, -, rfl⟩ := List.mem_map.mp h
  exact Nat.lt_of_le_of_lt msg.bounded (by decide)

private theorem short_of_added {prefixShm : Option PrefixSmem} {added : List Bytes} (h : addedMessages prefixShm = some added) :
    ∀ m ∈ added, m.length < 256 ^ 4 := by
  intro m hm
  cases prefixShm with
  | none =>
    cases h
    cases hm
  | some shm => exact Nat.lt_trans (length_lt_of_mem_readSlots h hm) (by decide)

private theorem take_of_sent {texts sent : List Bytes} {p : Nat} (hsent : sent <+: texts)
    (h : p = 0 ∨ sent.length = texts.length) : texts.take (p + sent.length) = sent := by
  rcases h with rfl | hlen
  · rw [Nat.zero_add]
    exact (List.prefix_iff_eq_take.mp hsent).symm
  · obtain rfl := hsent.eq_of_length hlen
    exact List.take_of_length_le (Nat.le_add_left _ _)

/-- Where nothing arrives but messages of the list. -/
private theorem take_eq_arrived_iff {net : Network} {k p : Nat} {texts sent : List Bytes} (hsent : sent <+: texts) :
    texts.take (p + sent.length) = arrived net k sent ↔
      arrived net k sent = sent ∧ (p = 0 ∨ sent.length = texts.length) := by
  constructor
  · intro h
    have hcount : p = 0 ∨ sent.length = texts.length := by
      have hle : (arrived net k sent).length ≤ sent.length := length_arrived_le sent
      have := hsent.length_le
      rw [← h, List.length_take] at hle
      omega
    exact ⟨by rw [← h, take_of_sent hsent hcount], hcount⟩
  · rintro ⟨harr, hcount⟩
    rw [harr, take_of_sent hsent hcount]

/-- The messages saved are those that arrive exactly when the list repeats them. -/
private theorem repeats_iff {net : Network} {added : List Bytes} {klMessages : List Message} :
    (klMessages.map Message.mdata).take (added.length + (handed net added.length klMessages).length) =
        arrived net 0 added ++ arrived net added.length ((handed net added.length klMessages).map Message.mdata) ↔
      Repeats net added klMessages := by
  have hsent : (handed net added.length klMessages).map Message.mdata <+: klMessages.map Message.mdata :=
    (handed_isPrefix klMessages).map Message.mdata
  have hcount : ((handed net added.length klMessages).map Message.mdata).length =
      (handed net added.length klMessages).length := List.length_map _
  have hne : ∀ m ∈ (handed net added.length klMessages).map Message.mdata, m ≠ [] := by
    intro m hm
    obtain ⟨msg, -, rfl⟩ := List.mem_map.mp hm
    exact msg.nonempty
  rw [← hcount, Repeats]
  by_cases hfirst : arrived net 0 added = []
  · rw [hfirst, List.nil_append, take_eq_arrived_iff hsent, arrived_eq_iff hne, List.length_eq_zero_iff]
    simp only [ne_eq, not_true_eq_false, true_and, false_and, or_false]
  · rw [take_eq_append_iff]
    simp only [hfirst, ne_eq, not_false_eq_true, true_and, false_and, false_or]

private theorem delivered_common {prefixShm : Option PrefixSmem} (mem : Bytes) :
    (∀ out, writeToTestcase prefixShm mem = some out → mem = out) ↔
      ∀ shm, prefixShm = some shm → shm.arrSize = 0 ∨ arraySize < shm.arrSize.toNat := by
  cases prefixShm with
  | none => simp [writeToTestcase]
  | some shm =>
    have hzero : shm.arrSize.toNat = 0 ↔ shm.arrSize = 0 := UInt32.toNat_inj (b := 0)
    simp only [writeToTestcase, addPrefixCommon, hzero, Option.some.injEq, forall_eq']
    split_ifs with hsize hlong
    · simp [hsize]
    · simp [hlong]
    · refine iff_of_false (fun h => ?_) (not_or.mpr ⟨hsize, hlong⟩)
      have hlen := congrArg List.length (h _ rfl)
      rw [List.length_append, List.length_map, List.length_range] at hlen
      exact hsize (hzero.mp (by omega))

private theorem delivered_protocol {prefixShm : Option PrefixSmem} {net : Network} {messagesSent : Nat}
    {klMessages : List Message} :
    (∀ ms n, sendOverNetwork prefixShm klMessages messagesSent net = some (ms, n) →
      saveKlMessagesToFile klMessages true n = frames 4 ms) ↔
      Agrees prefixShm net messagesSent (.protocol klMessages) := by
  have hlist : ∀ m ∈ klMessages.map Message.mdata, m.length < 256 ^ 4 := fun m hm => short_of_message hm
  have htake (n : Nat) : ∀ m ∈ (klMessages.map Message.mdata).take n, m.length < 256 ^ 4 :=
    fun m hm => hlist m (List.mem_of_mem_take hm)
  rw [Agrees]
  split_ifs with hstop
  · have hrun : sendOverNetwork prefixShm klMessages messagesSent net = some ([], messagesSent) := by
      rcases hstop with h | h <;> simp [sendOverNetwork, h]
    rw [hrun]
    simp only [Option.some.injEq, Prod.mk.injEq, and_imp, forall_apply_eq_imp_iff, forall_eq']
    rw [saved_eq, frames_inj (by decide) (htake _) (by simp), List.take_eq_nil_iff, List.map_eq_nil_iff]
  · obtain ⟨hc, hr⟩ := not_or.mp hstop
    rw [Bool.not_eq_false] at hc
    rw [Bool.not_eq_true] at hr
    cases hadd : addedMessages prefixShm with
    | none => simp [sendOverNetwork, hc, hr, hadd]
    | some added =>
      rw [sendOverNetwork_eq hadd hc hr]
      simp only [Option.some.injEq, Prod.mk.injEq, and_imp, forall_apply_eq_imp_iff, forall_eq']
      rw [saved_eq, frames_inj (by decide) (htake _) ?_, repeats_iff]
      intro m hm
      rcases List.mem_append.mp hm with hm | hm
      · exact length_lt_of_mem_arrived (short_of_added hadd) m hm
      · refine length_lt_of_mem_arrived (fun x hx => hlist x ?_) m hm
        exact ((handed_isPrefix klMessages).map Message.mdata).subset hx

private theorem savedAsDelivered_iff (store : CrashStore) (prefixShm : Option PrefixSmem) (net : Network) (messagesSent : Nat)
    (t : TestCase) : SavedAsDelivered store prefixShm net messagesSent t ↔
      (store.keeps = true → Agrees prefixShm net messagesSent t) := by
  rw [SavedAsDelivered]
  cases hk : store.keeps with
  | false => simp [keepAsCrash, hk]
  | true =>
    simp only [forall_const]
    cases t with
    | common mem =>
      rw [Agrees, ← delivered_common mem]
      simp [deliver, keepAsCrash, hk]
    | protocol klMessages =>
      rw [← delivered_protocol]
      constructor
      · intro h ms n hrun
        exact h (frames 4 ms) n (by rw [deliver, hrun]; rfl) _ (by rw [keepAsCrash, hk]; rfl)
      · intro h out n hout file hfile
        obtain ⟨⟨ms, n⟩, hrun, heq⟩ := Option.map_eq_some_iff.mp hout
        cases heq
        rw [keepAsCrash, hk] at hfile
        cases hfile
        exact h ms n hrun

/-- A crash that is kept is saved as it was delivered exactly when the two agree. -/
theorem saved_as_delivered_iff (store : CrashStore) (prefixShm : Option PrefixSmem) (net : Network) (messagesSent : Nat)
    (t : TestCase) : SavedAsDelivered store prefixShm net messagesSent t ↔
      (store.keeps = true → Agrees prefixShm net messagesSent t) :=
  savedAsDelivered_iff store prefixShm net messagesSent t

/-- A run of the server with the buffers that the messages are also copied to; none where a write goes past their ends. -/
def deliverBuffered (prefixShm : Option PrefixSmem) (net : Network) (stack : Stack) (messagesSent : Nat) (klMessages : List Message) :
    Option (Bytes × Nat) :=
  match sendWithBuffers prefixShm klMessages messagesSent net stack with
  | .ok r => r.map fun r => (frames 4 r.1, r.2)
  | .error _ => none

/-- The same where the buffers hold the messages that are handed to the socket. -/
theorem saved_within_buffers_iff (store : CrashStore) {prefixShm : Option PrefixSmem} {net : Network} {stack : Stack} (messagesSent : Nat)
    {klMessages : List Message} (hfit : net.connects = true → net.earlyRecvFails = false → ∀ added, addedMessages prefixShm = some added →
      stack.Holds added.length (handed net added.length klMessages)) :
    (∀ out n, deliverBuffered prefixShm net stack messagesSent klMessages = some (out, n) →
      ∀ file, keepAsCrash store n (.protocol klMessages) = some file → file = out) ↔
      (store.keeps = true → Agrees prefixShm net messagesSent (.protocol klMessages)) := by
  obtain ⟨r, hr⟩ := (sendWithBuffers_within_iff prefixShm klMessages messagesSent net stack).mpr hfit
  have hrun : deliverBuffered prefixShm net stack messagesSent klMessages = deliver prefixShm net messagesSent (.protocol klMessages) := by
    rw [deliverBuffered, hr, deliver, ← sendWithBuffers_eq_ok hr]
  rw [hrun]
  exact savedAsDelivered_iff store prefixShm net messagesSent (.protocol klMessages)

/-- A network that takes every message whole. -/
def calm : Network := ⟨true, false, fun _ => ⟨true, []⟩, fun _ => false⟩

/-- The first crash, in new bits. -/
def firstCrash : CrashStore := ⟨0, false, true⟩

/-- A list of one message. -/
def oneRequest : List Message := [⟨[66], by decide, by decide⟩]

/-- The prefix is delivered and not saved, in either mode. -/
theorem crash_saved_without_added :
    deliver (some oneMessage) calm 0 (.common [66]) = some ([65, 66], 0) ∧
      ¬ SavedAsDelivered firstCrash (some oneMessage) calm 0 (.common [66]) ∧
      deliver (some oneMessage) calm 0 (.protocol oneRequest) = some ([1, 0, 0, 0, 65, 1, 0, 0, 0, 66], 2) ∧
      ¬ SavedAsDelivered firstCrash (some oneMessage) calm 0 (.protocol oneRequest) := by
  have hcommon : deliver (some oneMessage) calm 0 (.common [66]) = some ([65, 66], 0) := by decide
  have hprotocol : deliver (some oneMessage) calm 0 (.protocol oneRequest) = some ([1, 0, 0, 0, 65, 1, 0, 0, 0, 66], 2) := by
    decide
  refine ⟨hcommon, fun h => ?_, hprotocol, fun h => ?_⟩
  · exact absurd (h _ _ hcommon [66] (by decide)) (by decide)
  · exact absurd (h _ _ hprotocol [1, 0, 0, 0, 66] (by decide)) (by decide)

end LtlFuzzer.Aflgo
