import LtlFuzzer.Aflgo.Delivery
import LtlFuzzer.Foundation.Descriptors

/-! The two ways a test case gets into the file that the program reads: whole, and with a
gap while it is trimmed. -/
namespace LtlFuzzer.Aflgo
open Foundation

/-- The descriptor that is written to: of a new file in place of the old, or the one that
is open, from its start. -/
def openTestcase (outFile : Bool) (outFd : Descriptor UInt8) : Descriptor UInt8 :=
  if outFile then Descriptor.empty else outFd.rewind

def ckWrite (fd : Descriptor UInt8) (mem : Bytes) : Descriptor UInt8 := fd.write 0 mem

/-- A file that stays open is cut where the test case ends. -/
def closeTestcase (outFile : Bool) (fd : Descriptor UInt8) (len : Nat) : Descriptor UInt8 :=
  if outFile then fd else (fd.truncate 0 len).rewind

/-- The writes of `write_to_testcase`, on the bytes it comes to. -/
def writeWhole (outFile : Bool) (outFd : Descriptor UInt8) (mem : Bytes) : Descriptor UInt8 :=
  closeTestcase outFile (ckWrite (openTestcase outFile outFd) mem) mem.length

/-- The file after `write_to_testcase`. -/
def testcaseFile (prefixShm : Option PrefixSmem) (outFile : Bool) (outFd : Descriptor UInt8) (mem : Bytes) :
    Option (Descriptor UInt8) := (writeToTestcase prefixShm mem).map (writeWhole outFile outFd)

def writeWithGap (outFile : Bool) (outFd : Descriptor UInt8) (mem : Bytes) (skipAt skipLen : Nat) : Descriptor UInt8 :=
  let tailLen := mem.length - skipAt - skipLen
  let fd := openTestcase outFile outFd
  let fd := if skipAt = 0 then fd else ckWrite fd (mem.take skipAt)
  let fd := if tailLen = 0 then fd else ckWrite fd ((mem.drop (skipAt + skipLen)).take tailLen)
  closeTestcase outFile fd (mem.length - skipLen)

/-- The buffer with the bytes of the gap removed. -/
def withoutGap (mem : Bytes) (skipAt skipLen : Nat) : Bytes := mem.take skipAt ++ mem.drop (skipAt + skipLen)

/-- The trimming run reads what an ordinary run of the trimmed buffer reads, whatever the
file held before each. -/
def DeliversSame (shm : PrefixSmem) (outFile : Bool) (mem : Bytes) (skipAt skipLen : Nat) : Prop :=
  ∀ outFd outFd', (testcaseFile (some shm) outFile outFd (withoutGap mem skipAt skipLen)).map Descriptor.data =
    some (writeWithGap outFile outFd' mem skipAt skipLen).data

variable {outFile : Bool} {fd : Descriptor UInt8} {bs : Bytes}

/-- What the program finds in the file before the first write. -/
def heldBefore (outFile : Bool) (outFd : Descriptor UInt8) : Bytes := if outFile then [] else outFd.data

private theorem wrote_openTestcase (outFile : Bool) (outFd : Descriptor UInt8) :
    Descriptor.Wrote (heldBefore outFile outFd) [] (openTestcase outFile outFd) := by
  cases outFile
  · exact Descriptor.wrote_rewind outFd
  · exact Descriptor.wrote_empty

private theorem closeTestcase_data {outFd : Descriptor UInt8} (h : Descriptor.Wrote (heldBefore outFile outFd) bs fd) :
    (closeTestcase outFile fd bs.length).data = bs := by
  cases outFile
  · exact h.truncate_data 0
  · exact Descriptor.Wrote.data_of_empty h

/-- The file holds the bytes, and nothing of what was there before. -/
theorem writeWhole_data (outFile : Bool) (outFd : Descriptor UInt8) (mem : Bytes) :
    (writeWhole outFile outFd mem).data = mem :=
  closeTestcase_data ((wrote_openTestcase outFile outFd).write 0 mem)

theorem testcaseFile_data (prefixShm : Option PrefixSmem) (outFile : Bool) (outFd : Descriptor UInt8) (mem : Bytes) :
    (testcaseFile prefixShm outFile outFd mem).map Descriptor.data = writeToTestcase prefixShm mem := by
  rw [testcaseFile, Option.map_map]
  have hdata : Descriptor.data ∘ writeWhole outFile outFd = id := funext (writeWhole_data outFile outFd)
  rw [hdata, Option.map_id_fun, id_eq]

/-- A write that is left out when there is nothing to write. -/
private theorem wrote_unless_none {outFd : Descriptor UInt8} (h : Descriptor.Wrote (heldBefore outFile outFd) bs fd)
    {n : Nat} {mem : Bytes} (hn : n = mem.length) :
    Descriptor.Wrote (heldBefore outFile outFd) (bs ++ mem) (if n = 0 then fd else ckWrite fd mem) := by
  split_ifs with hzero
  · have hnil : mem = [] := List.length_eq_zero_iff.mp (hn.symm.trans hzero)
    rwa [hnil, List.append_nil]
  · exact h.write 0 mem

/-- A run with a gap reads the buffer without it, and no prefix. -/
theorem writeWithGap_data (outFile : Bool) (outFd : Descriptor UInt8) {mem : Bytes} {skipAt skipLen : Nat}
    (h : skipAt + skipLen ≤ mem.length) : (writeWithGap outFile outFd mem skipAt skipLen).data = withoutGap mem skipAt skipLen := by
  have hhead : skipAt = (mem.take skipAt).length := (List.length_take_of_le (by omega)).symm
  have htail : mem.length - skipAt - skipLen = ((mem.drop (skipAt + skipLen)).take (mem.length - skipAt - skipLen)).length := by
    simp
    omega
  have hall : (mem.drop (skipAt + skipLen)).take (mem.length - skipAt - skipLen) = mem.drop (skipAt + skipLen) :=
    List.take_of_length_le (by simp; omega)
  have hlen : mem.length - skipLen = (withoutGap mem skipAt skipLen).length := by
    simp [withoutGap]
    omega
  have hwrote := wrote_unless_none (wrote_unless_none (wrote_openTestcase outFile outFd) hhead) htail
  rw [List.nil_append, hall] at hwrote
  rw [writeWithGap, hlen]
  simp only [hall]
  exact closeTestcase_data hwrote

/-- A prefix makes the content longer. -/
private theorem addPrefixCommon_eq_self_iff (mem : Bytes) (shm : PrefixSmem) :
    addPrefixCommon mem shm = some mem ↔ shm.arrSize = 0 := by
  have hzero : shm.arrSize.toNat = 0 ↔ shm.arrSize = 0 := UInt32.toNat_inj (b := 0)
  rw [addPrefixCommon, ← hzero]
  split_ifs with hnone hlong
  · exact iff_of_true rfl hnone
  · exact iff_of_false (by simp) hnone
  · apply iff_of_false ?_ hnone
    intro he
    apply hnone
    simpa using congrArg List.length (Option.some.inj he)

/-- Trimming runs and ordinary runs read the same exactly when the region holds no prefix. -/
theorem gap_delivers_same_iff (shm : PrefixSmem) (outFile : Bool) {mem : Bytes} {skipAt skipLen : Nat}
    (h : skipAt + skipLen ≤ mem.length) : DeliversSame shm outFile mem skipAt skipLen ↔ shm.arrSize = 0 := by
  have hfiles (outFd outFd' : Descriptor UInt8) :
      (testcaseFile (some shm) outFile outFd (withoutGap mem skipAt skipLen)).map Descriptor.data =
        some (writeWithGap outFile outFd' mem skipAt skipLen).data ↔ shm.arrSize = 0 := by
    rw [testcaseFile_data, writeWithGap_data outFile outFd' h]
    exact addPrefixCommon_eq_self_iff (withoutGap mem skipAt skipLen) shm
  constructor
  · intro hsame
    exact (hfiles Descriptor.empty Descriptor.empty).mp (hsame _ _)
  · intro hnone outFd outFd'
    exact (hfiles outFd outFd').mpr hnone

/-- A region with a prefix of one byte. -/
def onePrefix : PrefixSmem := ⟨fun _ => 1, 1⟩

/-- With the prefix 1 in the region and the second byte of 2, 3 removed, an ordinary run
reads 1, 2 and the trimming run reads 2. -/
theorem gap_drops_added :
    (testcaseFile (some onePrefix) true Descriptor.empty (withoutGap [2, 3] 1 1)).map Descriptor.data = some [1, 2] ∧
      (writeWithGap true Descriptor.empty [2, 3] 1 1).data = [2] ∧ ¬ DeliversSame onePrefix true [2, 3] 1 1 := by
  have hwhole : (testcaseFile (some onePrefix) true Descriptor.empty (withoutGap [2, 3] 1 1)).map Descriptor.data =
      some [1, 2] := by
    rw [testcaseFile_data]
    rfl
  have hgap : (writeWithGap true Descriptor.empty [2, 3] 1 1).data = [2] := writeWithGap_data true Descriptor.empty (by decide)
  refine ⟨hwhole, hgap, fun hsame => ?_⟩
  have hboth := hsame Descriptor.empty Descriptor.empty
  rw [hwhole, hgap] at hboth
  cases hboth

theorem gap_delivers_same_iff_two : DeliversSame onePrefix false [2, 3] 1 1 ↔ onePrefix.arrSize = 0 :=
  gap_delivers_same_iff onePrefix false (by decide)

end LtlFuzzer.Aflgo
