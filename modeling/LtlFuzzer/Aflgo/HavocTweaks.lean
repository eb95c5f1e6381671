import LtlFuzzer.Aflgo.CommonPrefix
import LtlFuzzer.Foundation.Words

/-! The random tweaks of the havoc stage on a block of memory, and the edits of the test case that they come to. -/
namespace LtlFuzzer.Aflgo
open Foundation Draws

def havocBlkSmall : Nat := 32

def havocBlkMedium : Nat := 128

def havocBlkLarge : Nat := 1500

def havocBlkXl : Nat := 32768

def arithMax : Nat := 35

def interesting8 : List Int := [-128, -1, 0, 1, 16, 32, 64, 100, 127]

def interesting16 : List Int := interesting8 ++ [-32768, -129, 128, 255, 256, 512, 1000, 1024, 4096, 32767]

def interesting32 : List Int :=
  interesting16 ++ [-2147483648, -100663046, -32769, 32768, 65535, 65536, 100663045, 2147483647]

def interestTable (w : Nat) : List Int := if w = 1 then interesting8 else if w = 2 then interesting16 else interesting32

/-- SWAP16 and SWAP32. -/
def swap (w v : Nat) : Nat := wordAt (wordBytes w v).reverse

/-- A signed number, cut to a word. -/
def word (w : Nat) (n : Int) : Nat := (n % (2 ^ (8 * w) : Nat)).toNat

/-- What the tweaks depend on: the age of the campaign and the dictionaries. Fuzzing is in its first cycle at least. -/
structure HavocContext where
  queueCycle : Nat
  runOver10m : Bool
  extras : List Bytes
  aExtras : List Bytes
  cycle_pos : 0 < queueCycle

/-- The block of the buffer, of which so many bytes are the test case. -/
structure HavocBuf where
  outBuf : Bytes
  tempLen : Nat

def HavocBuf.testcase (b : HavocBuf) : Bytes := b.outBuf.take b.tempLen

/-- Uninitialized; callers write every byte. -/
def ckAllocNozero (size : Nat) : Bytes := List.replicate size 0

section
variable (c : HavocContext)

/-- The switch of `choose_block_len`: min_value and max_value. -/
def blockLenRange : Draws (Nat × Nat) := do
  match ← draw (if c.runOver10m then min c.queueCycle 3 else 1) with
  | 0 => pure (1, havocBlkSmall)
  | 1 => pure (havocBlkSmall, havocBlkMedium)
  | _ => do
    if (← draw 10) ≠ 0 then pure (havocBlkMedium, havocBlkLarge) else pure (havocBlkLarge, havocBlkXl)

def chooseBlockLen (limit : Nat) : Draws Nat := do
  let range ← blockLenRange c
  let minValue := if limit ≤ range.1 then 1 else range.1
  let more ← draw (min range.2 limit - minValue + 1)
  pure (minValue + more)

/-- A word of the test case, drawn and written again. -/
def poke (w : Nat) (new : Bytes → Draws Bytes) (b : HavocBuf) : Draws HavocBuf := do
  let pos ← draw (b.tempLen - (w - 1))
  let old ← readBlock b.outBuf pos w
  let bs ← new old
  let outBuf ← writeBlock b.outBuf pos bs
  pure { b with outBuf := outBuf }

def flipBit (b : HavocBuf) : Draws HavocBuf := do
  let bit ← draw (b.tempLen <<< 3)
  let old ← readBlock b.outBuf (bit >>> 3) 1
  let outBuf ← writeBlock b.outBuf (bit >>> 3) (old.map (· ^^^ (128 >>> UInt8.ofNat (bit &&& 7))))
  pure { b with outBuf := outBuf }

def setByte (b : HavocBuf) : Draws HavocBuf :=
  poke 1 (fun _ => do
    let n ← pick interesting8
    pure (wordBytes 1 (word 1 n))) b

/-- Cases 2 and 3. -/
def setWord (w : Nat) (table : List Int) (b : HavocBuf) : Draws HavocBuf :=
  if b.tempLen < w then pure b
  else do
    let plain ← draw 2
    poke w (fun _ => do
      let n ← pick table
      pure (wordBytes w (if plain ≠ 0 then word w n else swap w (word w n)))) b

/-- A word plus or minus a number, not yet cut. -/
def shifted (w : Nat) (up : Bool) (v num : Nat) : Nat := if up then v + num else v + 2 ^ (8 * w) - num

/-- Cases 4 and 5. -/
def arithByte (up : Bool) (b : HavocBuf) : Draws HavocBuf :=
  poke 1 (fun old => do
    let d ← draw arithMax
    pure (wordBytes 1 (shifted 1 up (wordAt old) (1 + d)))) b

/-- Cases 6 to 9. -/
def arithWord (w : Nat) (up : Bool) (b : HavocBuf) : Draws HavocBuf :=
  if b.tempLen < w then pure b
  else do
    let plain ← draw 2
    poke w (fun old => do
      let d ← draw arithMax
      pure (wordBytes w (if plain ≠ 0 then shifted w up (wordAt old) (1 + d)
        else swap w (shifted w up (swap w (wordAt old)) (1 + d))))) b

def randomByte (b : HavocBuf) : Draws HavocBuf :=
  poke 1 (fun old => do
    let d ← draw 255
    pure (old.map (· ^^^ UInt8.ofNat (1 + d)))) b

def deleteBytes (b : HavocBuf) : Draws HavocBuf :=
  if b.tempLen < 2 then pure b
  else do
    let delLen ← chooseBlockLen c (b.tempLen - 1)
    let delFrom ← draw (b.tempLen - delLen + 1)
    let tail ← readBlock b.outBuf (delFrom + delLen) (b.tempLen - delFrom - delLen)
    let outBuf ← writeBlock b.outBuf delFrom tail
    pure ⟨outBuf, b.tempLen - delLen⟩

/-- A new block with head, inserted part and tail. -/
def insertBlock (b : HavocBuf) (pos : Nat) (block : Bytes) : Draws HavocBuf := do
  let newBuf := ckAllocNozero (b.tempLen + block.length)
  let head ← readBlock b.outBuf 0 pos
  let newBuf ← writeBlock newBuf 0 head
  let newBuf ← writeBlock newBuf pos block
  let tail ← readBlock b.outBuf pos (b.tempLen - pos)
  let newBuf ← writeBlock newBuf (pos + block.length) tail
  pure ⟨newBuf, b.tempLen + block.length⟩

/-- A drawn byte, or one of the test case. -/
def fillByte (b : HavocBuf) : Draws UInt8 := do
  if (← draw 2) ≠ 0 then
    let v ← draw 256
    pure (UInt8.ofNat v)
  else
    let pos ← draw b.tempLen
    let bs ← readBlock b.outBuf pos 1
    pure (bs.headD 0)

def cloneBytes (b : HavocBuf) : Draws HavocBuf :=
  if b.tempLen + havocBlkXl < maxFile then do
    let actuallyClone ← draw 4
    if actuallyClone ≠ 0 then
      let cloneLen ← chooseBlockLen c b.tempLen
      let cloneFrom ← draw (b.tempLen - cloneLen + 1)
      let cloneTo ← draw b.tempLen
      let block ← readBlock b.outBuf cloneFrom cloneLen
      insertBlock b cloneTo block
    else
      let cloneLen ← chooseBlockLen c havocBlkXl
      let cloneTo ← draw b.tempLen
      let byte ← fillByte b
      insertBlock b cloneTo (List.replicate cloneLen byte)
  else pure b

def overwriteBytes (b : HavocBuf) : Draws HavocBuf :=
  if b.tempLen < 2 then pure b
  else do
    let copyLen ← chooseBlockLen c (b.tempLen - 1)
    let copyFrom ← draw (b.tempLen - copyLen + 1)
    let copyTo ← draw (b.tempLen - copyLen + 1)
    if (← draw 4) ≠ 0 then
      if copyFrom ≠ copyTo then
        let block ← readBlock b.outBuf copyFrom copyLen
        let outBuf ← writeBlock b.outBuf copyTo block
        pure { b with outBuf := outBuf }
      else pure b
    else
      let byte ← fillByte b
      let outBuf ← writeBlock b.outBuf copyTo (List.replicate copyLen byte)
      pure { b with outBuf := outBuf }

/-- The extra that the two last cases use; a draw between the dictionaries where both have one. -/
def pickExtra : Draws Bytes :=
  if c.extras = [] then pick c.aExtras
  else if c.aExtras = [] then pick c.extras
  else do if (← draw 2) ≠ 0 then pick c.aExtras else pick c.extras

def overwriteExtra (b : HavocBuf) : Draws HavocBuf :=
  if c.extras.length + c.aExtras.length = 0 then pure b
  else do
    let extra ← pickExtra c
    if b.tempLen < extra.length then pure b
    else
      let insertAt ← draw (b.tempLen - extra.length + 1)
      let outBuf ← writeBlock b.outBuf insertAt extra
      pure { b with outBuf := outBuf }

def insertExtra (b : HavocBuf) : Draws HavocBuf :=
  if c.extras.length + c.aExtras.length = 0 then pure b
  else do
    let insertAt ← draw (b.tempLen + 1)
    let extra ← pickExtra c
    if maxFile ≤ b.tempLen + extra.length then pure b
    else insertBlock b insertAt extra

/-- One of the stacked tweaks. -/
def tweak (b : HavocBuf) : Draws HavocBuf := do
  match ← draw (15 + (if c.extras.length + c.aExtras.length ≠ 0 then 2 else 0)) with
  | 0 => flipBit b
  | 1 => setByte b
  | 2 => setWord 2 interesting16 b
  | 3 => setWord 4 interesting32 b
  | 4 => arithByte false b
  | 5 => arithByte true b
  | 6 => arithWord 2 false b
  | 7 => arithWord 2 true b
  | 8 => arithWord 4 false b
  | 9 => arithWord 4 true b
  | 10 => randomByte b
  | 11 => deleteBytes c b
  | 12 => deleteBytes c b
  | 13 => cloneBytes c b
  | 14 => overwriteBytes c b
  | 15 => overwriteExtra c b
  | _ => insertExtra c b

end

/-- What a tweak may make of a word: one bit flipped, an interesting value, a number from 1 to 35 added or subtracted, in
either order of the bytes; a byte may become any other. -/
inductive Poked (old : Bytes) : Bytes → Prop where
  | bit (k : Nat) (h1 : old.length = 1) (hk : k < 8) : Poked old (old.map (· ^^^ (128 >>> UInt8.ofNat k)))
  | interesting (w : Nat) (swapped : Bool) (n : Int) (hw : w ∈ [1, 2, 4]) (hlen : old.length = w) (hn : n ∈ interestTable w) :
    Poked old (wordBytes w (if swapped then swap w (word w n) else word w n))
  | arith (w : Nat) (swapped up : Bool) (num : Nat) (hw : w ∈ [1, 2, 4]) (hlen : old.length = w) (h1 : 1 ≤ num) (hmax : num ≤ arithMax) :
    Poked old (wordBytes w (if swapped then swap w (shifted w up (swap w (wordAt old)) num) else shifted w up (wordAt old) num))
  | random (d : Nat) (h1 : old.length = 1) (hd : 1 ≤ d) (hmax : d ≤ 255) : Poked old (old.map (· ^^^ UInt8.ofNat d))

/-- A block that tweaks put into a test case: a part of it, or one byte again and again. -/
def Chunk (m block : Bytes) : Prop :=
  block.length ≤ havocBlkXl ∧ (block <:+: m ∨ ∃ n byte, block = List.replicate n byte)

/-- What a tweak may do to a test case: nothing where it does not fit, change a word, delete a block but not all, put a
block in or over the bytes there, or do so with an entry of a dictionary. -/
inductive Edit (dict : List Bytes) (m : Bytes) : Bytes → Prop where
  | keep : Edit dict m m
  | poke (pos w : Nat) (bs : Bytes) (hin : pos + w ≤ m.length) (h : Poked ((m.drop pos).take w) bs) :
    Edit dict m (Draws.overwrite m pos bs)
  | delete (pos len : Nat) (hin : pos + len ≤ m.length) (hrest : len < m.length) (hlen : len ≤ havocBlkXl) :
    Edit dict m (m.take pos ++ m.drop (pos + len))
  | insert (pos : Nat) (block : Bytes) (hin : pos ≤ m.length) (h : Chunk m block ∨ block ∈ dict) :
    Edit dict m (m.take pos ++ block ++ m.drop pos)
  | overwrite (pos : Nat) (block : Bytes) (hin : pos + block.length ≤ m.length) (h : Chunk m block ∨ block ∈ dict) :
    Edit dict m (Draws.overwrite m pos block)

/-- The test case is there, within its block and no longer than a bound. -/
structure HavocBuf.Fits (bound : Nat) (b : HavocBuf) : Prop where
  pos : 0 < b.tempLen
  block : b.tempLen ≤ b.outBuf.length
  bound : b.tempLen ≤ bound

/-- A buffer that fits again, after an edit. -/
def HavocBuf.Edited (bound : Nat) (dict : List Bytes) (b b' : HavocBuf) : Prop :=
  b'.Fits bound ∧ Edit dict b.testcase b'.testcase

variable {c : HavocContext} {b : HavocBuf} {bound : Nat} {dict : List Bytes}

theorem Poked.length_eq {old new : Bytes} (h : Poked old new) : new.length = old.length := by
  cases h with
  | bit k h1 hk => exact List.length_map _
  | interesting w swapped n hw hlen hn => exact (length_wordBytes _ _).trans hlen.symm
  | arith w swapped up num hw hlen h1 hmax => exact (length_wordBytes _ _).trans hlen.symm
  | random d h1 hd hmax => exact List.length_map _

theorem HavocBuf.Fits.length_testcase (hb : b.Fits bound) : b.testcase.length = b.tempLen :=
  List.length_take_of_le hb.block

theorem HavocBuf.Fits.keep (hb : b.Fits bound) : b.Edited bound dict b := ⟨hb, .keep⟩

/-- Reads in the test case are reads of it. -/
theorem HavocBuf.read_testcase {pos len : Nat} (h : pos + len ≤ b.tempLen) :
    (b.outBuf.drop pos).take len = (b.testcase.drop pos).take len := by
  rw [HavocBuf.testcase, List.drop_take, List.take_take, Nat.min_eq_left (by omega)]

/-- A write into the test case. -/
theorem HavocBuf.Fits.writeBlock {bs : Bytes} {pos : Nat} (hb : b.Fits bound) (h : pos + bs.length ≤ b.tempLen)
    (hedit : Edit dict b.testcase (Draws.overwrite b.testcase pos bs)) :
    Safe (do
      let outBuf ← Draws.writeBlock b.outBuf pos bs
      pure { b with outBuf := outBuf }) (b.Edited bound dict) := by
  refine (safe_writeBlock (h.trans hb.block)).bind ?_
  rintro _ rfl
  refine Safe.pure ⟨⟨hb.pos, ?_, hb.bound⟩, ?_⟩
  · rw [length_overwrite (h.trans hb.block)]
    exact hb.block
  · change Edit dict b.testcase ((Draws.overwrite b.outBuf pos bs).take b.tempLen)
    rw [take_overwrite h]
    exact hedit

private theorem blockLenRange_safe :
    Safe (blockLenRange c) fun range => 0 < range.1 ∧ range.1 ≤ range.2 ∧ range.2 ≤ havocBlkXl := by
  have hrlim : 0 < if c.runOver10m then min c.queueCycle 3 else 1 := by
    have := c.cycle_pos
    split_ifs <;> omega
  rw [blockLenRange]
  refine (safe_draw hrlim).bind fun n _ => ?_
  split
  · exact Safe.pure (by decide)
  · exact Safe.pure (by decide)
  · refine (safe_draw (by decide)).bind fun k _ => ?_
    exact Safe.ite (fun _ => Safe.pure (by decide)) fun _ => Safe.pure (by decide)

/-- Doesn't return zero, nor more than there is. -/
theorem chooseBlockLen_safe {limit : Nat} (h : 0 < limit) :
    Safe (chooseBlockLen c limit) fun n => 0 < n ∧ n ≤ limit ∧ n ≤ havocBlkXl := by
  rw [chooseBlockLen]
  refine blockLenRange_safe.bind fun range hrange => ?_
  refine (safe_draw (Nat.succ_pos _)).bind fun more hmore => Safe.pure ?_
  split_ifs at hmore ⊢ with hlimit <;> omega

theorem poke_safe {w : Nat} {new : Bytes → Draws Bytes} (hb : b.Fits bound) (hw : 0 < w) (hle : w ≤ b.tempLen)
    (hnew : ∀ old, old.length = w → Safe (new old) (Poked old)) : Safe (poke w new b) (b.Edited bound dict) := by
  have hblock := hb.block
  have hlen := hb.length_testcase
  rw [poke]
  refine (safe_draw (by omega)).bind fun pos hpos => (safe_readBlock (by omega)).bind ?_
  rintro _ rfl
  rw [HavocBuf.read_testcase (by omega)]
  have hold : ((b.testcase.drop pos).take w).length = w := by
    rw [List.length_take, List.length_drop]
    omega
  refine (hnew _ hold).bind fun bs hbs => hb.writeBlock (by rw [hbs.length_eq]; omega) ?_
  exact .poke pos w bs (by omega) hbs

theorem insertBlock_safe {pos : Nat} {block : Bytes} (hb : b.Fits bound) (hpos : pos ≤ b.tempLen)
    (hbound : b.tempLen + block.length ≤ bound) (hblk : Chunk b.testcase block ∨ block ∈ dict) :
    Safe (insertBlock b pos block) (b.Edited bound dict) := by
  have hblock := hb.block
  have hlen := hb.length_testcase
  have hhead : (b.outBuf.drop 0).take pos = b.testcase.take pos := by
    rw [List.drop_zero, HavocBuf.testcase, List.take_take, Nat.min_eq_left hpos]
  have htail : (b.outBuf.drop pos).take (b.tempLen - pos) = b.testcase.drop pos := List.drop_take.symm
  have hempty : Filled (b.tempLen + block.length) [] (ckAllocNozero (b.tempLen + block.length)) :=
    ⟨List.length_replicate, rfl⟩
  rw [insertBlock]
  refine (safe_readBlock (by omega)).bind ?_
  rintro _ rfl
  rw [hhead]
  refine (hempty.writeBlock rfl (by simp; omega)).bind fun newBuf hnew => ?_
  refine (hnew.writeBlock (by simp; omega) (by simp; omega)).bind fun newBuf hnew => ?_
  refine (safe_readBlock (by omega)).bind ?_
  rintro _ rfl
  rw [htail]
  refine (hnew.writeBlock (by simp; omega) (by simp; omega)).bind fun newBuf hnew => Safe.pure ?_
  have hall := hnew.eq (by simp; omega)
  refine ⟨⟨Nat.add_pos_left hb.pos _, hnew.size.ge, hbound⟩, ?_⟩
  have htest : HavocBuf.testcase ⟨newBuf, b.tempLen + block.length⟩ = b.testcase.take pos ++ block ++ b.testcase.drop pos := by
    rw [HavocBuf.testcase, List.take_of_length_le hnew.size.le, hall, List.nil_append]
  rw [htest]
  exact .insert pos block (by omega) hblk

private theorem flipBit_safe (hb : b.Fits bound) : Safe (flipBit b) (b.Edited bound dict) := by
  have hpos := hb.pos
  have hblock := hb.block
  have hlen := hb.length_testcase
  rw [flipBit]
  refine (safe_draw (by rw [Nat.shiftLeft_eq]; omega)).bind fun bit hbit => ?_
  have hbyte : bit >>> 3 < b.tempLen := by
    rw [Nat.shiftLeft_eq] at hbit
    rw [Nat.shiftRight_eq_div_pow]
    omega
  have hone : ((b.testcase.drop (bit >>> 3)).take 1).length = 1 := by
    rw [List.length_take, List.length_drop]
    omega
  refine (safe_readBlock (by omega)).bind ?_
  rintro _ rfl
  rw [HavocBuf.read_testcase (by omega)]
  refine hb.writeBlock (by rw [List.length_map]; omega) ?_
  exact .poke (bit >>> 3) 1 _ (by omega) (.bit (bit &&& 7) hone (Nat.lt_succ_of_le Nat.and_le_right))

private theorem setWord_safe (hb : b.Fits bound) {w : Nat} (hw : w ∈ [2, 4]) : Safe (setWord w (interestTable w) b) (b.Edited bound dict) := by
  have hw' : w = 2 ∨ w = 4 := by simpa using hw
  have htable : interestTable w ≠ [] := by rcases hw' with rfl | rfl <;> decide
  refine Safe.ite (fun _ => Safe.pure hb.keep) fun hle => ?_
  refine (safe_draw (by decide)).bind fun plain _ => poke_safe hb (by omega) (by omega) fun old hold => ?_
  refine (safe_pick htable).bind fun n hn => Safe.pure ?_
  have := Poked.interesting w (!decide (plain ≠ 0)) n (List.mem_cons_of_mem 1 hw) hold hn
  split_ifs with hplain <;> simpa [hplain] using this

private theorem setByte_safe (hb : b.Fits bound) : Safe (setByte b) (b.Edited bound dict) := by
  refine poke_safe hb Nat.one_pos hb.pos fun old hold => ?_
  exact (safe_pick (by decide)).bind fun n hn => Safe.pure (.interesting 1 false n (by decide) hold hn)

private theorem arithByte_safe (hb : b.Fits bound) (up : Bool) : Safe (arithByte up b) (b.Edited bound dict) := by
  refine poke_safe hb Nat.one_pos hb.pos fun old hold => ?_
  exact (safe_draw (by decide)).bind fun d hd => Safe.pure (.arith 1 false up (1 + d) (by decide) hold (by omega) (by omega))

private theorem arithWord_safe (hb : b.Fits bound) {w : Nat} (hw : w ∈ [2, 4]) (up : Bool) :
    Safe (arithWord w up b) (b.Edited bound dict) := by
  have hw' : w = 2 ∨ w = 4 := by simpa using hw
  refine Safe.ite (fun _ => Safe.pure hb.keep) fun hle => ?_
  refine (safe_draw (by decide)).bind fun plain _ => poke_safe hb (by omega) (by omega) fun old hold => ?_
  refine (safe_draw (by decide)).bind fun d hd => Safe.pure ?_
  have := Poked.arith w (!decide (plain ≠ 0)) up (1 + d) (List.mem_cons_of_mem 1 hw) hold (by omega) (by omega)
  split_ifs with hplain <;> simpa [hplain] using this

private theorem randomByte_safe (hb : b.Fits bound) : Safe (randomByte b) (b.Edited bound dict) := by
  refine poke_safe hb Nat.one_pos hb.pos fun old hold => ?_
  exact (safe_draw (by decide)).bind fun d hd => Safe.pure (.random (1 + d) hold (by omega) (by omega))

private theorem deleteBytes_safe (hb : b.Fits bound) : Safe (deleteBytes c b) (b.Edited bound dict) := by
  have hblock := hb.block
  have hlen := hb.length_testcase
  refine Safe.ite (fun _ => Safe.pure hb.keep) fun hle => ?_
  refine (chooseBlockLen_safe (by omega)).bind fun delLen hdel => ?_
  refine (safe_draw (by omega)).bind fun delFrom hfrom => ?_
  refine (safe_readBlock (by omega)).bind ?_
  rintro _ rfl
  have htail : (b.outBuf.drop (delFrom + delLen)).take (b.tempLen - delFrom - delLen) = b.testcase.drop (delFrom + delLen) := by
    rw [HavocBuf.testcase, List.drop_take]
    congr 1
    omega
  have hfits : delFrom + (b.testcase.drop (delFrom + delLen)).length = b.tempLen - delLen := by
    rw [List.length_drop]
    omega
  rw [htail]
  refine (safe_writeBlock (by omega)).bind ?_
  rintro _ rfl
  refine Safe.pure ⟨⟨by dsimp only; omega, ?_, by have := hb.bound; dsimp only; omega⟩, ?_⟩
  · dsimp only
    rw [length_overwrite (by omega)]
    omega
  · have htest : HavocBuf.testcase ⟨Draws.overwrite b.outBuf delFrom (b.testcase.drop (delFrom + delLen)), b.tempLen - delLen⟩ =
        b.testcase.take delFrom ++ b.testcase.drop (delFrom + delLen) := by
      rw [HavocBuf.testcase, ← hfits, take_overwrite_end (by omega), HavocBuf.testcase, List.take_take, Nat.min_eq_left (by omega)]
    rw [htest]
    exact .delete delFrom delLen (by omega) (by omega) hdel.2.2

private theorem fillByte_safe (hb : b.Fits bound) : Safe (fillByte b) fun _ => True := by
  have hblock := hb.block
  refine (safe_draw (by decide)).bind fun which _ => Safe.ite (fun _ => ?_) fun _ => ?_
  · exact (safe_draw (by decide)).bind fun v _ => Safe.pure trivial
  · refine (safe_draw hb.pos).bind fun pos hpos => ?_
    exact (safe_readBlock (by omega)).bind fun bs _ => Safe.pure trivial

/-- A part of the test case. -/
private theorem chunk_part (m : Bytes) {pos len : Nat} (hlen : len ≤ havocBlkXl) : Chunk m ((m.drop pos).take len) :=
  ⟨(List.length_take_le _ _).trans hlen, .inl ((List.take_prefix len _).isInfix.trans (List.drop_suffix pos m).isInfix)⟩

private theorem chunk_replicate (m : Bytes) {len : Nat} (hlen : len ≤ havocBlkXl) (byte : UInt8) : Chunk m (List.replicate len byte) :=
  ⟨List.length_replicate.le.trans hlen, .inr ⟨len, byte, rfl⟩⟩

private theorem cloneBytes_safe (hb : b.Fits bound) (hbound : maxFile - 1 ≤ bound) :
    Safe (cloneBytes c b) (b.Edited bound dict) := by
  have hpos := hb.pos
  have hblock := hb.block
  refine Safe.ite (fun hroom => ?_) fun _ => Safe.pure hb.keep
  refine (safe_draw (by decide)).bind fun clone _ => Safe.ite (fun _ => ?_) fun _ => ?_
  · refine (chooseBlockLen_safe hpos).bind fun cloneLen hclone => ?_
    refine (safe_draw (by omega)).bind fun cloneFrom hfrom => ?_
    refine (safe_draw hpos).bind fun cloneTo hto => ?_
    refine (safe_readBlock (by omega)).bind ?_
    rintro _ rfl
    rw [HavocBuf.read_testcase (by omega)]
    have hlen : ((b.testcase.drop cloneFrom).take cloneLen).length ≤ cloneLen := List.length_take_le _ _
    exact insertBlock_safe hb hto.le (by omega) (.inl (chunk_part _ hclone.2.2))
  · refine (chooseBlockLen_safe (by decide)).bind fun cloneLen hclone => ?_
    refine (safe_draw hpos).bind fun cloneTo hto => ?_
    refine (fillByte_safe hb).bind fun byte _ => ?_
    have hlen : (List.replicate cloneLen byte).length = cloneLen := List.length_replicate
    exact insertBlock_safe hb hto.le (by omega) (.inl (chunk_replicate _ hclone.2.2 byte))

private theorem overwriteBytes_safe (hb : b.Fits bound) : Safe (overwriteBytes c b) (b.Edited bound dict) := by
  have hblock := hb.block
  have hlen := hb.length_testcase
  refine Safe.ite (fun _ => Safe.pure hb.keep) fun hle => ?_
  refine (chooseBlockLen_safe (by omega)).bind fun copyLen hcopy => ?_
  refine (safe_draw (by omega)).bind fun copyFrom hfrom => ?_
  refine (safe_draw (by omega)).bind fun copyTo hto => ?_
  refine (safe_draw (by decide)).bind fun chunk _ => Safe.ite (fun _ => Safe.ite (fun _ => ?_) fun _ => ?_) fun _ => ?_
  · refine (safe_readBlock (by omega)).bind ?_
    rintro _ rfl
    rw [HavocBuf.read_testcase (by omega)]
    have hcopied : ((b.testcase.drop copyFrom).take copyLen).length ≤ copyLen := List.length_take_le _ _
    exact hb.writeBlock (by omega) (.overwrite copyTo _ (by omega) (.inl (chunk_part _ hcopy.2.2)))
  · exact Safe.pure hb.keep
  · refine (fillByte_safe hb).bind fun byte _ => ?_
    have hfilled : (List.replicate copyLen byte).length = copyLen := List.length_replicate
    exact hb.writeBlock (by omega) (.overwrite copyTo _ (by omega) (.inl (chunk_replicate _ hcopy.2.2 byte)))

/-- The extra comes from one of the dictionaries. -/
private theorem pickExtra_safe (h : ¬ c.extras.length + c.aExtras.length = 0) :
    Safe (pickExtra c) (· ∈ c.extras ++ c.aExtras) := by
  have hauto {l : List Bytes} (hl : l ≠ []) (hsub : l ⊆ c.extras ++ c.aExtras) : Safe (pick l) (· ∈ c.extras ++ c.aExtras) :=
    (safe_pick hl).mono fun _ he => hsub he
  have hall : c.aExtras ⊆ c.extras ++ c.aExtras := List.subset_append_right _ _
  refine Safe.ite (fun hnone => hauto (fun he => h (by rw [hnone, he]; rfl)) hall) fun hsome => ?_
  refine Safe.ite (fun _ => hauto hsome (List.subset_append_left _ _)) fun hauto' => ?_
  refine (safe_draw (by decide)).bind fun which _ => ?_
  exact Safe.ite (fun _ => hauto hauto' hall) fun _ => hauto hsome (List.subset_append_left _ _)

private theorem overwriteExtra_safe (hb : b.Fits bound) (hdict : dict = c.extras ++ c.aExtras) :
    Safe (overwriteExtra c b) (b.Edited bound dict) := by
  have hlen := hb.length_testcase
  refine Safe.ite (fun _ => Safe.pure hb.keep) fun hsome => ?_
  refine (pickExtra_safe hsome).bind fun extra hextra => Safe.ite (fun _ => Safe.pure hb.keep) fun hle => ?_
  refine (safe_draw (Nat.succ_pos _)).bind fun insertAt hat => hb.writeBlock (by omega) ?_
  exact .overwrite insertAt extra (by omega) (.inr (hdict ▸ hextra))

private theorem insertExtra_safe (hb : b.Fits bound) (hbound : maxFile - 1 ≤ bound) (hdict : dict = c.extras ++ c.aExtras) :
    Safe (insertExtra c b) (b.Edited bound dict) := by
  refine Safe.ite (fun _ => Safe.pure hb.keep) fun hsome => ?_
  refine (safe_draw (Nat.succ_pos _)).bind fun insertAt hat => ?_
  refine (pickExtra_safe hsome).bind fun extra hextra => Safe.ite (fun _ => Safe.pure hb.keep) fun hroom => ?_
  exact insertBlock_safe hb (by omega) (by omega) (.inr (hdict ▸ hextra))

/-- No tweak faults, and each comes to an edit. -/
theorem tweak_safe (hb : b.Fits bound) (hbound : maxFile - 1 ≤ bound) :
    Safe (tweak c b) (b.Edited bound (c.extras ++ c.aExtras)) := by
  rw [tweak]
  refine (safe_draw (by omega)).bind fun n _ => ?_
  split
  · exact flipBit_safe hb
  · exact setByte_safe hb
  · exact setWord_safe hb (by decide)
  · exact setWord_safe hb (by decide)
  · exact arithByte_safe hb false
  · exact arithByte_safe hb true
  · exact arithWord_safe hb (by decide) false
  · exact arithWord_safe hb (by decide) true
  · exact arithWord_safe hb (by decide) false
  · exact arithWord_safe hb (by decide) true
  · exact randomByte_safe hb
  · exact deleteBytes_safe hb
  · exact deleteBytes_safe hb
  · exact cloneBytes_safe hb hbound
  · exact overwriteBytes_safe hb
  · exact overwriteExtra_safe hb rfl
  · exact insertExtra_safe hb hbound rfl

end LtlFuzzer.Aflgo
