import LtlFuzzer.Aflgo.RedundantValues
import LtlFuzzer.Foundation.Walks

/-! The deterministic stages of an entry: bits and bytes flipped, arithmetic on words, and interesting values put in. -/
namespace LtlFuzzer.Aflgo
open Foundation Draws Walk

def effMinLen : Nat := 128

def effMaxPerc : Nat := 90

/-- What the stages depend on: the mode, the checksum of the entry's trace and those of the traces of the stage 8/8, and
whether `common_fuzz_stuff` bails out after these test cases. -/
structure DetContext where
  dumbMode : Bool
  noArith : Bool
  execCksum : Nat
  flip8Cksum : Nat → Nat
  bails : List Bytes → Bool

structure DetState where
  outBuf : Bytes
  effMap : List Bool
  effCnt : Nat

/-- EFF_APOS and EFF_ALEN. -/
def effApos (p : Nat) : Nat := p >>> 3

def effAlen (l : Nat) : Nat := effApos l + if l &&& 7 ≠ 0 then 1 else 0

def onBuf (f : Bytes → Draws Bytes) (s : DetState) : Draws DetState := do
  let outBuf ← f s.outBuf
  pure { s with outBuf := outBuf }

/-- FLIP_BIT. -/
def flipOne (outBuf : Bytes) (bit : Nat) : Draws Bytes := do
  let old ← readBlock outBuf (bit >>> 3) 1
  writeBlock outBuf (bit >>> 3) (old.map (· ^^^ (128 >>> UInt8.ofNat (bit &&& 7))))

def flipBits (n bit : Nat) (outBuf : Bytes) : Draws Bytes := (List.range n).foldlM (fun m k => flipOne m (bit + k)) outBuf

/-- All bits of a word. -/
def flipWord (w i : Nat) (outBuf : Bytes) : Draws Bytes := do
  let old ← readBlock outBuf i w
  writeBlock outBuf i (old.map (· ^^^ 0xff))

def putWord (w i v : Nat) (outBuf : Bytes) : Draws Bytes := writeBlock outBuf i (wordBytes w v)

section
variable (c : DetContext) (len : Nat)

def fuzzStuff : Walk DetState Bytes → Draws (Walk DetState Bytes) := make c.bails fun s => readBlock s.outBuf 0 len

/-- Something is flipped, run and flipped again. -/
def flipped (flip : Bytes → Draws Bytes) : Walk DetState Bytes → Draws (Walk DetState Bytes) :=
  seq (change (onBuf flip)) (seq (fuzzStuff c len) (change (onBuf flip)))

/-- The stages 1/1, 2/1 and 4/1. -/
def bitflip (n : Nat) : Walk DetState Bytes → Draws (Walk DetState Bytes) :=
  each (fun bit => flipped c len (flipBits n bit)) (List.range ((len <<< 3) - (n - 1)))

/-- The first and the last byte are always flagged. -/
def initEffector (s : DetState) : Draws DetState := do
  let effMap ← writeBlock (List.replicate (effAlen len) false) 0 [true]
  if effApos (len - 1) ≠ 0 then
    let effMap ← writeBlock effMap (effApos (len - 1)) [true]
    pure ⟨s.outBuf, effMap, 2⟩
  else pure ⟨s.outBuf, effMap, 1⟩

/-- The checksum for byte i, or one that differs in dumb mode and for a short file. -/
def effCksum (i : Nat) : Nat := if !c.dumbMode && effMinLen ≤ len then c.flip8Cksum i else 2 ^ 32 - 1 - c.execCksum

def noteEffector (i : Nat) (s : DetState) : Draws DetState := do
  let flagged ← deref s.effMap[effApos i]?
  if flagged then pure s
  else if effCksum c len i ≠ c.execCksum then
    let effMap ← writeBlock s.effMap (effApos i) [true]
    pure { s with effMap := effMap, effCnt := s.effCnt + 1 }
  else pure s

/-- A map that is dense enough is filled. -/
def fillEffector (s : DetState) : DetState :=
  if s.effCnt ≠ effAlen len ∧ effMaxPerc < s.effCnt * 100 / effAlen len then { s with effMap := List.replicate (effAlen len) true } else s

/-- The stage 8/8 with the effector map. -/
def byteflip : Walk DetState Bytes → Draws (Walk DetState Bytes) :=
  seq (change (initEffector len))
    (seq (each (fun i => seq (change (onBuf (flipWord 1 i)))
        (seq (fuzzStuff c len) (seq (change (noteEffector c len i)) (change (onBuf (flipWord 1 i)))))) (List.range len))
      (change fun s => pure (fillEffector len s)))

/-- Whether a byte of the word is in an effective block. -/
def effective (w i : Nat) (s : DetState) : Draws Bool := (List.range w).anyM fun k => deref s.effMap[effApos (i + k)]?

/-- A stage over the words of the file, where the effector map is consulted. -/
def wordStage (w : Nat) (round : Nat → Walk DetState Bytes → Draws (Walk DetState Bytes)) :
    Walk DetState Bytes → Draws (Walk DetState Bytes) :=
  if len < w then pure
  else each (fun i walk => do if ← effective w i walk.state then round i walk else pure walk) (List.range (len - (w - 1)))

/-- Values for a word, one after the other, and then the old one. -/
def tryWords (w i orig : Nat) (news : List Nat) : Walk DetState Bytes → Draws (Walk DetState Bytes) :=
  seq (each (fun v => seq (change (onBuf (putWord w i v))) (fuzzStuff c len)) news) (change (onBuf (putWord w i orig)))

/-- What arithmetic with a number gives: in the other order of bytes only for longer words. -/
def arithNews (w orig num : Nat) : List Nat :=
  ((if w = 1 then [(false, true), (false, false)] else [(false, true), (false, false), (true, true), (true, false)]).filter fun t =>
    affects w t.1 t.2 orig num && !couldBeBitflip (orig ^^^ arithValue w t.1 t.2 orig num)).map fun t => arithValue w t.1 t.2 orig num

def arithRound (w i : Nat) (walk : Walk DetState Bytes) : Draws (Walk DetState Bytes) := do
  let old ← readBlock walk.state.outBuf i w
  each (fun num => tryWords c len w i (wordAt old) (arithNews w (wordAt old) num)) (List.range' 1 arithMax) walk

/-- An interesting value, where it is not redundant, in both orders of bytes for longer words. -/
def interestNews (w orig : Nat) (n : Int) : List Nat :=
  let v := word w n
  (if !couldBeBitflip (orig ^^^ v) && !couldBeArith orig v w && !(w ≠ 1 && couldBeInterest orig v w false) then [v] else []) ++
  (if w ≠ 1 && v ≠ swap w v && !couldBeBitflip (orig ^^^ swap w v) && !couldBeArith orig (swap w v) w &&
    !couldBeInterest orig (swap w v) w true then [swap w v] else [])

/-- A byte is restored after every value, a longer word in the end. -/
def interestRound (w i : Nat) (walk : Walk DetState Bytes) : Draws (Walk DetState Bytes) := do
  let old ← readBlock walk.state.outBuf i w
  if w = 1 then each (fun n => tryWords c len w i (wordAt old) (interestNews w (wordAt old) n)) (interestTable w) walk
  else tryWords c len w i (wordAt old) ((interestTable w).flatMap (interestNews w (wordAt old))) walk

def arithStages : Walk DetState Bytes → Draws (Walk DetState Bytes) :=
  if c.noArith then pure
  else seq (wordStage len 1 (arithRound c len 1)) (seq (wordStage len 2 (arithRound c len 2)) (wordStage len 4 (arithRound c len 4)))

def interestStages : Walk DetState Bytes → Draws (Walk DetState Bytes) :=
  seq (wordStage len 1 (interestRound c len 1))
    (if c.noArith then pure else seq (wordStage len 2 (interestRound c len 2)) (wordStage len 4 (interestRound c len 4)))

/-- From the single walking bits to the last interesting value. -/
def wordStages : Walk DetState Bytes → Draws (Walk DetState Bytes) :=
  seq (seq (bitflip c len 1) (seq (bitflip c len 2) (bitflip c len 4)))
    (seq (seq (byteflip c len) (seq (wordStage len 2 fun i => flipped c len (flipWord 2 i)) (wordStage len 4 fun i => flipped c len (flipWord 4 i))))
      (seq (arithStages c len) (interestStages c len)))

end

end LtlFuzzer.Aflgo
