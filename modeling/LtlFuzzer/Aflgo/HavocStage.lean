import LtlFuzzer.Aflgo.HavocTweaks

/-! The havoc stage: every round tweaks the input anew, on the block that the round before left. -/
namespace LtlFuzzer.Aflgo
open Foundation Draws

def havocStackPow2 : Nat := 7

def havocMaxMult : Nat := 16

/-- What `common_fuzz_stuff` gives: whether to bail out, and how many paths are then queued. -/
structure StuffResult where
  bail : Bool
  queuedPaths : Nat

/-- The variables of the stage, with the test cases that were handed over so far. -/
structure HavocStage where
  buf : HavocBuf
  stageMax : Nat
  perfScore : Nat
  havocQueued : Nat
  abandoned : Bool
  testcases : List Bytes

/-- The block with another size; what is added is zero. -/
def ckRealloc (m : Bytes) (size : Nat) : Bytes := m.take size ++ List.replicate (size - m.length) 0

/-- The block restored to the original size and shape. -/
def restore (inBuf : Bytes) (b : HavocBuf) : Draws HavocBuf := do
  let outBuf := if b.tempLen < inBuf.length then ckRealloc b.outBuf inBuf.length else b.outBuf
  let outBuf ← writeBlock outBuf 0 inBuf
  pure ⟨outBuf, inBuf.length⟩

/-- If we're finding new stuff, let's run for a bit longer. -/
def HavocStage.extended (s : HavocStage) (queuedPaths : Nat) : HavocStage :=
  if queuedPaths ≠ s.havocQueued then
    let s := if s.perfScore ≤ havocMaxMult * 100 then { s with stageMax := s.stageMax * 2, perfScore := s.perfScore * 2 } else s
    { s with havocQueued := queuedPaths }
  else s

section
variable (c : HavocContext) (inBuf : Bytes)

def stackTweaks (b : HavocBuf) : Draws HavocBuf := do
  let more ← draw havocStackPow2
  (List.range (1 <<< (1 + more))).foldlM (fun b _ => tweak c b) b

def havocRound (r : StuffResult) (s : HavocStage) : Draws HavocStage := do
  let buf ← stackTweaks c s.buf
  let testcase ← readBlock buf.outBuf 0 buf.tempLen
  let s := { s with testcases := s.testcases ++ [testcase] }
  if r.bail then pure { s with buf := buf, abandoned := true }
  else
    let buf ← restore inBuf buf
    pure ({ s with buf := buf }.extended r.queuedPaths)

/-- The rounds from a number on, by what the runs so far gave. -/
def havocRounds : List StuffResult → Nat → HavocStage → Draws HavocStage
  | [], _, s => pure s
  | r :: rs, stageCur, s =>
    if s.abandoned || s.stageMax ≤ stageCur then pure s
    else do
      let s ← havocRound c inBuf r s
      havocRounds rs (stageCur + 1) s

end

/-- So many edits, one after the other. -/
def Edits (dict : List Bytes) : Nat → Bytes → Bytes → Prop
  | 0, m, m' => m = m'
  | n + 1, m, m' => ∃ m₁, Edits dict n m m₁ ∧ Edit dict m₁ m'

/-- A test case from one stack of tweaks on the input. -/
structure Mutant (bound : Nat) (dict : List Bytes) (inBuf testcase : Bytes) : Prop where
  pos : 0 < testcase.length
  bound : testcase.length ≤ bound
  edits : ∃ n ≤ 2 ^ havocStackPow2, Edits dict n inBuf testcase

/-- Between two rounds the buffer holds the input, and each test case was a mutant of the input alone. -/
structure HavocStage.Sound (bound : Nat) (dict : List Bytes) (inBuf : Bytes) (s : HavocStage) : Prop where
  fits : s.abandoned = false → s.buf.Fits bound
  same : s.abandoned = false → s.buf.testcase = inBuf
  mutants : ∀ m ∈ s.testcases, Mutant bound dict inBuf m

variable {c : HavocContext} {inBuf : Bytes} {bound : Nat}

private theorem stack_safe (n : Nat) {b : HavocBuf} (hb : b.Fits bound) (hbound : maxFile - 1 ≤ bound) :
    Safe ((List.range n).foldlM (fun b _ => tweak c b) b) fun b' =>
      b'.Fits bound ∧ Edits (c.extras ++ c.aExtras) n b.testcase b'.testcase := by
  induction n with
  | zero => exact Safe.pure ⟨hb, rfl⟩
  | succ n ih =>
    rw [List.range_succ, List.foldlM_append]
    refine ih.bind fun b₁ ⟨hb₁, hedits⟩ => ?_
    rw [List.foldlM_cons]
    exact (tweak_safe hb₁ hbound).bind fun b₂ ⟨hb₂, hedit⟩ => Safe.pure ⟨hb₂, b₁.testcase, hedits, hedit⟩

theorem restore_safe {b : HavocBuf} (hb : b.Fits bound) (hin : 0 < inBuf.length) (hle : inBuf.length ≤ bound) :
    Safe (restore inBuf b) fun b' => b'.Fits bound ∧ b'.testcase = inBuf := by
  have hroom : inBuf.length ≤ (if b.tempLen < inBuf.length then ckRealloc b.outBuf inBuf.length else b.outBuf).length := by
    have := hb.block
    split_ifs with hshort
    · rw [ckRealloc, List.length_append, List.length_take, List.length_replicate]
      omega
    · omega
  refine (safe_writeBlock (by omega)).bind ?_
  rintro _ rfl
  refine Safe.pure ⟨⟨hin, ?_, hle⟩, ?_⟩
  · dsimp only
    rw [length_overwrite (by omega)]
    exact hroom
  · have := @take_overwrite_end _ (if b.tempLen < inBuf.length then ckRealloc b.outBuf inBuf.length else b.outBuf) inBuf 0
      (Nat.zero_le _)
    rwa [Nat.zero_add, List.take_zero, List.nil_append] at this

private theorem extended_sound {dict : List Bytes} {s : HavocStage} (hs : s.Sound bound dict inBuf) (queuedPaths : Nat) :
    (s.extended queuedPaths).Sound bound dict inBuf := by
  rw [HavocStage.extended]
  split_ifs
  · exact ⟨hs.fits, hs.same, hs.mutants⟩
  · exact ⟨hs.fits, hs.same, hs.mutants⟩
  · exact hs

private theorem havocRound_safe {s : HavocStage} (hs : s.Sound bound (c.extras ++ c.aExtras) inBuf) (hgo : s.abandoned = false)
    (hbound : maxFile - 1 ≤ bound) (hin : 0 < inBuf.length) (hle : inBuf.length ≤ bound) (r : StuffResult) :
    Safe (havocRound c inBuf r s) (·.Sound bound (c.extras ++ c.aExtras) inBuf) := by
  rw [havocRound, stackTweaks, bind_assoc]
  refine (safe_draw (by decide)).bind fun more hmore => ?_
  refine (stack_safe _ (hs.fits hgo) hbound).bind fun buf ⟨hbuf, hedits⟩ => ?_
  rw [hs.same hgo] at hedits
  refine (safe_readBlock (by rw [Nat.zero_add]; exact hbuf.block)).bind ?_
  rintro _ rfl
  have hmutant : Mutant bound (c.extras ++ c.aExtras) inBuf buf.testcase := by
    refine ⟨hbuf.length_testcase.symm ▸ hbuf.pos, hbuf.length_testcase.symm ▸ hbuf.bound, _, ?_, hedits⟩
    rw [Nat.shiftLeft_eq, Nat.one_mul]
    exact Nat.pow_le_pow_right (by decide) (by omega)
  have hmutants : ∀ m ∈ s.testcases ++ [(buf.outBuf.drop 0).take buf.tempLen], Mutant bound (c.extras ++ c.aExtras) inBuf m := by
    intro m hm
    rcases List.mem_append.mp hm with hm | hm
    · exact hs.mutants m hm
    · obtain rfl := List.mem_singleton.mp hm
      exact hmutant
  refine Safe.ite (fun _ => Safe.pure ⟨(fun he => nomatch he), (fun he => nomatch he), hmutants⟩) fun _ => ?_
  exact (restore_safe hbuf hin hle).bind fun buf' ⟨hfits, hsame⟩ =>
    Safe.pure (extended_sound ⟨fun _ => hfits, fun _ => hsame, hmutants⟩ _)

theorem havocRounds_safe (hbound : maxFile - 1 ≤ bound) (hin : 0 < inBuf.length) (hle : inBuf.length ≤ bound)
    (rs : List StuffResult) (stageCur : Nat) {s : HavocStage} (hs : s.Sound bound (c.extras ++ c.aExtras) inBuf) :
    Safe (havocRounds c inBuf rs stageCur s) (·.Sound bound (c.extras ++ c.aExtras) inBuf) := by
  induction rs generalizing stageCur s with
  | nil => exact Safe.pure hs
  | cons r rs ih =>
    refine Safe.ite (fun _ => Safe.pure hs) fun hgo => ?_
    have hgo : s.abandoned = false := by
      cases ha : s.abandoned with
      | false => rfl
      | true => exact absurd (by rw [ha]; rfl) hgo
    exact (havocRound_safe hs hgo hbound hin hle r).bind fun s' hs' => ih (stageCur + 1) hs'

end LtlFuzzer.Aflgo
