import LtlFuzzer.Aflgo.HavocStage
import LtlFuzzer.Aflgo.Splicing

/-! The random stages of an entry: havoc on the entry itself, then on its splices with other entries. -/
namespace LtlFuzzer.Aflgo
open Foundation Draws

def spliceCycles : Nat := 15

/-- How long a stage is to be, and what its runs give. -/
structure StagePlan where
  stageMax : Nat
  perfScore : Nat
  havocQueued : Nat
  results : List StuffResult

/-- A splicing cycle: the lengths and files of the queue at that time, and the stage that may follow. -/
structure SpliceCycle where
  files : List (Nat × Bytes)
  plan : StagePlan

section
variable (c : HavocContext)

/-- The stage on an input, which is copied into a new buffer. -/
def havocStage (inBuf : Bytes) (plan : StagePlan) : Draws HavocStage := do
  let outBuf ← writeBlock (ckAllocNozero inBuf.length) 0 inBuf
  havocRounds c inBuf plan.results 0 ⟨⟨outBuf, inBuf.length⟩, plan.stageMax, plan.perfScore, plan.havocQueued, false, []⟩

/-- The inputs of the stages and the test cases made from them. -/
def splicedStages (current : Nat) (origIn : Bytes) : List SpliceCycle → Draws (List (Bytes × List Bytes))
  | [] => pure []
  | cycle :: cycles =>
    if 1 < cycle.files.length && 1 < origIn.length then do
      match ← spliceAttempt (LinkedQueue.ofFiles cycle.files) current origIn with
      | none => splicedStages current origIn cycles
      | some (inBuf, _) => do
        let s ← havocStage c inBuf cycle.plan
        if s.abandoned then pure [(inBuf, s.testcases)]
        else do
          let rest ← splicedStages current origIn cycles
          pure ((inBuf, s.testcases) :: rest)
    else pure []

/-- The part of `fuzz_one` from `havoc_stage` on. -/
def randomStages (current : Nat) (origIn : Bytes) (plan : StagePlan) (cycles : List SpliceCycle) :
    Draws (List (Bytes × List Bytes)) := do
  let s ← havocStage c origIn plan
  if s.abandoned then pure [(origIn, s.testcases)]
  else do
    let rest ← splicedStages c current origIn (cycles.take spliceCycles)
    pure ((origIn, s.testcases) :: rest)

end

/-- The input of a stage is the entry or a splice of it, and its test cases are mutants of just that. -/
def StageSound (bound : Nat) (dict : List Bytes) (current : Nat) (origIn : Bytes) (cycles : List SpliceCycle) (p : Bytes × List Bytes) :
    Prop :=
  (p.1 = origIn ∨ ∃ cycle ∈ cycles, ∃ t f, cycle.files[t]? = some f ∧ t ≠ current ∧ 2 ≤ f.1 ∧ Spliced origIn (f.2.take f.1) p.1) ∧
    ∀ m ∈ p.2, Mutant bound dict p.1 m

variable {c : HavocContext} {bound : Nat}

private theorem havocStage_safe {inBuf : Bytes} (hbound : maxFile - 1 ≤ bound) (hin : 0 < inBuf.length) (hle : inBuf.length ≤ bound)
    (plan : StagePlan) :
    Safe (havocStage c inBuf plan) fun s => ∀ m ∈ s.testcases, Mutant bound (c.extras ++ c.aExtras) inBuf m := by
  have hempty : Filled inBuf.length [] (ckAllocNozero inBuf.length) := ⟨List.length_replicate, rfl⟩
  rw [havocStage]
  refine (hempty.writeBlock rfl (by rw [List.length_nil]; omega)).bind fun outBuf hout => ?_
  obtain rfl : outBuf = inBuf := hout.eq rfl
  refine (havocRounds_safe hbound hin hle plan.results 0 ?_).mono fun s hs => hs.mutants
  exact ⟨fun _ => ⟨hin, Nat.le_refl _, hle⟩, fun _ => List.take_length, fun _ hm => nomatch hm⟩

private theorem splicedStages_safe {current : Nat} {origIn : Bytes} (hbound : maxFile - 1 ≤ bound) (all : List SpliceCycle)
    (hall : ∀ cycle ∈ all, ∀ f ∈ cycle.files, f.1 ≤ f.2.length ∧ f.1 ≤ bound) (cycles : List SpliceCycle) (hsub : cycles ⊆ all) :
    Safe (splicedStages c current origIn cycles) fun log => log.length ≤ cycles.length ∧
      ∀ p ∈ log, StageSound bound (c.extras ++ c.aExtras) current origIn all p := by
  induction cycles with
  | nil => exact Safe.pure ⟨Nat.le_refl _, fun _ hp => absurd hp List.not_mem_nil⟩
  | cons cycle cycles ih =>
    have hrest := ih (List.subset_of_cons_subset hsub)
    have hmem := hsub List.mem_cons_self
    refine Safe.ite (fun hgo => ?_) fun _ => Safe.pure ⟨Nat.zero_le _, fun _ hp => absurd hp List.not_mem_nil⟩
    simp only [Bool.and_eq_true, decide_eq_true_eq] at hgo
    refine (spliceAttempt_safe hgo.1 fun f hf => (hall cycle hmem f hf).1).bind fun r hr => ?_
    cases r with
    | none => exact hrest.mono fun log hlog => ⟨Nat.le_succ_of_le hlog.1, hlog.2⟩
    | some p =>
      obtain ⟨inBuf, w⟩ := p
      obtain ⟨t, f, hf, hother, hlen, hspliced⟩ := hr inBuf w rfl
      have hfile := hall cycle hmem f (List.mem_of_getElem? hf)
      have hsize := hspliced.length_eq
      rw [List.length_take_of_le hfile.1] at hsize
      have hsound (testcases : List Bytes) (h : ∀ m ∈ testcases, Mutant bound (c.extras ++ c.aExtras) inBuf m) :
          StageSound bound (c.extras ++ c.aExtras) current origIn all (inBuf, testcases) :=
        ⟨.inr ⟨cycle, hmem, t, f, hf, hother, hlen, hspliced⟩, h⟩
      refine (havocStage_safe hbound (by omega) (by omega) cycle.plan).bind fun s hs => ?_
      refine Safe.ite (fun _ => Safe.pure ⟨Nat.succ_le_succ (Nat.zero_le _), fun p hp => ?_⟩) fun _ =>
        hrest.bind fun log hlog => Safe.pure ⟨Nat.succ_le_succ hlog.1, fun p hp => ?_⟩
      · obtain rfl := List.mem_singleton.mp hp
        exact hsound _ hs
      · rcases List.mem_cons.mp hp with rfl | hp
        · exact hsound _ hs
        · exact hlog.2 p hp

/-- Whatever is drawn and whatever the runs give, the random stages read and write within their blocks and follow no null
pointer. Every test case is a mutant of the entry or of a splice of it, with a byte at least and no longer than the largest
file; no stage and no round starts from what another one left. -/
theorem random_stages_safe (hbound : maxFile - 1 ≤ bound) {current : Nat} {origIn : Bytes} (hin : 0 < origIn.length)
    (hle : origIn.length ≤ bound) (plan : StagePlan) (cycles : List SpliceCycle)
    (hfiles : ∀ cycle ∈ cycles, ∀ f ∈ cycle.files, f.1 ≤ f.2.length ∧ f.1 ≤ bound) (rolls : Nat → Nat) :
    ∃ log rest, randomStages c current origIn plan cycles rolls = some (log, rest) ∧ log.length ≤ spliceCycles + 1 ∧
      ∀ p ∈ log, StageSound bound (c.extras ++ c.aExtras) current origIn cycles p := by
  have hsafe : Safe (randomStages c current origIn plan cycles) fun log => log.length ≤ spliceCycles + 1 ∧
      ∀ p ∈ log, StageSound bound (c.extras ++ c.aExtras) current origIn cycles p := by
    refine (havocStage_safe hbound hin hle plan).bind fun s hs => ?_
    refine Safe.ite (fun _ => Safe.pure ⟨Nat.le_add_left _ _, fun p hp => ?_⟩) fun _ => ?_
    · obtain rfl := List.mem_singleton.mp hp
      exact ⟨.inl rfl, hs⟩
    · refine (splicedStages_safe hbound cycles hfiles _ (List.take_subset _ _)).bind fun log hlog =>
        Safe.pure ⟨Nat.succ_le_succ (hlog.1.trans (List.length_take_le _ _)), fun p hp => ?_⟩
      rcases List.mem_cons.mp hp with rfl | hp
      · exact ⟨.inl rfl, hs⟩
      · exact hlog.2 p hp
  exact hsafe rolls

/-- One round on the entry, and one on a splice that is then left. -/
theorem random_stages_safe_two :
    ∃ log rest, randomStages ⟨1, false, [[7]], [], Nat.one_pos⟩ 0 [1, 2, 3] ⟨16, 100, 2, [⟨false, 3⟩]⟩
        [⟨[(3, [1, 2, 3]), (4, [9, 8, 7, 6])], ⟨32, 100, 3, [⟨true, 3⟩]⟩⟩] (fun n => n) = some (log, rest) ∧
      log.length ≤ spliceCycles + 1 ∧
      ∀ p ∈ log, StageSound maxFile ([[7]] ++ []) 0 [1, 2, 3] [⟨[(3, [1, 2, 3]), (4, [9, 8, 7, 6])], ⟨32, 100, 3, [⟨true, 3⟩]⟩⟩] p :=
  random_stages_safe (by decide) (by decide) (by decide) _ _ (by decide) _

end LtlFuzzer.Aflgo
