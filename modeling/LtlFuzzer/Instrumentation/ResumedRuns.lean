import LtlFuzzer.Instrumentation.ReplayedInputs

/-! A program run again on a stored prefix: it takes the automaton along the path that is stored with the prefix. -/
namespace LtlFuzzer.Instrumentation
open Foundation Automata Numerals Delimiters

/-- A program under test: the number that it reads from a byte, and its answer to it. A reader that takes the end of
the file for input reads some bytes more. -/
structure Program where
  State : Type
  initial : State
  read : UInt8 → Int
  step : State → Int → State × Int
  atEnd : List UInt8

namespace Program
variable (P : Program)

/-- The pairs of inputs and outputs for what is read. -/
def pairs (bytes : List UInt8) : List (Int × Int) := answers P.step P.initial (bytes.map P.read)

/-- What the instrumentation relies on: an output that is not positive stands for an input that was not accepted, and
the number of a byte is read again from the byte of the number. -/
structure Regular : Prop where
  rejected : ∀ s i, (P.step s i).2 ≤ 0 → (P.step s i).1 = s
  reread : ∀ b, P.read (Int8.ofInt (P.read b)).toUInt8 = P.read b
  int : ∀ b, -2 ^ 31 ≤ P.read b ∧ P.read b < 2 ^ 31

end Program

/-- The events of a pair. -/
def pairEvents (names : Std.TreeMap Int Str) (p : Int × Int) : List Str :=
  ['i' :: (names[p.1]?).getD [], 'o' :: (names[p.2]?).getD []]

private theorem zipIdx_pairs (b : CodeBean) (k : Nat) (pairs : List (Int × Int)) :
    ((pairs.flatMap fun p => [p.1, p.2]).zipIdx (2 * k)).map (fun (key, i) => b.eventText i key) =
      pairs.flatMap (pairEvents b.eventReverseMap) := by
  induction pairs generalizing k with
  | nil => rfl
  | cons p pairs ih =>
    have hnext : 2 * k + 1 + 1 = 2 * (k + 1) := by omega
    rw [List.flatMap_cons, List.flatMap_cons, List.cons_append, List.cons_append, List.nil_append, List.zipIdx_cons,
      List.zipIdx_cons, hnext, List.map_cons, List.map_cons, ih]
    simp [CodeBean.eventText, pairEvents]

theorem recordPairs_trace (names : Std.TreeMap Int Str) (pairs : List (Int × Int)) :
    (recordPairs names pairs).trace false = pairs.flatMap (pairEvents names) := by
  have key (b : CodeBean) : (pairs.foldl (fun (b : CodeBean) p => b.collectTrace p.1 p.2) b).traceString = b.traceString ∧
      (pairs.foldl (fun (b : CodeBean) p => b.collectTrace p.1 p.2) b).eventReverseMap = b.eventReverseMap ∧
      (pairs.foldl (fun (b : CodeBean) p => b.collectTrace p.1 p.2) b).traceCommon =
        b.traceCommon ++ pairs.flatMap fun p => [p.1, p.2] := by
    induction pairs generalizing b with
    | nil => exact ⟨rfl, rfl, (List.append_nil _).symm⟩
    | cons p pairs ih =>
      obtain ⟨hstring, hmap, hcommon⟩ := ih (b.collectTrace p.1 p.2)
      refine ⟨hstring, hmap, ?_⟩
      rw [List.foldl_cons, hcommon, List.flatMap_cons, ← List.append_assoc]
      rfl
  obtain ⟨hstring, hmap, hcommon⟩ := key { eventReverseMap := names }
  rw [recordPairs, CodeBean.normalizeTrace]
  change _ ++ _ = _
  rw [hstring, hcommon, List.nil_append, List.nil_append]
  have := zipIdx_pairs (pairs.foldl (fun (b : CodeBean) p => b.collectTrace p.1 p.2) { eventReverseMap := names }) 0 pairs
  rw [hmap] at this
  exact this

/-- The position of a pair in the trace of numbers. -/
private theorem numberAt_pairs {pairs : List (Int × Int)} {k : Nat} {p : Int × Int} (h : pairs[k]? = some p) :
    numberAt (pairs.flatMap fun p => [p.1, p.2]) (2 * k) = p.1 ∧ numberAt (pairs.flatMap fun p => [p.1, p.2]) (2 * k + 1) = p.2 := by
  induction pairs generalizing k with
  | nil => cases h
  | cons q pairs ih =>
    cases k with
    | zero =>
      obtain rfl : q = p := Option.some.inj h
      exact ⟨rfl, rfl⟩
    | succ k => exact ih h

private theorem keptEvents_flatMap (names : Std.TreeMap Int Str) (keep : Nat → Bool) (k : Nat) (pairs : List (Int × Int)) :
    keptEvents (fun i => keep (i / 2)) (2 * k) (pairs.flatMap (pairEvents names)) =
      (keptEvents keep k pairs).flatMap (pairEvents names) := by
  induction pairs generalizing k with
  | nil => rfl
  | cons p pairs ih =>
    have heven : 2 * k / 2 = k := by omega
    have hodd : (2 * k + 1) / 2 = k := by omega
    have hnext : 2 * k + 1 + 1 = 2 * (k + 1) := by omega
    rw [List.flatMap_cons, pairEvents, List.cons_append, List.cons_append, List.nil_append, keptEvents, keptEvents, heven, hodd,
      hnext, ih, keptEvents]
    split_ifs <;> rfl

private theorem keptEvents_eq_filter {α : Type} (keep : Nat → Bool) (k : Nat) (l : List α) :
    keptEvents keep k l = ((l.zipIdx k).filter fun p => keep p.2).map Prod.fst := by
  induction l generalizing k with
  | nil => rfl
  | cons a l ih =>
    rw [keptEvents, List.zipIdx_cons, List.filter_cons, ih]
    split_ifs <;> rfl

/-- The pairs whose inputs are used. -/
def usedPairs (used : List Nat) (pairs : List (Int × Int)) : List (Int × Int) :=
  keptEvents (fun k => decide (2 * k ∈ used)) 0 pairs

/-- The inputs of these pairs are the numbers of the prefix. -/
private theorem map_fst_usedPairs {used : List Nat} {pairs : List (Int × Int)} (hsorted : used.Pairwise (· < ·))
    (hused : ∀ j ∈ used, j % 2 = 0 ∧ j < 2 * pairs.length) :
    (usedPairs used pairs).map Prod.fst = used.map (numberAt (pairs.flatMap fun p => [p.1, p.2])) := by
  have hpositions : (pairs.zipIdx.filter fun p => decide (2 * p.2 ∈ used)).map (fun p => 2 * p.2) = used := by
    have hrange : (pairs.zipIdx.filter fun p => decide (2 * p.2 ∈ used)).map (fun p => 2 * p.2) =
        ((List.range pairs.length).filter fun k => decide (2 * k ∈ used)).map (2 * ·) := by
      rw [List.range_eq_range', ← List.zipIdx_map_snd 0 pairs, List.filter_map, List.map_map]
      rfl
    have hlt : (((List.range pairs.length).filter fun k => decide (2 * k ∈ used)).map (2 * ·)).Pairwise (· < ·) :=
      List.pairwise_map.mpr ((List.pairwise_lt_range.filter _).imp fun h => by omega)
    rw [hrange]
    apply List.Perm.eq_of_pairwise (fun a b _ _ hab hba => absurd hab (Nat.lt_asymm hba)) hlt hsorted
    apply (List.perm_ext_iff_of_nodup (hlt.imp fun h => h.ne) (hsorted.imp fun h => h.ne)).mpr
    intro j
    simp only [List.mem_map, List.mem_filter, List.mem_range, decide_eq_true_eq]
    constructor
    · rintro ⟨k, ⟨-, hk⟩, rfl⟩
      exact hk
    · intro hj
      obtain ⟨heven, hlt⟩ := hused j hj
      have hhalf : 2 * (j / 2) = j := by omega
      exact ⟨j / 2, ⟨by omega, by rwa [hhalf]⟩, hhalf⟩
  rw [usedPairs, keptEvents_eq_filter, List.map_map]
  conv_rhs => rw [← hpositions]
  rw [List.map_map]
  apply List.map_congr_left
  intro p hp
  have hget := List.mem_zipIdx_iff_getElem?.mp (List.mem_filter.mp hp).1
  exact (numberAt_pairs hget).1.symm

section
variable {A : TwaGraph}

/-- The checker's steps, where no state was entered before the first one. -/
def entering (A : TwaGraph) (q : Option (Fin A.numStates)) (e : Str) : Option (Option (Fin A.numStates)) :=
  (A.preferred (q.getD A.initState) e).map some

private def stateNumber : Option (Fin A.numStates) → Int
  | none => -2
  | some q => (q.val : Int)

private theorem changePoints_entering (q : Option (Fin A.numStates)) (i : Nat) (es : List Str) :
    changePoints (stateNumber q) i (genuine (A.follow (q.getD A.initState) es)) =
      (changes (entering A) q i es).map fun p => (p.1, stateNumber p.2) := by
  induction es generalizing q i with
  | nil => rfl
  | cons e es ih =>
    cases hs : A.preferred (q.getD A.initState) e with
    | none => simp [TwaGraph.follow_of_none hs, genuine, deadEnd, changePoints, changes, entering, hs]
    | some s =>
      have hstep : entering A q e = some (some s) := by rw [entering, hs, Option.map_some]
      have hsame : stateNumber q = (s.val : Int) ↔ some s = q := by
        cases q with
        | none => simp [stateNumber]
        | some q => simp [stateNumber, Fin.ext_iff, eq_comm]
      have hrest := ih (some s) (i + 1)
      rw [TwaGraph.follow_of_preferred hs, genuine_entry, changePoints, changes, hstep]
      simp only [hsame]
      split_ifs with hq
      · rw [← hrest, ← hq]
        rfl
      · rw [List.map_cons, ← hrest]
        rfl

/-- The path text of a run from the initial state. -/
private theorem automataPath_entering (es : List Str) :
    automataPath (A.follow A.initState es) =
      terminated [','] (((changes (entering A) none 0 es).map Prod.snd).map fun q => showInt (stateNumber q)) := by
  have hpoints := changePoints_entering (A := A) none 0 es
  rw [automataPath, show (-2 : Int) = stateNumber (A := A) none from rfl, show A.initState = (none : Option _).getD A.initState from rfl,
    hpoints, List.map_map, List.map_map]
  rfl

/-- What the recorder holds after a run, and the states that the checker gives for it. -/
def Program.recorded (P : Program) (names : Std.TreeMap Int Str) (bytes : List UInt8) : CodeBean := recordPairs names (P.pairs bytes)

def Program.checked (P : Program) (A : TwaGraph) (names : Std.TreeMap Int Str) (bytes : List UInt8) : List MCState :=
  (A.modelCheckEvents ((P.recorded names bytes).trace false) {}).1

/-- The byte of a number of the prefix. -/
def inputByte (n : Int) : UInt8 := (Int8.ofInt n).toUInt8

/-- The numbers of the prefix that a run stores. -/
def Program.prefixNumbers (P : Program) (A : TwaGraph) (names : Std.TreeMap Int Str) (bytes : List UInt8) : List Int :=
  (inputsUsed (P.recorded names bytes).traceCommon (P.checked A names bytes)).map (numberAt (P.recorded names bytes).traceCommon)

private theorem prefixNumbers_eq (P : Program) (A : TwaGraph) (names : Std.TreeMap Int Str) (bytes : List UInt8) :
    P.prefixNumbers A names bytes = (usedPairs (inputsUsed (P.recorded names bytes).traceCommon (P.checked A names bytes))
      (P.pairs bytes)).map Prod.fst := by
  have hnn : ∀ s ∈ genuine (P.checked A names bytes), 0 ≤ s := genuine_nonneg A _ {}
  rw [Program.prefixNumbers, Program.recorded, recordPairs_traceCommon, map_fst_usedPairs (inputsUsed_sorted hnn)]
  intro j hj
  obtain ⟨heven, hj⟩ := (mem_inputsUsed hnn).mp hj
  refine ⟨heven, ?_⟩
  have hlen : (genuine (P.checked A names bytes)).length ≤ (P.recorded names bytes).traceCommon.length :=
    length_genuine_recordPairs A names (P.pairs bytes) {}
  have hsize : (P.recorded names bytes).traceCommon.length = 2 * (P.pairs bytes).length := by
    rw [Program.recorded, recordPairs_traceCommon, List.length_flatMap]
    simp [Nat.mul_comm]
  obtain ⟨p, hp, hle⟩ : ∃ p ∈ changePoints (-2) 0 (genuine (P.checked A names bytes)), j ≤ p.1 := by
    rcases hj with ⟨p, hp, rfl⟩ | ⟨⟨p, hp, hlt⟩, -⟩
    · exact ⟨p, hp, Nat.le_refl _⟩
    · exact ⟨p, hp, hlt.le⟩
  have := (changePoints_range hp).2
  omega

/-- They were read. -/
theorem Program.mem_prefixNumbers (P : Program) {A : TwaGraph} {names : Std.TreeMap Int Str} {bytes : List UInt8} {n : Int}
    (hn : n ∈ P.prefixNumbers A names bytes) : ∃ b ∈ bytes, P.read b = n := by
  obtain ⟨p, hp, rfl⟩ := List.mem_map.mp (prefixNumbers_eq P A names bytes ▸ hn)
  rw [usedPairs, keptEvents_eq_filter] at hp
  obtain ⟨q, hq, rfl⟩ := List.mem_map.mp hp
  have hmem := List.mem_of_getElem? (List.mem_zipIdx_iff_getElem?.mp (List.mem_filter.mp hq).1)
  exact List.mem_map.mp (map_fst_answers P.initial (bytes.map P.read) ▸ List.mem_map_of_mem hmem)

/-- A run on the bytes of a stored prefix goes through the pairs that were used for it. -/
private theorem pairs_prefix {P : Program} (hP : P.Regular) (A : TwaGraph) (names : Std.TreeMap Int Str) (bytes : List UInt8) :
    P.pairs ((P.prefixNumbers A names bytes).map inputByte) =
      usedPairs (inputsUsed (P.recorded names bytes).traceCommon (P.checked A names bytes)) (P.pairs bytes) := by
  have hnn : ∀ s ∈ genuine (P.checked A names bytes), 0 ≤ s := genuine_nonneg A _ {}
  have hcommon : (P.recorded names bytes).traceCommon = (P.pairs bytes).flatMap fun p => [p.1, p.2] := recordPairs_traceCommon _ _
  have hread : ((P.prefixNumbers A names bytes).map inputByte).map P.read = P.prefixNumbers A names bytes := by
    rw [List.map_map]
    refine (List.map_congr_left fun n hn => ?_).trans (List.map_id _)
    obtain ⟨b, -, rfl⟩ := P.mem_prefixNumbers hn
    exact hP.reread b
  rw [Program.pairs, hread, prefixNumbers_eq]
  refine @answers_keptEvents _ _ _ _ (· ≤ 0) hP.rejected _ _ _ _ fun k p hk hout => ?_
  rw [Nat.zero_add] at hout ⊢
  by_contra hcon
  rw [not_or, not_forall] at hcon
  obtain ⟨hpos, k', hk'⟩ := hcon
  obtain ⟨hlt, hin⟩ := Classical.not_imp.mp hk'
  have hin := of_decide_eq_true (Bool.of_not_eq_false hin)
  -- an input with a positive output before one that is used
  have hlater : ∃ q ∈ changePoints (-2) 0 (genuine (P.checked A names bytes)), 2 * k < q.1 := by
    obtain ⟨-, ⟨q, hq, he⟩ | ⟨⟨q, hq, hlt'⟩, -⟩⟩ := (mem_inputsUsed hnn).mp hin
    · exact ⟨q, hq, by omega⟩
    · exact ⟨q, hq, by omega⟩
  have hused : 2 * k ∈ inputsUsed (P.recorded names bytes).traceCommon (P.checked A names bytes) := by
    refine (mem_inputsUsed hnn).mpr ⟨by omega, .inr ⟨hlater, ?_⟩⟩
    have hnumber : numberAt ((P.pairs bytes).flatMap fun p => [p.1, p.2]) (2 * k + 1) = p.2 := (numberAt_pairs hk).2
    rw [hcommon, hnumber]
    exact Int.not_le.mp hpos
  exact absurd hused (of_decide_eq_false hout)

/-- The pairs that are used make the moves of the whole run. -/
private theorem changes_usedPairs {P : Program} {names : Std.TreeMap Int Str} {bytes : List UInt8} (hA : A.NonFalse)
    (h : ChangingOutputsPositive (P.recorded names bytes).traceCommon (P.checked A names bytes)) :
    (changes (entering A) none 0 ((usedPairs (inputsUsed (P.recorded names bytes).traceCommon (P.checked A names bytes))
      (P.pairs bytes)).flatMap (pairEvents names))).map Prod.snd =
        (changes (entering A) none 0 ((P.pairs bytes).flatMap (pairEvents names))).map Prod.snd := by
  have hnn : ∀ s ∈ genuine (P.checked A names bytes), 0 ≤ s := genuine_nonneg A _ {}
  have hstates : P.checked A names bytes = A.follow A.initState ((P.pairs bytes).flatMap (pairEvents names)) := by
    rw [Program.checked, Program.recorded, recordPairs_trace, TwaGraph.modelCheckEvents_eq_follow hA]
  have hpoints : changePoints (-2) 0 (genuine (P.checked A names bytes)) =
      (changes (entering A) none 0 ((P.pairs bytes).flatMap (pairEvents names))).map fun p => (p.1, stateNumber p.2) := by
    rw [hstates]
    exact changePoints_entering none 0 _
  have hhalf (i : Nat) : i - i % 2 = 2 * (i / 2) := by omega
  rw [usedPairs, ← keptEvents_flatMap]
  apply changes_keptEvents_next
  · intro p hp
    have hchanged : ChangedAt (P.checked A names bytes) p.1 :=
      ⟨(p.1, stateNumber p.2), by rw [hpoints]; exact List.mem_map_of_mem hp, rfl⟩
    have hused := used_of_changedAt hnn h hchanged
    rw [hhalf] at hused
    exact decide_eq_true hused
  · intro j _ hj
    have hmem := (mem_inputsUsed hnn).mp (of_decide_eq_true hj)
    rw [ChangedAt, hpoints] at hmem
    obtain ⟨-, ⟨q, hq, he⟩ | ⟨⟨q, hq, hlt⟩, -⟩⟩ := hmem
    · obtain ⟨p, hp, rfl⟩ := List.mem_map.mp hq
      exact ⟨p, hp, by dsimp only at he; omega⟩
    · obtain ⟨p, hp, rfl⟩ := List.mem_map.mp hq
      exact ⟨p, hp, by dsimp only at hlt; omega⟩

/-- A run on the bytes of a stored prefix and any more begins with the path stored with it. -/
theorem prefix_resumes {P : Program} (hP : P.Regular) (hA : A.NonFalse) {names : Std.TreeMap Int Str} {bytes : List UInt8}
    (h : ChangingOutputsPositive (P.recorded names bytes).traceCommon (P.checked A names bytes)) (more : List UInt8) :
    automataPath (P.checked A names bytes) <+:
      automataPath (P.checked A names ((P.prefixNumbers A names bytes).map inputByte ++ more)) := by
  have hpath (bytes : List UInt8) : automataPath (P.checked A names bytes) = terminated [',']
      (((changes (entering A) none 0 ((P.pairs bytes).flatMap (pairEvents names))).map Prod.snd).map fun q =>
        showInt (stateNumber q)) := by
    rw [Program.checked, Program.recorded, recordPairs_trace, TwaGraph.modelCheckEvents_eq_follow hA, automataPath_entering]
  have hpairs : P.pairs ((P.prefixNumbers A names bytes).map inputByte) <+:
      P.pairs ((P.prefixNumbers A names bytes).map inputByte ++ more) := by
    rw [Program.pairs, Program.pairs, List.map_append]
    exact answers_append_isPrefix _ _ _
  obtain ⟨later, hlater⟩ := hpairs
  rw [hpath, hpath, ← hlater, pairs_prefix hP, List.flatMap_append, ← changes_usedPairs hA h]
  obtain ⟨rest, hrest⟩ := @changes_append_isPrefix _ _ _ (entering A) none 0
    ((usedPairs (inputsUsed (P.recorded names bytes).traceCommon (P.checked A names bytes)) (P.pairs bytes)).flatMap (pairEvents names))
    (later.flatMap (pairEvents names))
  rw [← hrest, List.map_append, List.map_append, terminated_append]
  exact List.prefix_append _ _

end

end LtlFuzzer.Instrumentation
