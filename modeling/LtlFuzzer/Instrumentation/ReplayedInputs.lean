import LtlFuzzer.Foundation.PartialRuns
import LtlFuzzer.Instrumentation.StoredPrefix

/-! Replaying the inputs of a stored prefix against the path stored with it. -/
namespace LtlFuzzer.Instrumentation
open Foundation Automata Numerals Delimiters
variable {A : TwaGraph}

/-- What the recorder holds after a list of input and output pairs. -/
def recordPairs (names : Std.TreeMap Int Str) (pairs : List (Int × Int)) : CodeBean :=
  (pairs.foldl (fun (b : CodeBean) p => b.collectTrace p.1 p.2) { eventReverseMap := names }).normalizeTrace

/-- The events of the pairs whose inputs are used, up to the last change. -/
def replayed (common : List Int) (states : List MCState) (events : List Str) : List Str :=
  keptEvents (fun i => decide (i - i % 2 ∈ inputsUsed common states) &&
    (changePoints (-2) 0 (genuine states)).any (i ≤ ·.1)) 0 events

/-- Each pair in which the state changed contributes its input once. -/
def ContributesOnce (common : List Int) (states : List MCState) : Prop :=
  ∀ k, ChangedAt states (2 * k) ∨ ChangedAt states (2 * k + 1) → (inputsUsed common states).count (2 * k) = 1

/-- Where only the output of a pair changed the state, it is positive. -/
def ChangingOutputsPositive (common : List Int) (states : List MCState) : Prop :=
  ∀ k, ChangedAt states (2 * k + 1) → ¬ ChangedAt states (2 * k) → 0 < numberAt common (2 * k + 1)

private def numbered (p : Nat × Fin A.numStates) : Nat × Int := (p.1, (p.2.val : Int))

theorem genuine_entry (s : Fin A.numStates) (states : List MCState) :
    genuine (A.entry s :: states) = (s.val : Int) :: genuine states := by
  have hne : decide ((A.entry s).state ≠ -1) = true := decide_eq_true (A.entry_state_ne s)
  rw [genuine, List.takeWhile_cons, hne]
  rfl

/-- The change points of a followed run are the moves along preferred edges. -/
private theorem changePoints_follow (q : Fin A.numStates) (i : Nat) (es : List Str) :
    changePoints (q.val : Int) i (genuine (A.follow q es)) = (changes A.preferred q i es).map numbered := by
  induction es generalizing q i with
  | nil => rfl
  | cons e es ih =>
    cases hs : A.preferred q e with
    | none => simp [TwaGraph.follow_of_none hs, genuine, deadEnd, changePoints, changes, hs]
    | some s =>
      rw [TwaGraph.follow_of_preferred hs, genuine_entry, changePoints, ih]
      by_cases hq : s = q
      · subst hq
        simp [changes, hs, ih]
      · have hne : (q.val : Int) ≠ s.val := by omega
        simp [changes, hs, hq, hne, numbered]

private theorem changePoints_start {q s : Fin A.numStates} {e : Str} (h : A.preferred q e = some s) (es : List Str) :
    changePoints (-2) 0 (genuine (A.follow q (e :: es))) =
      (0, (s.val : Int)) :: (changes A.preferred s 1 es).map numbered := by
  rw [TwaGraph.follow_of_preferred h, genuine_entry, changePoints, if_neg (by omega), changePoints_follow]

private theorem changePoints_dead {q : Fin A.numStates} {e : Str} (h : A.preferred q e = none) (es : List Str) :
    changePoints (-2) 0 (genuine (A.follow q (e :: es))) = [] := by
  simp [TwaGraph.follow_of_none h, genuine, deadEnd, changePoints]

private theorem contributesOnce_iff {common : List Int} {states : List MCState}
    (h : ∀ s ∈ genuine states, 0 ≤ s) :
    ContributesOnce common states ↔ ChangingOutputsPositive common states := by
  have hcount (j : Nat) : (inputsUsed common states).count j = 1 ↔ j ∈ inputsUsed common states :=
    ⟨fun hc => List.count_pos_iff.mp (by omega), List.count_eq_one_of_mem (inputsUsed_nodup h)⟩
  constructor
  · intro hc k hodd heven
    have hmem := (mem_inputsUsed h).mp ((hcount _).mp (hc k (.inr hodd)))
    exact (hmem.2.resolve_left heven).2
  · intro hpos k hk
    rw [hcount, mem_inputsUsed h]
    refine ⟨by omega, ?_⟩
    by_cases heven : ChangedAt states (2 * k)
    · exact .inl heven
    · have hodd := hk.resolve_left heven
      obtain ⟨p, hp, he⟩ := hodd
      exact .inr ⟨⟨p, hp, by omega⟩, hpos k ⟨p, hp, he⟩ heven⟩

theorem used_of_changedAt {common : List Int} {states : List MCState} (hnn : ∀ s ∈ genuine states, 0 ≤ s)
    (h : ChangingOutputsPositive common states) {i : Nat} (hi : ChangedAt states i) :
    i - i % 2 ∈ inputsUsed common states := by
  have hpair : ChangedAt states (2 * (i / 2)) ∨ ChangedAt states (2 * (i / 2) + 1) := by
    rcases Nat.mod_two_eq_zero_or_one i with h2 | h2
    · exact .inl (by rwa [show 2 * (i / 2) = i by omega])
    · exact .inr (by rwa [show 2 * (i / 2) + 1 = i by omega])
  have hc := (contributesOnce_iff hnn).mpr h (i / 2) hpair
  rw [show i - i % 2 = 2 * (i / 2) by omega]
  exact List.count_pos_iff.mp (by omega)

/-- Events kept past the first one make the same moves, if all that move are kept and no
other is kept after the last of them. -/
private theorem automataPath_keptEvents {q s : Fin A.numStates} {e : Str} {es : List Str} {keep : Nat → Bool}
    (hs : A.preferred q e = some s) (hkept : ∀ i, ChangedAt (A.follow q (e :: es)) i → keep i = true)
    (hlast : ∀ i, keep i = true → ∃ p ∈ changePoints (-2) 0 (genuine (A.follow q (e :: es))), i ≤ p.1) :
    automataPath (A.follow q (e :: keptEvents keep 1 es)) = automataPath (A.follow q (e :: es)) := by
  have hpts := changePoints_start hs es
  have hsame : (changes A.preferred s 1 (keptEvents keep 1 es)).map Prod.snd =
      (changes A.preferred s 1 es).map Prod.snd := by
    apply changes_keptEvents
    · intro p hp
      apply hkept
      exact ⟨numbered p, by rw [hpts]; exact .tail _ (List.mem_map_of_mem hp), rfl⟩
    · intro j hj hk
      obtain ⟨p, hp, hle⟩ := hlast j hk
      rw [hpts] at hp
      rcases List.mem_cons.mp hp with rfl | hp
      · simp only at hle
        omega
      · obtain ⟨p', hp', rfl⟩ := List.mem_map.mp hp
        exact ⟨p', hp', hle⟩
  have hsame := congrArg (List.map fun s : Fin A.numStates => showInt (s.val : Int)) hsame
  rw [List.map_map, List.map_map] at hsame
  rw [automataPath, automataPath, hpts, changePoints_start hs]
  simp only [List.map_cons, List.map_map]
  exact congrArg (fun ts => terminated [','] (showInt (s.val : Int) :: ts)) hsame

/-- With all changing outputs positive, the kept events make the same moves. -/
private theorem automataPath_replayed {common : List Int} (q : Fin A.numStates) (es : List Str)
    (hnn : ∀ s ∈ genuine (A.follow q es), 0 ≤ s) (h : ChangingOutputsPositive common (A.follow q es)) :
    automataPath (A.follow q (replayed common (A.follow q es) es)) = automataPath (A.follow q es) := by
  cases es with
  | nil => rfl
  | cons e es =>
    cases hs : A.preferred q e with
    | none =>
      have hnil : replayed common (A.follow q (e :: es)) (e :: es) = [] := by
        apply keptEvents_eq_nil
        intro j _
        rw [changePoints_dead hs]
        simp
      rw [hnil, automataPath, automataPath, changePoints_dead hs]
      rfl
    | some s =>
      let keep (i : Nat) : Bool := decide (i - i % 2 ∈ inputsUsed common (A.follow q (e :: es))) &&
        (changePoints (-2) 0 (genuine (A.follow q (e :: es)))).any (i ≤ ·.1)
      have hkept (i : Nat) (hi : ChangedAt (A.follow q (e :: es)) i) : keep i = true := by
        have hused := used_of_changedAt hnn h hi
        obtain ⟨p, hp, rfl⟩ := hi
        refine Bool.and_eq_true_iff.mpr ⟨decide_eq_true hused, ?_⟩
        exact List.any_eq_true.mpr ⟨p, hp, by simp⟩
      have hlast (i : Nat) (hi : keep i = true) :
          ∃ p ∈ changePoints (-2) 0 (genuine (A.follow q (e :: es))), i ≤ p.1 := by
        obtain ⟨p, hp, hle⟩ := List.any_eq_true.mp (Bool.and_eq_true_iff.mp hi).2
        exact ⟨p, hp, of_decide_eq_true hle⟩
      have hzero : ChangedAt (A.follow q (e :: es)) 0 :=
        ⟨(0, (s.val : Int)), by rw [changePoints_start hs]; simp, rfl⟩
      have hrep : replayed common (A.follow q (e :: es)) (e :: es) = e :: keptEvents keep 1 es := by
        change keptEvents keep 0 (e :: es) = _
        rw [keptEvents, if_pos (hkept 0 hzero)]
      rw [hrep]
      exact automataPath_keptEvents hs hkept hlast

theorem recordPairs_length (names : Std.TreeMap Int Str) (pairs : List (Int × Int)) :
    (recordPairs names pairs).traceString.length = (recordPairs names pairs).traceCommon.length := by
  have key (b : CodeBean) :
      (pairs.foldl (fun (b : CodeBean) p => b.collectTrace p.1 p.2) b).traceString = b.traceString := by
    induction pairs generalizing b with
    | nil => rfl
    | cons p pairs ih => exact ih _
  simp [recordPairs, CodeBean.normalizeTrace, key]

theorem recordPairs_traceCommon (names : Std.TreeMap Int Str) (pairs : List (Int × Int)) :
    (recordPairs names pairs).traceCommon = pairs.flatMap fun p => [p.1, p.2] := by
  have key (b : CodeBean) : (pairs.foldl (fun (b : CodeBean) p => b.collectTrace p.1 p.2) b).traceCommon =
      b.traceCommon ++ pairs.flatMap fun p => [p.1, p.2] := by
    induction pairs generalizing b with
    | nil => exact (List.append_nil _).symm
    | cons p pairs ih =>
      rw [List.foldl_cons, ih, List.flatMap_cons, ← List.append_assoc]
      rfl
  simp [recordPairs, CodeBean.normalizeTrace, key]

theorem length_genuine_recordPairs (A : TwaGraph) (names : Std.TreeMap Int Str) (pairs : List (Int × Int)) (st : Statics) :
    (genuine (A.modelCheckEvents ((recordPairs names pairs).trace false) st).1).length ≤
      (recordPairs names pairs).traceCommon.length := by
  rw [← recordPairs_length]
  exact length_genuine_le A _ st

/-- The inputs of a stored prefix replay to the path stored with it, each changing pair
once, exactly when no output that changed the state on its own is zero or negative. -/
theorem stored_prefix_replays_iff (A : TwaGraph) (hA : A.NonFalse) (names : Std.TreeMap Int Str)
    (pairs : List (Int × Int)) (st st' : Statics) :
    ∃ b states, b = recordPairs names pairs ∧ states = (A.modelCheckEvents (b.trace false) st).1 ∧
      extractPrefixAutomataPath b states false = .ok (automataPath states,
        terminated [','] ((inputsUsed b.traceCommon states).map fun j => showInt (numberAt b.traceCommon j))) ∧
      ((automataPath (A.modelCheckEvents (replayed b.traceCommon states (b.trace false)) st').1 =
            automataPath states ∧ ContributesOnce b.traceCommon states) ↔
        ChangingOutputsPositive b.traceCommon states) := by
  have hnn := genuine_nonneg A ((recordPairs names pairs).trace false) st
  refine ⟨_, _, rfl, rfl, extract_common (length_genuine_recordPairs A names pairs st), ?_⟩
  rw [contributesOnce_iff hnn]
  rw [TwaGraph.modelCheckEvents_eq_follow hA] at hnn ⊢
  rw [TwaGraph.modelCheckEvents_eq_follow hA]
  exact ⟨And.right, fun h => ⟨automataPath_replayed A.initState _ hnn h, h⟩⟩

/-- The number 0 is the invalid output. -/
def namesAB : Std.TreeMap Int Str :=
  (((∅ : Std.TreeMap Int Str).insert 0 "invalid".toList).insert 1 ['a']).insert 2 ['b']

/-- The second pair reaches state 1 on its invalid output; its input 2 is not stored, and
the first pair alone replays to the path 0. -/
theorem stored_prefix_forgets_invalid :
    reachesInvalid.NonFalse ∧
    ∃ b states, b = recordPairs namesAB [(1, 1), (2, 0)] ∧
      states = (reachesInvalid.modelCheckEvents (b.trace false) {}).1 ∧
      extractPrefixAutomataPath b states false = .ok (['0', ',', '1', ','], ['1', ',']) ∧
      replayed b.traceCommon states (b.trace false) = (recordPairs namesAB [(1, 1)]).trace false ∧
      automataPath (reachesInvalid.modelCheckEvents (replayed b.traceCommon states (b.trace false)) {}).1 =
        ['0', ','] :=
  ⟨reachesInvalid_nonFalse, _, _, rfl, rfl, rfl, rfl, rfl⟩

theorem stored_prefix_replays_iff_reachesInvalid :
    reachesInvalid.NonFalse ∧
    ∃ b states, b = recordPairs namesAB [(1, 1), (2, 2)] ∧
      states = (reachesInvalid.modelCheckEvents (b.trace false) {}).1 ∧
      extractPrefixAutomataPath b states false = .ok (automataPath states,
        terminated [','] ((inputsUsed b.traceCommon states).map fun j => showInt (numberAt b.traceCommon j))) ∧
      ((automataPath (reachesInvalid.modelCheckEvents (replayed b.traceCommon states (b.trace false)) {}).1 =
            automataPath states ∧ ContributesOnce b.traceCommon states) ↔
        ChangingOutputsPositive b.traceCommon states) :=
  ⟨reachesInvalid_nonFalse,
    stored_prefix_replays_iff reachesInvalid reachesInvalid_nonFalse namesAB [(1, 1), (2, 2)] {} {}⟩

end LtlFuzzer.Instrumentation
