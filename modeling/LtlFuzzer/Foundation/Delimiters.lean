import Mathlib.Data.List.Basic
import Mathlib.Data.List.DropRight
import Mathlib.Data.List.Infix
import Mathlib.Data.Nat.Find
import Mathlib.Tactic.Common

/-! Records in a flat text: terminated by a mark, cut at its first occurrences. -/
namespace LtlFuzzer.Foundation.Delimiters
variable {α : Type} [DecidableEq α]

/-- Every record is followed by the mark. -/
def terminated (mark : List α) (rs : List (List α)) : List α := rs.flatMap (· ++ mark)

omit [DecidableEq α] in
@[simp] theorem terminated_nil (mark : List α) : terminated mark [] = [] := rfl

omit [DecidableEq α] in
@[simp] theorem terminated_cons (mark r : List α) (rs : List (List α)) :
    terminated mark (r :: rs) = r ++ mark ++ terminated mark rs := by
  simp [terminated]

omit [DecidableEq α] in
@[simp] theorem terminated_append (mark : List α) (rs qs : List (List α)) :
    terminated mark (rs ++ qs) = terminated mark rs ++ terminated mark qs := by
  simp [terminated]

/-- Where the mark first occurs. -/
def firstOccurrence (mark : List α) : List α → Option Nat
  | [] => if mark = [] then some 0 else none
  | c :: s => if mark <+: c :: s then some 0 else (firstOccurrence mark s).map (· + 1)

/-- Cut a record off before each first occurrence, for a number of rounds;
what follows the last mark is dropped. -/
def cutRounds (mark : List α) : Nat → List α → List (List α)
  | 0, _ => []
  | n + 1, s => match firstOccurrence mark s with
    | none => []
    | some i => s.take i :: cutRounds mark n (s.drop (i + mark.length))

/-- A nonempty mark shortens the text, so its length bounds the rounds. -/
def cutRecords (mark s : List α) : List (List α) := cutRounds mark s.length s

theorem firstOccurrence_eq_some {mark s : List α} {i : Nat} :
    firstOccurrence mark s = some i ↔
      i ≤ s.length ∧ mark <+: s.drop i ∧ ∀ j < i, ¬ mark <+: s.drop j := by
  induction s generalizing i with
  | nil =>
    unfold firstOccurrence
    split_ifs with h
    · subst h
      cases i <;> simp
    · simp only [List.drop_nil, List.prefix_nil, h, false_and, and_false]
  | cons c s ih =>
    unfold firstOccurrence
    split_ifs with h
    · constructor
      · rintro ⟨⟩
        exact ⟨Nat.zero_le _, h, by simp⟩
      · rintro ⟨_, _, hj⟩
        cases i with
        | zero => rfl
        | succ i => exact absurd h (hj 0 (Nat.succ_pos i))
    · cases i with
      | zero => simp [h]
      | succ i =>
        simp only [Option.map_eq_some_iff, Nat.add_right_cancel_iff, exists_eq_right, ih,
          List.length_cons, List.drop_succ_cons, Nat.add_le_add_iff_right]
        constructor
        · rintro ⟨hl, hp, hj⟩
          refine ⟨hl, hp, fun j hlt => ?_⟩
          cases j with
          | zero => exact h
          | succ j => exact hj j (by omega)
        · rintro ⟨hl, hp, hj⟩
          exact ⟨hl, hp, fun j hlt => hj (j + 1) (by omega)⟩

private theorem cutRounds_stable {mark : List α} (hm : mark ≠ []) (n : Nat) (s : List α)
    (h : s.length ≤ n) : cutRounds mark n s = cutRecords mark s := by
  have key (n k : Nat) (s : List α) (hn : s.length ≤ n) (hk : s.length ≤ k) :
      cutRounds mark n s = cutRounds mark k s := by
    have hpos := List.length_pos_of_ne_nil hm
    induction n generalizing k s with
    | zero =>
      have hs : s = [] := List.length_eq_zero_iff.mp (by omega)
      subst hs
      cases k <;> simp [cutRounds, firstOccurrence, hm]
    | succ n ih =>
      cases k with
      | zero =>
        have hs : s = [] := List.length_eq_zero_iff.mp (by omega)
        subst hs
        simp [cutRounds, firstOccurrence, hm]
      | succ k =>
        simp only [cutRounds]
        cases hf : firstOccurrence mark s with
        | none => rfl
        | some i =>
          have hd : (s.drop (i + mark.length)).length = s.length - (i + mark.length) := by simp
          have hrest := ih k (s.drop (i + mark.length)) (by omega) (by omega)
          simp only [hrest]
  exact key n s.length s h le_rfl

/-- One round of the loop that cuts records off. -/
theorem cutRecords_step {mark : List α} (hm : mark ≠ []) (s : List α) :
    cutRecords mark s = match firstOccurrence mark s with
      | none => []
      | some i => s.take i :: cutRecords mark (s.drop (i + mark.length)) := by
  rw [← cutRounds_stable hm (s.length + 1) s (Nat.le_succ _), cutRounds]
  cases firstOccurrence mark s with
  | none => rfl
  | some i =>
    simp only [List.cons.injEq, true_and]
    exact cutRounds_stable hm s.length _ (by simp)

/-- The mark does not begin inside the record or straddle its end. -/
def Clean (mark r : List α) : Prop := ∀ i < r.length, ¬ mark <+: (r ++ mark).drop i

instance (mark r : List α) : Decidable (Clean mark r) :=
  inferInstanceAs (Decidable (∀ i < r.length, ¬ mark <+: (r ++ mark).drop i))

omit [DecidableEq α] in
private theorem prefix_within {mark r : List α} (t : List α) {i : Nat} (hi : i ≤ r.length) :
    mark <+: (r ++ mark ++ t).drop i ↔ mark <+: (r ++ mark).drop i := by
  rw [List.drop_append_of_le_length (by simp only [List.length_append]; omega)]
  constructor
  · intro h
    refine List.prefix_of_prefix_length_le h (List.prefix_append _ t) ?_
    simp only [List.length_drop, List.length_append]
    omega
  · exact fun h => h.trans (List.prefix_append _ t)

private theorem occurrence_le (mark r t : List α) :
    ∃ i ≤ r.length, firstOccurrence mark (r ++ mark ++ t) = some i ∧ (i = r.length ↔ Clean mark r) := by
  have hex : ∃ i, mark <+: (r ++ mark ++ t).drop i := ⟨r.length, by simp⟩
  have hi : Nat.find hex ≤ r.length := Nat.find_min' hex (by simp)
  refine ⟨Nat.find hex, hi, ?_, ?_, ?_⟩
  · refine firstOccurrence_eq_some.mpr ⟨?_, Nat.find_spec hex, fun j hj => Nat.find_min hex hj⟩
    simp only [List.length_append]
    omega
  · intro he j hj hp
    exact Nat.find_min hex (he ▸ hj) ((prefix_within t hj.le).mpr hp)
  · intro hc
    by_contra hne
    exact hc (Nat.find hex) (by omega) ((prefix_within t hi).mp (Nat.find_spec hex))

/-- Cutting undoes terminating exactly for clean records; one record that meets
the mark early is returned shortened. -/
theorem cutRecords_terminated_iff {mark : List α} (hm : mark ≠ []) (rs : List (List α)) :
    cutRecords mark (terminated mark rs) = rs ↔ ∀ r ∈ rs, Clean mark r := by
  induction rs with
  | nil => simp [cutRecords, cutRounds]
  | cons r rs ih =>
    obtain ⟨i, hi, hf, hc⟩ := occurrence_le mark r (terminated mark rs)
    rw [terminated_cons, cutRecords_step hm, hf]
    simp only [List.forall_mem_cons, List.cons.injEq]
    by_cases he : i = r.length
    · subst he
      have htake : (r ++ mark ++ terminated mark rs).take r.length = r := by simp
      have hdrop : (r ++ mark ++ terminated mark rs).drop (r.length + mark.length) =
          terminated mark rs := by
        rw [← List.length_append, List.drop_left]
      rw [htake, hdrop, ih]
      simp [hc.mp rfl]
    · constructor
      · rintro ⟨ht, _⟩
        have hl := congrArg List.length ht
        simp only [List.length_take, List.length_append] at hl
        omega
      · rintro ⟨hr, _⟩
        exact absurd (hc.mpr hr) he

omit [DecidableEq α] in
/-- For a doubled character, clean means neither containing nor half ending in it. -/
theorem clean_pair_iff (c : α) (r : List α) :
    Clean [c, c] r ↔ ¬ [c, c] <:+: r ∧ r.getLast? ≠ some c := by
  constructor
  · intro h
    constructor
    · rintro ⟨a, b, rfl⟩
      refine h a.length (by simp) ?_
      simp [List.append_assoc]
    · intro hl
      obtain ⟨a, rfl⟩ := List.getLast?_eq_some_iff.mp hl
      refine h a.length (by simp) ?_
      simp [List.append_assoc]
  · rintro ⟨hin, hlast⟩ i hi hp
    by_cases h2 : i + 2 ≤ r.length
    · refine hin ?_
      have hd : [c, c] <+: r.drop i := by
        refine List.prefix_of_prefix_length_le hp ?_ (by simp; omega)
        rw [List.drop_append_of_le_length hi.le]
        exact List.prefix_append _ _
      exact hd.isInfix.trans (List.drop_suffix i r).isInfix
    · obtain ⟨x, hx⟩ : ∃ x, r.drop i = [x] :=
        List.length_eq_one_iff.mp (by simp; omega)
      rw [List.drop_append_of_le_length hi.le, hx] at hp
      obtain ⟨t, ht⟩ := hp
      have hxc : x = c := by
        simp only [List.cons_append, List.cons.injEq] at ht
        exact ht.1.symm
      apply hlast
      rw [← List.take_append_drop i r, hx, hxc]
      simp

/-- Reading lines off a stream: a last empty piece is not a line. -/
def getlines (c : α) (s : List α) : List (List α) :=
  if (s.splitOn c).getLast? = some [] then (s.splitOn c).dropLast else s.splitOn c

theorem not_mem_of_mem_splitOn {c : α} {s r : List α} (h : r ∈ s.splitOn c) : c ∉ r := by
  induction s generalizing r with
  | nil =>
    rw [List.splitOn_nil, List.mem_singleton] at h
    simp [h]
  | cons x s ih =>
    rw [List.splitOn_cons_eq_if_modifyHead] at h
    split_ifs at h with hx
    · rcases List.mem_cons.mp h with rfl | h
      · exact List.not_mem_nil
      · exact ih h
    · obtain ⟨q, qs, hq⟩ := List.exists_cons_of_ne_nil (List.splitOn_ne_nil c s)
      rw [hq, List.modifyHead_cons] at h
      rcases List.mem_cons.mp h with rfl | h
      · have hxc : c ≠ x := fun he => hx (beq_iff_eq.mpr he.symm)
        simp [hxc, ih (hq ▸ List.mem_cons_self)]
      · exact ih (hq ▸ List.mem_cons_of_mem q h)

theorem not_mem_of_mem_getlines {c : α} {s r : List α} (h : r ∈ getlines c s) : c ∉ r := by
  rw [getlines] at h
  split_ifs at h
  · exact not_mem_of_mem_splitOn (List.mem_of_mem_dropLast h)
  · exact not_mem_of_mem_splitOn h

/-- Text that is not empty has a line. -/
theorem getlines_ne_nil {c : α} {s : List α} (h : s ≠ []) : getlines c s ≠ [] := by
  have hs : [c].intercalate (s.splitOn c) = s := List.intercalate_splitOn c
  rw [getlines]
  split_ifs with hlast
  · intro hd
    obtain ⟨ls, hls⟩ := List.getLast?_eq_some_iff.mp hlast
    rw [hls, List.dropLast_concat] at hd
    rw [hls, hd] at hs
    exact h (by simpa [List.intercalate] using hs.symm)
  · intro hd
    rw [hd] at hs
    exact h (by simpa [List.intercalate] using hs.symm)

omit [DecidableEq α] in
private theorem terminated_dropLast (c : α) {rs : List (List α)} (h : rs ≠ []) :
    (terminated [c] rs).dropLast = [c].intercalate rs := by
  induction rs with
  | nil => exact absurd rfl h
  | cons r rs ih =>
    cases rs with
    | nil => simp [List.intercalate]
    | cons q qs =>
      have hne : terminated [c] (q :: qs) ≠ [] := by simp
      rw [terminated_cons, List.dropLast_append_of_ne_nil hne, ih (by simp),
        List.intercalate_cons_of_ne_nil (l := r) (by simp)]

/-- Splitting undoes terminating once the last terminator is dropped. -/
theorem splitOn_terminated {c : α} {rs : List (List α)} (hne : rs ≠ [])
    (h : ∀ r ∈ rs, c ∉ r) : ((terminated [c] rs).dropLast).splitOn c = rs := by
  rw [terminated_dropLast c hne, List.splitOn_intercalate c h hne]

omit [DecidableEq α] in
private theorem terminated_eq_intercalate (c : α) (rs : List (List α)) :
    terminated [c] rs = [c].intercalate (rs ++ [[]]) := by
  induction rs with
  | nil => rfl
  | cons r rs ih => rw [terminated_cons, ih, List.cons_append, List.intercalate_cons_of_ne_nil (by simp)]

/-- The pieces of terminated records, and those of the text behind them. -/
theorem splitOn_terminated_append {c : α} {rs : List (List α)} (h : ∀ r ∈ rs, c ∉ r) (s : List α) :
    (terminated [c] rs ++ s).splitOn c = rs ++ s.splitOn c := by
  induction rs with
  | nil => rfl
  | cons r rs ih =>
    obtain ⟨hr, hrs⟩ := List.forall_mem_cons.mp h
    rw [terminated_cons, List.append_assoc, List.append_assoc, List.singleton_append, List.splitOn_append_cons_self,
      List.splitOn_eq_singleton hr, ih hrs, List.singleton_append, List.cons_append]

/-- The pieces of terminated records, with an empty one behind the last terminator. -/
theorem splitOn_terminated_concat {c : α} {rs : List (List α)} (h : ∀ r ∈ rs, c ∉ r) :
    (terminated [c] rs).splitOn c = rs ++ [[]] := by
  have := splitOn_terminated_append h []
  rwa [List.append_nil, List.splitOn_nil] at this

/-- The lines of terminated records are the records. -/
theorem getlines_terminated {c : α} {rs : List (List α)} (h : ∀ r ∈ rs, c ∉ r) : getlines c (terminated [c] rs) = rs := by
  rw [getlines, splitOn_terminated_concat h, List.getLast?_concat, if_pos rfl, List.dropLast_concat]

/-- Behind earlier text the lines are the records only where that text is empty. -/
theorem getlines_append_terminated_iff {c : α} {old : List α} {rs : List (List α)} (h : ∀ r ∈ rs, c ∉ r) :
    getlines c (old ++ terminated [c] rs) = rs ↔ old = [] := by
  constructor
  · intro hlines
    have hs : [c].intercalate ((old ++ terminated [c] rs).splitOn c) = old ++ terminated [c] rs := List.intercalate_splitOn c
    rw [getlines] at hlines
    split_ifs at hlines with hlast
    · obtain ⟨ls, hls⟩ := List.getLast?_eq_some_iff.mp hlast
      rw [hls, List.dropLast_concat] at hlines
      rw [hls, hlines, ← terminated_eq_intercalate] at hs
      exact (List.self_eq_append_left.mp hs)
    · -- without an empty last piece the text would be shorter than its end
      have hne : rs ≠ [] := by
        rw [← hlines]
        exact List.splitOn_ne_nil c _
      have hpos : terminated [c] rs ≠ [] := by
        cases rs with
        | nil => exact absurd rfl hne
        | cons r rs => simp
      have hlen := congrArg List.length hs
      rw [hlines, ← terminated_dropLast c hne, List.length_dropLast, List.length_append] at hlen
      have := List.length_pos_of_ne_nil hpos
      omega
  · rintro rfl
    exact getlines_terminated h

/-- The text after the last separator. -/
def afterLast (c : α) (s : List α) : List α := s.rtakeWhile (· ≠ c)

private theorem ne_of_mem_reverse {c : α} {r : List α} (h : c ∉ r) : ∀ x ∈ r.reverse, decide (x ≠ c) = true := by
  intro x hx
  rw [List.mem_reverse] at hx
  exact decide_eq_true fun he => h (he ▸ hx)

theorem afterLast_eq_self {c : α} {r : List α} (h : c ∉ r) : afterLast c r = r := by
  rw [afterLast, List.rtakeWhile, List.takeWhile_eq_self_iff.mpr (ne_of_mem_reverse h), List.reverse_reverse]

theorem afterLast_append {c : α} (s : List α) {r : List α} (h : c ∉ r) : afterLast c (s ++ c :: r) = r := by
  rw [afterLast, List.rtakeWhile, List.reverse_append, List.reverse_cons, List.append_assoc,
    List.takeWhile_append_of_pos (ne_of_mem_reverse h)]
  simp

/-- The text up to the last separator. -/
theorem rdropWhile_append {c : α} (s : List α) {r : List α} (h : c ∉ r) : (s ++ c :: r).rdropWhile (· ≠ c) = s ++ [c] := by
  rw [List.rdropWhile, List.reverse_append, List.reverse_cons, List.append_assoc,
    List.dropWhile_append_of_pos (ne_of_mem_reverse h)]
  simp

theorem afterLast_terminated {c : α} (rs : List (List α)) {r : List α} (h : c ∉ r) :
    afterLast c (terminated [c] (rs ++ [r])).dropLast = r := by
  have hd : (terminated [c] (rs ++ [r])).dropLast = terminated [c] rs ++ r := by simp
  rw [hd]
  induction rs using List.reverseRecOn with
  | nil => exact afterLast_eq_self h
  | append_singleton rs q _ =>
    have hlast : terminated [c] (rs ++ [q]) ++ r = (terminated [c] rs ++ q) ++ c :: r := by simp
    rw [hlast]
    exact afterLast_append _ h

end LtlFuzzer.Foundation.Delimiters
