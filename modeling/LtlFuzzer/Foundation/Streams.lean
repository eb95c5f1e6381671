import LtlFuzzer.Foundation.Numerals
import Mathlib.Data.List.DropRight
import Mathlib.Data.List.TakeWhile

/-! Reading words from a stream, and trimming blanks. -/
namespace LtlFuzzer.Foundation.Streams
open Numerals

/-- Reading a word: what the target holds afterwards, and the rest of the stream. A stream
that has only blanks left leaves the target as it was. -/
def nextToken (result rest : List Char) : List Char × List Char :=
  match rest.dropWhile isSpace with
  | [] => (result, [])
  | c :: s => ((c :: s).takeWhile (!isSpace ·), (c :: s).dropWhile (!isSpace ·))

theorem not_isSpace_of_mem_nextToken {rest : List Char} {c : Char} (h : c ∈ (nextToken [] rest).1) :
    isSpace c = false := by
  rw [nextToken] at h
  cases hr : rest.dropWhile isSpace with
  | nil => simp [hr] at h
  | cons d s =>
    rw [hr] at h
    simpa using List.mem_takeWhile_imp h

/-- The text without the blanks around it. -/
def trimmed (s : List Char) : List Char := (s.dropWhile isSpace).rdropWhile isSpace

theorem mem_of_mem_trimmed {s : List Char} {c : Char} (h : c ∈ trimmed s) : c ∈ s := by
  have hsub := List.rdropWhile_prefix isSpace (s.dropWhile isSpace)
  exact (List.dropWhile_sublist _).mem (hsub.mem h)

theorem trimmed_eq_self {s : List Char} (h : ∀ c ∈ s, isSpace c = false) : trimmed s = s := by
  have hd : s.dropWhile isSpace = s := List.dropWhile_eq_self_iff.mpr fun hl => by simp [h]
  rw [trimmed, hd]
  exact List.rdropWhile_eq_self_iff.mpr fun hl => by simp [h]

/-- A blank at the end does not show. -/
theorem trimmed_concat (s : List Char) {c : Char} (hc : isSpace c = true) : trimmed (s ++ [c]) = trimmed s := by
  rw [trimmed, trimmed, List.dropWhile_append]
  split_ifs with h
  · rw [List.isEmpty_iff.mp h, List.dropWhile_cons_of_pos hc]
    rfl
  · rw [List.rdropWhile_concat_pos _ _ _ hc]

/-- Trimming loses no other characters. -/
theorem mem_trimmed_iff {s : List Char} {c : Char} (hc : isSpace c = false) : c ∈ trimmed s ↔ c ∈ s := by
  refine ⟨mem_of_mem_trimmed, fun h => ?_⟩
  have hmem : c ∈ s.dropWhile isSpace := by
    rw [← List.takeWhile_append_dropWhile (p := isSpace) (l := s)] at h
    exact (List.mem_append.mp h).resolve_left fun ht => by simp [List.mem_takeWhile_imp ht] at hc
  rw [← List.rdropWhile_append_rtakeWhile (p := isSpace) (l := s.dropWhile isSpace)] at hmem
  exact (List.mem_append.mp hmem).resolve_right fun ht => by simp [List.mem_rtakeWhile_imp ht] at hc

end LtlFuzzer.Foundation.Streams
