import Mathlib.Data.List.Basic
import Mathlib.Data.List.Induction
import Mathlib.Data.List.Nodup
import Mathlib.Tactic.Common
import Std.Data.TreeMap.Lemmas

/-! Association lists, and the ordered maps built from them. -/
namespace LtlFuzzer.Foundation
variable {κ ν : Type} [BEq κ] [LawfulBEq κ]

theorem mem_of_lookup {l : List (κ × ν)} {k : κ} {v : ν} (h : l.lookup k = some v) : (k, v) ∈ l := by
  obtain ⟨l₁, l₂, rfl, _⟩ := List.lookup_eq_some_iff.mp h
  simp

/-- Distinct keys make lookup membership. -/
theorem lookup_eq_some_iff_mem {l : List (κ × ν)} (hn : (l.map Prod.fst).Nodup) {k : κ} {v : ν} :
    l.lookup k = some v ↔ (k, v) ∈ l := by
  refine ⟨mem_of_lookup, fun h => ?_⟩
  obtain ⟨l₁, l₂, rfl⟩ := List.append_of_mem h
  refine List.lookup_eq_some_iff.mpr ⟨l₁, l₂, rfl, fun p hp => ?_⟩
  rw [List.map_append, List.nodup_append] at hn
  have hne := hn.2.2 p.1 (List.mem_map_of_mem hp) k (by simp)
  simpa using fun he => hne he.symm

section
variable {κ ν : Type} [Ord κ] [Std.TransOrd κ] [Std.LawfulEqOrd κ] [BEq κ] [LawfulBEq κ]

/-- In a map built by assignments the last one to a key stands. -/
theorem getElem?_foldl_insert (l : List (κ × ν)) (k : κ) :
    (l.foldl (fun m e => m.insert e.1 e.2) (∅ : Std.TreeMap κ ν))[k]? = l.reverse.lookup k := by
  induction l using List.reverseRecOn with
  | nil => exact Std.TreeMap.getElem?_emptyc
  | append_singleton l e ih =>
    rw [List.foldl_append, List.foldl_cons, List.foldl_nil, Std.TreeMap.getElem?_insert,
      List.reverse_append, List.reverse_singleton, List.singleton_append, List.lookup_cons, ih]
    by_cases h : e.1 = k
    · simp [h]
    · have hk : (k == e.1) = false := by simpa using fun he => h he.symm
      simp [h, hk]

omit [BEq κ] [LawfulBEq κ] in
private theorem first_of_find?_value [DecidableEq ν] {m : Std.TreeMap κ ν} {e : κ × ν} {v : ν}
    (h : (m.toList.find? fun e => e.2 = v) = some e) :
    m[e.1]? = some v ∧ ∀ k, compare k e.1 = .lt → m[k]? ≠ some v := by
  obtain ⟨hv, as, bs, hl, has⟩ := List.find?_eq_some_iff_append.mp h
  obtain rfl : e.2 = v := of_decide_eq_true hv
  have hsorted := m.ordered_keys_toList
  rw [hl] at hsorted
  have hmem (k : κ) (w : ν) : (k, w) ∈ as ++ e :: bs ↔ m[k]? = some w := by
    rw [← hl, Std.TreeMap.mem_toList_iff_getElem?_eq_some]
  refine ⟨(hmem e.1 e.2).mp (by simp), fun k hlt hk => ?_⟩
  rcases List.mem_append.mp ((hmem k e.2).mpr hk) with hin | hin
  · simpa using has _ hin
  · rcases List.mem_cons.mp hin with he | hin
    · have heq : compare k e.1 = .eq := Std.LawfulEqOrd.compare_eq_iff_eq.mpr (congrArg Prod.fst he)
      exact absurd (heq.symm.trans hlt) (by simp)
    · have hgt := List.rel_of_pairwise_cons (List.pairwise_append.mp hsorted).2.1 hin
      exact absurd (Std.TransCmp.lt_trans hgt hlt) (by simp)

omit [BEq κ] [LawfulBEq κ] in
/-- Searching an ordered map for a value finds its first key. -/
theorem find?_value_eq_some [DecidableEq ν] {m : Std.TreeMap κ ν} {k : κ} {v : ν} :
    (m.toList.find? fun e => e.2 = v).map Prod.fst = some k ↔
      m[k]? = some v ∧ ∀ k', compare k' k = .lt → m[k']? ≠ some v := by
  constructor
  · intro h
    obtain ⟨e, hf, rfl⟩ := Option.map_eq_some_iff.mp h
    exact first_of_find?_value hf
  · rintro ⟨hk, hfirst⟩
    have hin : (k, v) ∈ m.toList := Std.TreeMap.mem_toList_iff_getElem?_eq_some.mpr hk
    obtain ⟨e, hf⟩ : ∃ e, (m.toList.find? fun e => e.2 = v) = some e := by
      rw [← Option.isSome_iff_exists, List.find?_isSome]
      exact ⟨_, hin, by simp⟩
    obtain ⟨he, hefirst⟩ := first_of_find?_value hf
    rw [hf, Option.map_some, Option.some.injEq, ← Std.LawfulEqOrd.compare_eq_iff_eq]
    cases hc : compare e.1 k with
    | lt => exact absurd he (hfirst e.1 hc)
    | eq => rfl
    | gt => exact absurd hk (hefirst k (Std.OrientedCmp.lt_of_gt hc))

end

section
variable {κ ν : Type} [Ord κ] [Std.TransOrd κ] [Std.LawfulEqOrd κ] [Ord ν] [Std.TransOrd ν] [Std.LawfulEqOrd ν]

/-- Put a value into the set under a key, or into a new set. -/
def file (m : Std.TreeMap κ (Std.TreeSet ν)) (k : κ) (v : ν) : Std.TreeMap κ (Std.TreeSet ν) :=
  match m[k]? with
  | none => m.insert k ((∅ : Std.TreeSet ν).insert v)
  | some s => m.insert k (s.insert v)

def Filed (m : Std.TreeMap κ (Std.TreeSet ν)) (k : κ) (v : ν) : Prop := ∃ s, m[k]? = some s ∧ v ∈ s

omit [Std.TransOrd ν] [Std.LawfulEqOrd ν] in
private theorem file_getElem?_self (m : Std.TreeMap κ (Std.TreeSet ν)) (k : κ) (v : ν) :
    (file m k v)[k]? = some ((m[k]?.getD ∅).insert v) := by
  rw [file]
  cases m[k]? <;> simp

omit [Std.TransOrd ν] [Std.LawfulEqOrd ν] in
private theorem file_getElem?_of_ne (m : Std.TreeMap κ (Std.TreeSet ν)) {k k' : κ} (v : ν) (h : k ≠ k') :
    (file m k v)[k']? = m[k']? := by
  rw [file]
  cases m[k]? <;> simp [Std.TreeMap.getElem?_insert, h]

theorem filed_file {m : Std.TreeMap κ (Std.TreeSet ν)} {k k' : κ} {v v' : ν} :
    Filed (file m k v) k' v' ↔ Filed m k' v' ∨ k = k' ∧ v = v' := by
  by_cases hk : k = k'
  · subst hk
    rw [Filed, file_getElem?_self, Filed]
    cases m[k]? with
    | none => simp
    | some s => simp [or_comm]
  · rw [Filed, file_getElem?_of_ne m v hk, Filed]
    simp [hk]

/-- After filing a list of entries, each value is under its key. -/
theorem filed_foldl {l : List (κ × ν)} {k : κ} {v : ν} :
    Filed (l.foldl (fun m e => file m e.1 e.2) ∅) k v ↔ (k, v) ∈ l := by
  induction l using List.reverseRecOn with
  | nil => simp [Filed]
  | append_singleton l e ih =>
    rw [List.foldl_append, List.foldl_cons, List.foldl_nil, filed_file, ih, List.mem_append, List.mem_singleton,
      Prod.ext_iff, eq_comm (a := e.1), eq_comm (a := e.2)]

/-- No key stands without a value. -/
theorem exists_filed {l : List (κ × ν)} {k : κ} (h : k ∈ l.foldl (fun m e => file m e.1 e.2) (∅ : Std.TreeMap κ (Std.TreeSet ν))) :
    ∃ v, Filed (l.foldl (fun m e => file m e.1 e.2) ∅) k v := by
  induction l using List.reverseRecOn with
  | nil => simp at h
  | append_singleton l e ih =>
    rw [List.foldl_append, List.foldl_cons, List.foldl_nil] at h ⊢
    by_cases hk : e.1 = k
    · exact ⟨e.2, filed_file.mpr (.inr ⟨hk, rfl⟩)⟩
    · have hbefore : k ∈ l.foldl (fun m e => file m e.1 e.2) (∅ : Std.TreeMap κ (Std.TreeSet ν)) := by
        rwa [Std.TreeMap.mem_iff_isSome_getElem?, file_getElem?_of_ne _ _ hk, ← Std.TreeMap.mem_iff_isSome_getElem?] at h
      obtain ⟨v, hv⟩ := ih hbefore
      exact ⟨v, filed_file.mpr (.inl hv)⟩

end

end LtlFuzzer.Foundation
