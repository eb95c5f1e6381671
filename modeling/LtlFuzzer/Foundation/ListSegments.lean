import Mathlib.Data.List.Basic
import Mathlib.Data.List.Range
import Mathlib.Data.List.Nodup
import Mathlib.Data.List.Perm.Subperm

/-! Singly linked lists in a heap: segments of nodes from one pointer to another. -/
namespace LtlFuzzer.Foundation.ListSegments
variable {ν : Type}

/-- The pointers lead from a node over those of a list to another. -/
def Seg (next : ν → Option ν) : ν → List ν → ν → Prop
  | a, [], b => a = b
  | a, n :: l, b => a = n ∧ ∃ c, next n = some c ∧ Seg next c l b

variable {next next' : ν → Option ν} {a b c n : ν} {l l₁ l₂ l₃ l₄ : List ν}

theorem seg_append : Seg next a (l₁ ++ l₂) c ↔ ∃ b, Seg next a l₁ b ∧ Seg next b l₂ c := by
  induction l₁ generalizing a with
  | nil => simp [Seg]
  | cons n l₁ ih =>
    simp only [List.cons_append, Seg, ih]
    constructor
    · rintro ⟨ha, d, hd, b, h₁, h₂⟩
      exact ⟨b, ⟨ha, d, hd, h₁⟩, h₂⟩
    · rintro ⟨b, ⟨ha, d, hd, h₁⟩, h₂⟩
      exact ⟨ha, d, hd, b, h₁, h₂⟩

theorem seg_concat : Seg next a (l ++ [n]) b ↔ Seg next a l n ∧ next n = some b := by
  rw [seg_append]
  simp only [Seg]
  constructor
  · rintro ⟨m, hl, rfl, d, hd, rfl⟩
    exact ⟨hl, hd⟩
  · rintro ⟨hl, hn⟩
    exact ⟨n, hl, rfl, b, hn, rfl⟩

/-- Only the pointers of the nodes in between matter. -/
theorem Seg.congr (h : Seg next a l b) (hn : ∀ n ∈ l, next' n = next n) : Seg next' a l b := by
  induction l generalizing a with
  | nil => exact h
  | cons n l ih =>
    obtain ⟨ha, d, hd, hl⟩ := h
    obtain ⟨hhead, htail⟩ := List.forall_mem_cons.mp hn
    exact ⟨ha, d, hhead.trans hd, ih hl htail⟩

/-- A segment whose last node points elsewhere ends elsewhere. -/
theorem Seg.relink (h : Seg next a (l ++ [n]) b) (hn : ∀ m ∈ l, next' m = next m) (hlast : next' n = some c) :
    Seg next' a (l ++ [n]) c :=
  seg_concat.mpr ⟨(seg_concat.mp h).1.congr hn, hlast⟩

/-- Where a segment starts: at its first node, or where it ends. -/
theorem Seg.start (h : Seg next a l b) : (l ++ [b]).head? = some a := by
  cases l with
  | nil => exact congrArg some (Eq.symm h)
  | cons n l => exact congrArg some h.1.symm

theorem Seg.start_mem (h : Seg next a l b) : a ∈ l ++ [b] := List.mem_of_head? h.start

theorem Seg.head_mem (h : Seg next a l b) (hl : l ≠ []) : a ∈ l := by
  cases l with
  | nil => exact absurd rfl hl
  | cons n l => exact h.1 ▸ List.mem_cons_self

/-- A node in between points to one in between, or to where the segment ends. -/
theorem Seg.next_mem (h : Seg next a l b) (hn : n ∈ l) : ∃ c ∈ l ++ [b], next n = some c := by
  induction l generalizing a with
  | nil => cases hn
  | cons m l ih =>
    obtain ⟨rfl, d, hd, hl⟩ := h
    rcases List.mem_cons.mp hn with rfl | hn
    · exact ⟨d, List.mem_cons_of_mem _ hl.start_mem, hd⟩
    · obtain ⟨c, hc, hnc⟩ := ih hl hn
      exact ⟨c, List.mem_cons_of_mem _ hc, hnc⟩

private theorem ne_of_nodup_concat (h : (l ++ [n]).Nodup) (hc : c ∈ l) : c ≠ n :=
  (List.nodup_append.mp h).2.2 c hc n List.mem_cons_self

/-- The segment at the end takes the place of one before: three pointers are enough, and what is replaced is
left as a segment of its own. -/
theorem Seg.splice {x y t m : ν} {old : List ν} (h : Seg next a (l₁ ++ l₂ ++ l₃ ++ (l₄ ++ [x])) t)
    (hnodup : (l₁ ++ l₂ ++ l₃ ++ (l₄ ++ [x])).Nodup) (hold : l₂ ++ l₃ = old ++ [y]) (hm : (l₃ ++ [t]).head? = some m)
    (hx : next' x = some m) (hy : next' y = some t) (hp : ∀ p, l₁.getLast? = some p → next' p = next y)
    (hkeep : ∀ n, n ≠ x → n ≠ y → l₁.getLast? ≠ some n → next' n = next n) :
    ∃ first start, next y = some first ∧ Seg next a l₁ start ∧
      Seg next' (if l₁ = [] then first else a) (l₁ ++ (l₄ ++ [x]) ++ l₃) t ∧ Seg next' start l₂ m := by
  obtain ⟨v, h123, h4⟩ := seg_append.mp h
  obtain ⟨u, h12, h3⟩ := seg_append.mp h123
  obtain ⟨s, h1, h2⟩ := seg_append.mp h12
  obtain ⟨hnodup123, hnodup4, hdisjoint4⟩ := List.nodup_append.mp hnodup
  rw [List.append_assoc] at hnodup123
  obtain ⟨hnodup1, hnodup23, hdisjoint1⟩ := List.nodup_append.mp hnodup123
  have hmem4 (n : ν) (hn : n ∈ l₁ ++ (l₂ ++ l₃)) : n ∈ l₁ ++ l₂ ++ l₃ := by rwa [List.append_assoc]
  have hyv : next y = some v := by
    have h23 : Seg next s (l₂ ++ l₃) v := seg_append.mpr ⟨u, h2, h3⟩
    rw [hold] at h23
    exact (seg_concat.mp h23).2
  have hymem : y ∈ l₂ ++ l₃ := hold ▸ List.mem_append_right _ List.mem_cons_self
  have hxmem : x ∈ l₄ ++ [x] := List.mem_append_right _ List.mem_cons_self
  have hmiddle (n : ν) (hn : n ∈ l₂ ++ l₃) (hne : n ≠ y) : next' n = next n :=
    hkeep n (hdisjoint4 n (hmem4 n (List.mem_append_right _ hn)) x hxmem) hne fun hl =>
      hdisjoint1 n (List.mem_of_getLast? hl) n hn rfl
  have hinserted : Seg next' v (l₄ ++ [x]) m := by
    refine h4.relink (fun n hn => ?_) hx
    have hn' := List.mem_append_left [x] hn
    refine hkeep n (ne_of_nodup_concat hnodup4 hn) ?_ fun hl => ?_
    · exact (hdisjoint4 y (hmem4 y (List.mem_append_right _ hymem)) n hn').symm
    · exact hdisjoint4 n (hmem4 n (List.mem_append_left _ (List.mem_of_getLast? hl))) n hn' rfl
  have hafter : Seg next' m l₃ t := by
    rcases List.eq_nil_or_concat l₃ with rfl | ⟨k, z, rfl⟩
    · exact (Option.some.inj hm).symm
    · rw [List.concat_eq_append] at h3 hm hnodup23 hold hmiddle ⊢
      rw [← List.append_assoc] at hold
      obtain rfl : z = y := List.singleton_inj.mp (List.append_inj' hold rfl).2
      have hum : u = m := by
        have := h3.start
        rw [List.append_assoc] at this hm
        cases k <;> simp_all
      refine hum ▸ h3.relink (fun n hn => hmiddle n ?_ ?_) hy
      · exact List.mem_append_right _ (List.mem_append_left _ hn)
      · exact ne_of_nodup_concat (List.nodup_append.mp hnodup23).2.1 hn
  have hreplaced : Seg next' s l₂ m := by
    cases l₃ with
    | nil =>
      obtain rfl : t = m := Option.some.inj hm
      rw [List.append_nil] at hold hnodup23 hmiddle
      subst hold
      exact h2.relink (fun n hn => hmiddle n (List.mem_append_left _ hn) (ne_of_nodup_concat hnodup23 hn)) hy
    | cons z l₃ =>
      obtain rfl : z = m := Option.some.inj hm
      obtain ⟨rfl, -⟩ := h3
      refine h2.congr fun n hn => hmiddle n (List.mem_append_left _ hn) ?_
      rintro rfl
      -- the last one of both parts is in the second
      have hlast : n ∈ u :: l₃ := by
        have := congrArg List.getLast? hold
        rw [List.getLast?_append_of_ne_nil _ (List.cons_ne_nil u l₃), List.getLast?_concat] at this
        exact List.mem_of_getLast? this
      exact (List.nodup_append.mp hnodup23).2.2 n hn n hlast rfl
  refine ⟨v, s, hyv, h1, ?_, hreplaced⟩
  rw [List.append_assoc]
  rcases List.eq_nil_or_concat l₁ with rfl | ⟨k, p, rfl⟩
  · rw [List.nil_append, if_pos rfl]
    exact seg_append.mpr ⟨m, hinserted, hafter⟩
  · rw [List.concat_eq_append] at *
    have hpv : next' p = some v := (hp p (List.getLast?_concat ..)).trans hyv
    rw [if_neg (by simp)]
    refine seg_append.mpr ⟨v, h1.relink (fun n hn => ?_) hpv, seg_append.mpr ⟨m, hinserted, hafter⟩⟩
    have hn' := List.mem_append_left [p] hn
    refine hkeep n (hdisjoint4 n (hmem4 n (List.mem_append_left _ hn')) x hxmem) (hdisjoint1 n hn' y hymem) ?_
    rw [List.getLast?_concat, ne_eq, Option.some.injEq]
    exact (ne_of_nodup_concat hnodup1 hn).symm

end LtlFuzzer.Foundation.ListSegments
