import LtlFuzzer.Aflgo.Bitmap
import LtlFuzzer.Foundation.Coverage
import Mathlib.Data.Finset.Prod
import Mathlib.Tactic.IntervalCases

/-! What a campaign of runs leaves of a virgin map, and which of the runs are found to be new. -/
namespace LtlFuzzer.Aflgo
open Foundation Coverage

/-- A map after memset with 255. -/
def Bitmap.untouched : Bitmap where
  words := List.replicate (mapSize >>> 3) (BitVec.allOnes 64)
  size := List.length_replicate

/-- What has_new_bits reports of one run after the other, all of them against one map. -/
def Bitmap.reports (virginMap : Bitmap) : List Bitmap → List Nat
  | [] => []
  | t :: traces => (t.hasNewBits virginMap).1 :: (t.hasNewBits virginMap).2.reports traces

def Bitmap.virginAfter (virginMap : Bitmap) (traces : List Bitmap) : Bitmap :=
  traces.foldl (fun v t => (t.hasNewBits v).2) virginMap

/-- The set bits of a map: an edge, and a bucket of its count. -/
def Bitmap.cells (m : Bitmap) : Finset (Nat × Nat) :=
  (Finset.range mapSize ×ˢ Finset.range 8).filter fun c => (m.at c.1).getLsbD c.2

def Bitmap.edges (m : Bitmap) : Finset Nat := (Finset.range mapSize).filter fun i => m.at i ≠ 0

def Bitmap.pristine (m : Bitmap) : Finset Nat := (Finset.range mapSize).filter fun i => m.at i = 0xff

private theorem and_not_eq_ff {v c : BitVec 8} : v &&& ~~~c = 0xff ↔ v = 0xff ∧ ¬c ≠ 0 := by
  rw [show (0xff : BitVec 8) = BitVec.allOnes 8 from rfl, BitVec.and_eq_allOnes_iff, not_not]
  refine and_congr_right fun _ => ?_
  rw [← BitVec.not_inj (x := c), BitVec.ofNat_eq_ofNat, BitVec.not_zero]

@[simp] theorem cells_hasNewBits (t v : Bitmap) : (t.hasNewBits v).2.cells = v.cells \ t.cells := by
  ext ⟨i, b⟩
  by_cases hb : b < 8
  · simp [Bitmap.cells, hasNewBits_at, hb]
    tauto
  · simp [Bitmap.cells, hb]

@[simp] theorem pristine_hasNewBits (t v : Bitmap) : (t.hasNewBits v).2.pristine = v.pristine \ t.edges := by
  ext i
  simp only [Bitmap.pristine, Bitmap.edges, hasNewBits_at, Finset.mem_sdiff, Finset.mem_filter, and_not_eq_ff]
  tauto

private theorem and_ne_zero_iff {a b : BitVec 8} : a &&& b ≠ 0 ↔ ∃ j < 8, b.getLsbD j ∧ a.getLsbD j := by
  rw [ne_eq, BitVec.eq_of_getLsbD_eq_iff, not_forall]
  simp [and_comm]

theorem hasNewBits_ne_zero_iff (t v : Bitmap) : (t.hasNewBits v).1 ≠ 0 ↔ v.cells ⊓ t.cells ≠ ⊥ := by
  rw [(hasNewBits_fst t v).2.2, Finset.bot_eq_empty, ← Finset.nonempty_iff_ne_empty]
  constructor
  · rintro ⟨i, hi, h⟩
    obtain ⟨j, hj, hv, ht⟩ := and_ne_zero_iff.mp h
    refine ⟨(i, j), ?_⟩
    simp [Bitmap.cells, hi, hj, hv, ht]
  · rintro ⟨⟨i, j⟩, h⟩
    simp only [Bitmap.cells, Finset.inf_eq_inter, Finset.mem_inter, Finset.mem_filter, Finset.mem_product,
      Finset.mem_range] at h
    exact ⟨i, h.1.1.1, and_ne_zero_iff.mpr ⟨j, h.1.1.2, h.1.2, h.2.2⟩⟩

theorem hasNewBits_eq_two_iff (t v : Bitmap) : (t.hasNewBits v).1 = 2 ↔ v.pristine ⊓ t.edges ≠ ⊥ := by
  rw [(hasNewBits_fst t v).2.1, Finset.bot_eq_empty, ← Finset.nonempty_iff_ne_empty]
  constructor
  · rintro ⟨i, hi, ht, hv⟩
    exact ⟨i, by simpa [Bitmap.pristine, Bitmap.edges, hi, hv] using ht⟩
  · rintro ⟨i, h⟩
    simp only [Bitmap.pristine, Bitmap.edges, Finset.inf_eq_inter, Finset.mem_inter, Finset.mem_filter,
      Finset.mem_range] at h
    exact ⟨i, h.1.1, h.2.2, h.1.2⟩

/-- The virgin map is what the traces have not shown, bit by bit and edge by edge. -/
theorem cells_virginAfter (v : Bitmap) (traces : List Bitmap) :
    (v.virginAfter traces).cells = v.cells \ seen (traces.map Bitmap.cells) := by
  rw [← crossedOff_eq, crossedOff, List.foldl_map, Bitmap.virginAfter]
  induction traces generalizing v with
  | nil => rfl
  | cons t traces ih => rw [List.foldl_cons, List.foldl_cons, ih, cells_hasNewBits]

theorem pristine_virginAfter (v : Bitmap) (traces : List Bitmap) :
    (v.virginAfter traces).pristine = v.pristine \ seen (traces.map Bitmap.edges) := by
  rw [← crossedOff_eq, crossedOff, List.foldl_map, Bitmap.virginAfter]
  induction traces generalizing v with
  | nil => rfl
  | cons t traces ih => rw [List.foldl_cons, List.foldl_cons, ih, pristine_hasNewBits]

theorem count_reports_ne_zero (v : Bitmap) (traces : List Bitmap) :
    (v.reports traces).countP (· ≠ 0) = novelties v.cells (traces.map Bitmap.cells) := by
  induction traces generalizing v with
  | nil => rfl
  | cons t traces ih =>
    rw [Bitmap.reports, List.countP_cons, ih, cells_hasNewBits, List.map_cons, novelties, Nat.add_comm]
    congr 1
    simp only [decide_eq_true_eq, hasNewBits_ne_zero_iff, ite_not]

theorem count_reports_eq_two (v : Bitmap) (traces : List Bitmap) :
    (v.reports traces).countP (· = 2) = novelties v.pristine (traces.map Bitmap.edges) := by
  induction traces generalizing v with
  | nil => rfl
  | cons t traces ih =>
    rw [Bitmap.reports, List.countP_cons, ih, pristine_hasNewBits, List.map_cons, novelties, Nat.add_comm]
    congr 1
    simp only [decide_eq_true_eq, hasNewBits_eq_two_iff, ite_not]

private theorem untouched_at {i : Nat} (hi : i < mapSize) : Bitmap.untouched.at i = 0xff := by
  have hword : Bitmap.untouched.words.getD (i / 8) 0 = BitVec.allOnes 64 := by
    rw [List.getD_eq_getElem?_getD, List.getElem?_eq_getElem (word_lt _ hi), Bitmap.untouched]
    exact List.getElem_replicate _
  have hk : i % 8 < 8 := Nat.mod_lt i (by decide)
  rw [Bitmap.at, bytesOf, hword]
  generalize i % 8 = k at *
  interval_cases k <;> rfl

private theorem cells_untouched : Bitmap.untouched.cells = Finset.range mapSize ×ˢ Finset.range 8 := by
  refine Finset.filter_true_of_mem fun c hc => ?_
  obtain ⟨hi, hb⟩ := Finset.mem_product.mp hc
  rw [untouched_at (Finset.mem_range.mp hi), show (0xff : BitVec 8) = BitVec.allOnes 8 from rfl, BitVec.getLsbD_allOnes]
  exact decide_eq_true (Finset.mem_range.mp hb)

private theorem pristine_untouched : Bitmap.untouched.pristine = Finset.range mapSize :=
  Finset.filter_true_of_mem fun _ hi => untouched_at (Finset.mem_range.mp hi)

/-- Against a map nothing was crossed off at first: two for an edge no trace had, nonzero for a bit no trace had. -/
theorem hasNewBits_virginAfter (past : List Bitmap) (t : Bitmap) :
    ((t.hasNewBits (Bitmap.untouched.virginAfter past)).1 = 2 ↔
      ∃ i < mapSize, t.at i ≠ 0 ∧ ∀ p ∈ past, p.at i = 0) ∧
    ((t.hasNewBits (Bitmap.untouched.virginAfter past)).1 ≠ 0 ↔
      ∃ i < mapSize, ∃ b < 8, (t.at i).getLsbD b ∧ ∀ p ∈ past, ¬(p.at i).getLsbD b) := by
  constructor
  · rw [hasNewBits_eq_two_iff, pristine_virginAfter, pristine_untouched, Finset.bot_eq_empty,
      ← Finset.nonempty_iff_ne_empty]
    refine exists_congr fun i => ?_
    simp only [Finset.inf_eq_inter, Finset.mem_inter, Finset.mem_sdiff, mem_seen, List.mem_map, Bitmap.edges,
      Finset.mem_filter, Finset.mem_range]
    constructor
    · rintro ⟨⟨-, hpast⟩, hi, ht⟩
      exact ⟨hi, ht, fun p hp => by_contra fun h => hpast ⟨_, ⟨p, hp, rfl⟩, by simpa [hi] using h⟩⟩
    · rintro ⟨hi, ht, hpast⟩
      refine ⟨⟨hi, ?_⟩, hi, ht⟩
      rintro ⟨_, ⟨p, hp, rfl⟩, hmem⟩
      exact (Finset.mem_filter.mp hmem).2 (hpast p hp)
  · rw [hasNewBits_ne_zero_iff, cells_virginAfter, cells_untouched, Finset.bot_eq_empty,
      ← Finset.nonempty_iff_ne_empty]
    constructor
    · rintro ⟨⟨i, b⟩, h⟩
      simp only [Finset.inf_eq_inter, Finset.mem_inter, Finset.mem_sdiff, mem_seen, List.mem_map, Bitmap.cells,
        Finset.mem_filter, Finset.mem_product, Finset.mem_range] at h
      obtain ⟨⟨⟨hi, hb⟩, hpast⟩, -, ht⟩ := h
      exact ⟨i, hi, b, hb, ht, fun p hp h => hpast ⟨_, ⟨p, hp, rfl⟩, by simpa [hi, hb] using h⟩⟩
    · rintro ⟨i, hi, b, hb, ht, hpast⟩
      refine ⟨(i, b), ?_⟩
      simp only [Finset.inf_eq_inter, Finset.mem_inter, Finset.mem_sdiff, mem_seen, List.mem_map, Bitmap.cells,
        Finset.mem_filter, Finset.mem_product, Finset.mem_range]
      refine ⟨⟨⟨hi, hb⟩, ?_⟩, ⟨hi, hb⟩, ht⟩
      rintro ⟨_, ⟨p, hp, rfl⟩, hmem⟩
      exact hpast p hp (Finset.mem_filter.mp hmem).2

private theorem countClassLookup8_mem (b : BitVec 8) :
    countClassLookup8 b ∈ ([0, 1, 2, 4, 8, 16, 32, 64, 128] : List (BitVec 8)) := by
  rw [countClassLookup8]
  split_ifs <;> decide

theorem countClassLookup8_eq_zero_iff {b : BitVec 8} : countClassLookup8 b = 0 ↔ b = 0 := by
  rw [countClassLookup8]
  split_ifs with h
  · exact iff_of_true rfl (BitVec.eq_of_toNat_eq h)
  all_goals exact iff_of_false (by decide) fun h0 => h (by rw [h0]; rfl)

/-- A bucket is one bit: two counts share a bit exactly where they share the bucket. -/
private theorem bucket_bit (a : BitVec 8) (others : List (BitVec 8)) :
    (∃ b < 8, (countClassLookup8 a).getLsbD b ∧ ∀ c ∈ others, ¬(countClassLookup8 c).getLsbD b) ↔
      a ≠ 0 ∧ ∀ c ∈ others, countClassLookup8 c ≠ countClassLookup8 a := by
  have hone : ∀ x ∈ ([0, 1, 2, 4, 8, 16, 32, 64, 128] : List (BitVec 8)), x ≠ 0 → ∃ b < 8, x.getLsbD b := by decide
  have hsame : ∀ x ∈ ([0, 1, 2, 4, 8, 16, 32, 64, 128] : List (BitVec 8)),
      ∀ y ∈ ([0, 1, 2, 4, 8, 16, 32, 64, 128] : List (BitVec 8)), ∀ b < 8, x.getLsbD b → y.getLsbD b → x = y := by decide
  constructor
  · rintro ⟨b, -, ha, hothers⟩
    refine ⟨?_, fun c hc he => hothers c hc (he ▸ ha)⟩
    rintro rfl
    rw [countClassLookup8_eq_zero_iff.mpr rfl] at ha
    simp at ha
  · rintro ⟨ha, hothers⟩
    obtain ⟨b, hb, hbit⟩ := hone _ (countClassLookup8_mem a) (mt countClassLookup8_eq_zero_iff.mp ha)
    exact ⟨b, hb, hbit, fun c hc hcb =>
      hothers c hc (hsame _ (countClassLookup8_mem c) _ (countClassLookup8_mem a) b hb hcb hbit)⟩

/-- Against the runs so far, two is reported exactly for a run that takes an edge none of them took, and
something new exactly for one that takes an edge as often as none of them did, bucket by bucket. -/
theorem new_coverage_iff (past : List Bitmap) (t : Bitmap) :
    ((t.classifyCounts.hasNewBits (Bitmap.untouched.virginAfter (past.map Bitmap.classifyCounts))).1 = 2 ↔
      ∃ i < mapSize, t.at i ≠ 0 ∧ ∀ p ∈ past, p.at i = 0) ∧
    ((t.classifyCounts.hasNewBits (Bitmap.untouched.virginAfter (past.map Bitmap.classifyCounts))).1 ≠ 0 ↔
      ∃ i < mapSize, t.at i ≠ 0 ∧ ∀ p ∈ past, countClassLookup8 (p.at i) ≠ countClassLookup8 (t.at i)) := by
  obtain ⟨htwo, hnew⟩ := hasNewBits_virginAfter (past.map Bitmap.classifyCounts) t.classifyCounts
  refine ⟨htwo.trans ?_, hnew.trans ?_⟩
  · refine exists_congr fun i => and_congr_right fun hi => ?_
    simp only [List.forall_mem_map, classifyCounts_at _ hi, ne_eq, countClassLookup8_eq_zero_iff]
  · refine exists_congr fun i => and_congr_right fun hi => ?_
    have hbucket := bucket_bit (t.at i) (past.map fun p => p.at i)
    simp only [List.forall_mem_map] at hbucket ⊢
    simpa only [classifyCounts_at _ hi] using hbucket

/-- However long a campaign is, at most as many runs are new as there are buckets of edges, and at most
as many take a new edge as there are edges. -/
theorem new_coverage_bounded (traces : List Bitmap) :
    (Bitmap.untouched.reports traces).countP (· ≠ 0) ≤ 8 * mapSize ∧
    (Bitmap.untouched.reports traces).countP (· = 2) ≤ mapSize := by
  rw [count_reports_ne_zero, count_reports_eq_two, cells_untouched, pristine_untouched]
  constructor
  · refine (novelties_le Finset.card Finset.card_strictMono _ _).trans ?_
    rw [Finset.card_product, Finset.card_range, Finset.card_range, Nat.mul_comm]
  · refine (novelties_le Finset.card Finset.card_strictMono _ _).trans ?_
    rw [Finset.card_range]

private theorem simplifyLookup_bit (a : BitVec 8) (b : Nat) :
    (simplifyLookup a).getLsbD b ↔ a = 0 ∧ b = 0 ∨ a ≠ 0 ∧ b = 7 := by
  have hone : (1 : BitVec 8).getLsbD b ↔ b = 0 := by
    rw [show (1 : BitVec 8) = BitVec.twoPow 8 0 from rfl, BitVec.getLsbD_twoPow]
    simp [eq_comm]
  have htop : (128 : BitVec 8).getLsbD b ↔ b = 7 := by
    rw [show (128 : BitVec 8) = BitVec.twoPow 8 7 from rfl, BitVec.getLsbD_twoPow]
    simp [eq_comm]
  rw [simplifyLookup]
  by_cases ha : a = 0
  · rw [if_pos ha, hone]
    exact ⟨fun h => Or.inl ⟨ha, h⟩, fun h => h.elim And.right fun h => absurd ha h.1⟩
  · rw [if_neg ha, htop]
    exact ⟨fun h => Or.inr ⟨ha, h⟩, fun h => h.elim (fun h => absurd h.1 ha) And.right⟩

/-- Against the crashes so far, a crash is new exactly if it takes an edge none of them took or avoids an edge
all of them took, and two is reported of the first one only. -/
theorem new_crash_iff (past : List Bitmap) (t : Bitmap) :
    ((t.simplifyTrace.hasNewBits (Bitmap.untouched.virginAfter (past.map Bitmap.simplifyTrace))).1 ≠ 0 ↔
      ∃ i < mapSize, (t.at i ≠ 0 ∧ ∀ p ∈ past, p.at i = 0) ∨ (t.at i = 0 ∧ ∀ p ∈ past, p.at i ≠ 0)) ∧
    ((t.simplifyTrace.hasNewBits (Bitmap.untouched.virginAfter (past.map Bitmap.simplifyTrace))).1 = 2 ↔ past = []) := by
  obtain ⟨htwo, hnew⟩ := hasNewBits_virginAfter (past.map Bitmap.simplifyTrace) t.simplifyTrace
  refine ⟨hnew.trans ?_, htwo.trans ?_⟩
  · refine exists_congr fun i => and_congr_right fun hi => ?_
    simp only [List.forall_mem_map, simplifyTrace_at _ hi, simplifyLookup_bit]
    constructor
    · rintro ⟨b, -, ⟨ht, rfl⟩ | ⟨ht, rfl⟩, hpast⟩
      · exact Or.inr ⟨ht, fun p hp h => hpast p hp (Or.inl ⟨h, rfl⟩)⟩
      · exact Or.inl ⟨ht, fun p hp => by_contra fun h => hpast p hp (Or.inr ⟨h, rfl⟩)⟩
    · rintro (⟨ht, hpast⟩ | ⟨ht, hpast⟩)
      · exact ⟨7, by decide, Or.inr ⟨ht, rfl⟩, fun p hp h => h.elim (fun h => absurd h.2 (by decide)) fun h => h.1 (hpast p hp)⟩
      · exact ⟨0, by decide, Or.inl ⟨ht, rfl⟩, fun p hp h => h.elim (fun h => hpast p hp h.1) fun h => absurd h.2 (by decide)⟩
  · have hne (m : Bitmap) {i : Nat} (hi : i < mapSize) : m.simplifyTrace.at i ≠ 0 := by
      rw [simplifyTrace_at m hi, simplifyLookup]
      split <;> decide
    constructor
    · rintro ⟨i, hi, -, hpast⟩
      refine List.eq_nil_iff_forall_not_mem.mpr fun p hp => ?_
      exact hne p hi (hpast _ (List.mem_map_of_mem hp))
    · rintro rfl
      exact ⟨0, mapSize_pos, hne t mapSize_pos, fun p hp => absurd hp List.not_mem_nil⟩

private theorem cells_simplifyTrace_le (t : Bitmap) : t.simplifyTrace.cells ≤ Finset.range mapSize ×ˢ {0, 7} := by
  rintro ⟨i, b⟩ h
  simp only [Bitmap.cells, Finset.mem_filter, Finset.mem_product, Finset.mem_range] at h
  obtain ⟨⟨hi, -⟩, hbit⟩ := h
  rw [simplifyTrace_at t hi, simplifyLookup_bit] at hbit
  refine Finset.mem_product.mpr ⟨Finset.mem_range.mpr hi, ?_⟩
  rcases hbit with ⟨-, rfl⟩ | ⟨-, rfl⟩ <;> simp

/-- What one crash leaves to the later ones: one of two bits for each edge. -/
private theorem card_left (t : Bitmap) :
    ((Bitmap.untouched.cells \ t.simplifyTrace.cells) ⊓ Finset.range mapSize ×ˢ {0, 7}).card ≤ mapSize := by
  have hmem (c : Nat × Nat) (hc : c ∈ (Bitmap.untouched.cells \ t.simplifyTrace.cells) ⊓ Finset.range mapSize ×ˢ {0, 7}) :
      c.1 < mapSize ∧ (c.2 = if t.at c.1 = 0 then 7 else 0) := by
    obtain ⟨hleft, hbits⟩ := Finset.mem_inter.mp hc
    obtain ⟨hi, hb⟩ := Finset.mem_product.mp hbits
    rw [Finset.mem_range] at hi
    have hnot : ¬(t.simplifyTrace.at c.1).getLsbD c.2 := fun h => (Finset.mem_sdiff.mp hleft).2 (by
      rw [cells_untouched] at hleft
      exact Finset.mem_filter.mpr ⟨(Finset.mem_sdiff.mp hleft).1, h⟩)
    rw [simplifyTrace_at t hi, simplifyLookup_bit] at hnot
    refine ⟨hi, ?_⟩
    rcases Finset.mem_insert.mp hb with h0 | h7
    · rw [h0, if_neg fun h => hnot (Or.inl ⟨h, h0⟩)]
    · rw [Finset.mem_singleton] at h7
      rw [h7, if_pos (by_contra fun h => hnot (Or.inr ⟨h, h7⟩))]
  calc _ ≤ (Finset.range mapSize).card := Finset.card_le_card_of_injOn Prod.fst
        (fun c hc => Finset.mem_coe.mpr (Finset.mem_range.mpr (hmem c hc).1))
        fun c hc d hd hcd => Prod.ext hcd (by rw [(hmem c hc).2, (hmem d hd).2, hcd])
    _ = mapSize := Finset.card_range mapSize

/-- However many crashes there are, at most one for each edge is new after the first. -/
theorem new_crashes_bounded (crashes : List Bitmap) :
    (Bitmap.untouched.reports (crashes.map Bitmap.simplifyTrace)).countP (· ≠ 0) ≤ mapSize + 1 := by
  rw [count_reports_ne_zero]
  cases crashes with
  | nil => exact Nat.zero_le _
  | cons t crashes =>
    have hshown : ∀ c ∈ (crashes.map Bitmap.simplifyTrace).map Bitmap.cells, c ≤ Finset.range mapSize ×ˢ {0, 7} := by
      simp only [List.forall_mem_map]
      exact fun p _ => cells_simplifyTrace_le p
    rw [List.map_cons, List.map_cons, novelties, ← novelties_inf hshown]
    have hrest := (novelties_le Finset.card Finset.card_strictMono _
      ((crashes.map Bitmap.simplifyTrace).map Bitmap.cells)).trans (card_left t)
    split <;> omega

end LtlFuzzer.Aflgo
