import LtlFuzzer.Aflgo.Favorites

/-! What holds of the favorites in every state the fuzzer brings its queue to. -/
namespace LtlFuzzer.Aflgo
open Foundation Runs

/-- An entry is favored, and has these bits. -/
def FavoredWith (queue : List QueueEntry) (f : Nat) (m : List (BitVec 8)) : Prop :=
  ∃ e, queue[f]? = some e ∧ e.favored ∧ e.traceMini = some m

/-- Byte i is in the bits of a favored entry, or its winner is favored itself. -/
def Captured (queue : List QueueEntry) (i w : Nat) : Prop := ∃ f m, FavoredWith queue f m ∧ (bitAt m i ∨ f = w)

/-- Winners own the bits of their bytes, the counters are not below what they count, and while no score has
changed every byte that has a winner is captured. -/
structure Favorites.Consistent (s : Favorites) : Prop where
  slots : s.topRated.length = mapSize
  owned : Owned s.queue s.topRated
  notFuzzed : s.pendingNotFuzzed = (s.queue.countP (!·.wasFuzzed) : Nat)
  favored : (s.queue.countP (·.favored) : Nat) ≤ s.queuedFavored
  pending : (s.queue.countP fun e => e.favored && !e.wasFuzzed : Nat) ≤ s.pendingFavored
  captured : s.scoreChanged = false → ∀ i w, s.topRated[i]? = some (some w) → Captured s.queue i w

/-- An entry less its mark. -/
def QueueEntry.unmarked (e : QueueEntry) : QueueEntry := { e with favored := false, fsRedundant := false }

theorem getElem?_of_map_eq {α β : Type} {f : α → β} {l l' : List α} (h : l.map f = l'.map f) {i : Nat} {a : α}
    (ha : l[i]? = some a) : ∃ b, l'[i]? = some b ∧ f a = f b := by
  have hi := congrArg (·[i]?) h
  simp only [List.getElem?_map, ha, Option.map_some] at hi
  obtain ⟨b, hb, hfb⟩ := Option.map_eq_some_iff.mp hi.symm
  exact ⟨b, hb, hfb.symm⟩

/-- What is owned does not depend on the other fields. -/
private theorem owned_congr {queue queue' : List QueueEntry} {topRated : List (Option Nat)}
    (h : queue'.map (fun e => (e.tcRef, e.traceMini)) = queue.map fun e => (e.tcRef, e.traceMini)) (ho : Owned queue topRated) :
    Owned queue' topRated := by
  refine ⟨?_, ?_, ?_, ?_⟩
  · intro q e hq
    obtain ⟨e', hq', he⟩ := getElem?_of_map_eq h hq
    rw [(Prod.mk.inj he).1, ho.refs q e' hq']
  · intro q e hq
    obtain ⟨e', hq', he⟩ := getElem?_of_map_eq h hq
    rw [(Prod.mk.inj he).1, (Prod.mk.inj he).2, ho.kept q e' hq']
  · intro q e hq m hm
    obtain ⟨e', hq', he⟩ := getElem?_of_map_eq h hq
    exact ho.sized q e' hq' m ((Prod.mk.inj he).2 ▸ hm)
  · intro q hq
    have := congrArg List.length h
    rw [List.length_map, List.length_map] at this
    exact this ▸ ho.named q hq

private theorem owned_unmarked {queue queue' : List QueueEntry} {topRated : List (Option Nat)}
    (h : queue'.map QueueEntry.unmarked = queue.map QueueEntry.unmarked) (ho : Owned queue topRated) :
    Owned queue' topRated := by
  refine owned_congr ?_ ho
  have := congrArg (List.map fun e => (e.tcRef, e.traceMini)) h
  rwa [List.map_map, List.map_map] at this

private theorem favoredWith_set {queue : List QueueEntry} {w f : Nat} {e : QueueEntry} {m : List (BitVec 8)}
    (he : queue[w]? = some e) (hf : FavoredWith queue f m) : FavoredWith (queue.set w { e with favored := true }) f m := by
  obtain ⟨e', hf, hfav, hm⟩ := hf
  by_cases h : w = f
  · obtain rfl := h
    obtain rfl := Option.some.inj (he.symm.trans hf)
    refine ⟨{ e with favored := true }, ?_, rfl, hm⟩
    rw [List.getElem?_set, if_pos rfl, if_pos (List.getElem?_eq_some_iff.mp he).1]
  · exact ⟨e', by rw [List.getElem?_set, if_neg h, hf], hfav, hm⟩

/-- What the culling has reached after some of the bytes: the marks so far capture them, and are counted. -/
structure Culling (s : Favorites) (past : List Nat) (r : List (BitVec 8) × Favorites) : Prop where
  length : r.1.length = mapSize >>> 3
  same : ∃ queue queuedFavored pendingFavored, r.2 =
    ⟨queue, s.topRated, false, queuedFavored, pendingFavored, s.pendingNotFuzzed⟩
  unmarked : r.2.queue.map QueueEntry.unmarked = s.queue.map QueueEntry.unmarked
  gone : ∀ i < mapSize, bitAt r.1 i = false → ∃ f m, FavoredWith r.2.queue f m ∧ bitAt m i
  captured : ∀ i ∈ past, ∀ w, s.topRated[i]? = some (some w) → Captured r.2.queue i w
  favored : (r.2.queue.countP (·.favored) : Nat) ≤ r.2.queuedFavored
  pending : (r.2.queue.countP fun e => e.favored && !e.wasFuzzed : Nat) ≤ r.2.pendingFavored

theorem countP_set_le {queue : List QueueEntry} {w : Nat} {e : QueueEntry} (he : queue[w]? = some e)
    (p : QueueEntry → Bool) (e' : QueueEntry) : (queue.set w e').countP p ≤ queue.countP p + (p e').toNat := by
  rw [List.countP_set (List.getElem?_eq_some_iff.mp he).1]
  cases p e' <;> simp

private theorem culling_mark {s : Favorites} (h : s.Consistent) {past : List Nat} {i w : Nat} {e : QueueEntry}
    {mini : List (BitVec 8)} {r : List (BitVec 8) × Favorites} (hr : Culling s past r) (hw : s.topRated[i]? = some (some w))
    (he : r.2.queue[w]? = some e) (hmini : e.traceMini = some mini) : Culling s (past ++ [i]) (Favorites.mark r w e mini) := by
  have howned : Owned r.2.queue s.topRated := owned_unmarked hr.unmarked h.owned
  have hlen : mini.length = mapSize >>> 3 := howned.sized w e he mini hmini
  have hmarked : FavoredWith (r.2.queue.set w { e with favored := true }) w mini :=
    ⟨{ e with favored := true }, by rw [List.getElem?_set, if_pos rfl, if_pos (List.getElem?_eq_some_iff.mp he).1], rfl, hmini⟩
  refine ⟨?_, ?_, ?_, ?_, ?_, ?_, ?_⟩
  · rw [Favorites.mark, List.length_zipWith, hr.length, hlen, Nat.min_self]
  · obtain ⟨queue, queued, pending, heq⟩ := hr.same
    rw [Favorites.mark, heq]
    exact ⟨_, _, _, rfl⟩
  · have hset : (r.2.queue.set w { e with favored := true }).map QueueEntry.unmarked = r.2.queue.map QueueEntry.unmarked :=
      map_set_of_eq he rfl
    exact hset.trans hr.unmarked
  · intro j hj hgone
    rw [Favorites.mark, bitAt_zipWith (hr.length.trans hlen.symm), Bool.and_eq_false_iff, Bool.not_eq_false'] at hgone
    rcases hgone with hgone | hgone
    · obtain ⟨f, m, hf, hm⟩ := hr.gone j hj hgone
      exact ⟨f, m, favoredWith_set he hf, hm⟩
    · exact ⟨w, mini, hmarked, hgone⟩
  · intro j hj v hv
    rcases List.mem_append.mp hj with hj | hj
    · obtain ⟨f, m, hf, hm⟩ := hr.captured j hj v hv
      exact ⟨f, m, favoredWith_set he hf, hm⟩
    · obtain rfl := List.mem_singleton.mp hj
      rw [hw] at hv
      obtain rfl := Option.some.inj (Option.some.inj hv)
      exact ⟨w, mini, hmarked, Or.inr rfl⟩
  · have hle := countP_set_le he (·.favored) { e with favored := true }
    have := hr.favored
    rw [Bool.toNat_true] at hle
    rw [Favorites.mark]
    dsimp only
    omega
  · have hle := countP_set_le he (fun e => e.favored && !e.wasFuzzed) { e with favored := true }
    have := hr.pending
    rw [Favorites.mark]
    dsimp only at hle ⊢
    cases hfuzzed : e.wasFuzzed <;> simp only [hfuzzed, Bool.true_and, Bool.not_false, Bool.not_true, Bool.toNat_true,
      Bool.toNat_false, if_true, Bool.false_eq_true, if_false] at hle ⊢ <;> omega

theorem countP_of_map_eq {α β : Type} {f : α → β} {l l' : List α} (h : l.map f = l'.map f) (p : β → Bool) :
    l.countP (p ∘ f) = l'.countP (p ∘ f) := by
  rw [← List.countP_map, h, List.countP_map]

private theorem culling_start {s : Favorites} :
    Culling s [] (List.replicate (mapSize >>> 3) 0xff,
      { s with
        scoreChanged := false
        queuedFavored := 0
        pendingFavored := 0
        queue := s.queue.map fun e => { e with favored := false } }) := by
  refine ⟨List.length_replicate, ⟨_, _, _, rfl⟩, ?_, ?_, ?_, ?_, ?_⟩
  · rw [List.map_map]
    rfl
  · intro i hi hgone
    rw [bitAt_untouched hi] at hgone
    cases hgone
  · intro i hi
    cases hi
  · simp
  · simp

/-- The culling of consistent favorites completes: a winner's bits are there to be read. What every mark keeps is
kept, and nothing but the marks and their counters changes. -/
theorem cullQueue_completes {s : Favorites} (h : s.Consistent) (dumbMode : Bool) (R : List (BitVec 8) × Favorites → Prop)
    (h0 : R (List.replicate (mapSize >>> 3) 0xff,
      { s with
        scoreChanged := false
        queuedFavored := 0
        pendingFavored := 0
        queue := s.queue.map fun e => { e with favored := false } }))
    (hmark : ∀ past r i w e mini, Culling s past r → R r → s.topRated[i]? = some (some w) → r.2.queue[w]? = some e →
      e.traceMini = some mini → bitAt r.1 i = true → R (Favorites.mark r w e mini)) :
    ∃ s', s.cullQueue dumbMode = some s' ∧ s'.Consistent ∧ (s' = s ∨ s'.topRated = s.topRated ∧
      s'.queue.map QueueEntry.unmarked = s.queue.map QueueEntry.unmarked ∧
      ∃ r, R r ∧ s' = { r.2 with queue := r.2.queue.map fun e => { e with fsRedundant := !e.favored } }) := by
  rw [Favorites.cullQueue]
  split
  · exact ⟨s, rfl, h, Or.inl rfl⟩
  · obtain ⟨r, hrun, hr, hR⟩ := @exists_foldlM_history _ _ Favorites.cullSlot (fun past r => Culling s past r ∧ R r)
      (List.range mapSize) (fun past i hi r ⟨hr, hR⟩ => by
        have hi : i < mapSize := List.mem_range.mp (hi.mem (by simp))
        have howned : Owned r.2.queue s.topRated := owned_unmarked hr.unmarked h.owned
        obtain ⟨_, _, _, heq⟩ := hr.same
        have htop : r.2.topRated = s.topRated := by rw [heq]
        obtain ⟨r', hs, hmarks⟩ := cullSlot_marks (r := r) (htop ▸ howned) (htop ▸ h.slots.symm ▸ hi)
        refine ⟨r', hs, ?_⟩
        rw [htop] at hmarks
        rcases hmarks with ⟨rfl, hgone⟩ | ⟨w, e, mini, hw, he, hmini, hbit, rfl⟩
        · refine ⟨{ hr with captured := fun j hj w hw => ?_ }, hR⟩
          rcases List.mem_append.mp hj with hj | hj
          · exact hr.captured j hj w hw
          · obtain rfl := List.mem_singleton.mp hj
            obtain ⟨f, m, hf, hm⟩ := hr.gone j hi (hgone w hw)
            exact ⟨f, m, hf, Or.inl hm⟩
        · exact ⟨culling_mark h hr hw he hmini, hmark past r i w e mini hr hR hw he hmini hbit⟩) _ ⟨culling_start, h0⟩
    refine ⟨{ r.2 with queue := r.2.queue.map fun e => { e with fsRedundant := !e.favored } }, ?_, ?_, Or.inr ⟨?_, ?_, r, hR, rfl⟩⟩
    · rw [hrun]
      rfl
    · obtain ⟨queue, queued, pending, heq⟩ := hr.same
      have hunmarked := hr.unmarked
      have hfavored := hr.favored
      have hpending := hr.pending
      have hcaptured := hr.captured
      rw [heq] at hunmarked hfavored hpending hcaptured ⊢
      refine ⟨h.slots, ?_, ?_, ?_, ?_, ?_⟩
      · refine owned_unmarked ?_ h.owned
        rw [List.map_map]
        exact hunmarked
      · have hcount := countP_of_map_eq hunmarked fun e => !e.wasFuzzed
        rw [h.notFuzzed, List.countP_map]
        exact congrArg Nat.cast hcount.symm
      · rw [List.countP_map]
        exact hfavored
      · rw [List.countP_map]
        exact hpending
      · intro _ i w hw
        have hi : i < mapSize := h.slots ▸ (List.getElem?_eq_some_iff.mp hw).1
        obtain ⟨f, m, ⟨e, he, hfav, hm⟩, hmi⟩ := hcaptured i (List.mem_range.mpr hi) w hw
        exact ⟨f, m, ⟨{ e with fsRedundant := !e.favored }, by rw [List.getElem?_map, he]; rfl, hfav, hm⟩, hmi⟩
    · obtain ⟨_, _, _, heq⟩ := hr.same
      rw [heq]
    · rw [List.map_map]
      exact hr.unmarked

/-- By how much the counters of favorites are above what they count. -/
def Favorites.overcount (s : Favorites) : Int × Int :=
  (s.queuedFavored - (s.queue.countP (·.favored) : Nat),
    s.pendingFavored - (s.queue.countP fun e => e.favored && !e.wasFuzzed : Nat))

private theorem counted_of_overcount {s s' : Favorites} (h : s.Consistent) (hover : s'.overcount = s.overcount) :
    (s'.queue.countP (·.favored) : Nat) ≤ s'.queuedFavored ∧
    (s'.queue.countP fun e => e.favored && !e.wasFuzzed : Nat) ≤ s'.pendingFavored := by
  obtain ⟨hqueued, hpending⟩ := Prod.mk.inj hover
  have := h.favored
  have := h.pending
  constructor <;> omega

/-- An entry less its cost. -/
def QueueEntry.uncosted (e : QueueEntry) : QueueEntry := { e with execUs := 0, len := 0 }

private theorem captured_congr {queue queue' : List QueueEntry}
    (h : queue'.map (fun e => (e.favored, e.traceMini)) = queue.map fun e => (e.favored, e.traceMini)) {i w : Nat}
    (hc : Captured queue i w) : Captured queue' i w := by
  obtain ⟨f, m, ⟨e, he, hfav, hm⟩, hmi⟩ := hc
  obtain ⟨e', he', heq⟩ := getElem?_of_map_eq h.symm he
  exact ⟨f, m, ⟨e', he', (Prod.mk.inj heq).1 ▸ hfav, (Prod.mk.inj heq).2 ▸ hm⟩, hmi⟩

theorem costed_consistent {s : Favorites} (h : s.Consistent) {queue : List QueueEntry}
    (hq : queue.map QueueEntry.uncosted = s.queue.map QueueEntry.uncosted) :
    ({ s with queue := queue } : Favorites).Consistent ∧ ({ s with queue := queue } : Favorites).overcount = s.overcount := by
  have hfavored := countP_of_map_eq hq (·.favored)
  have hpending := countP_of_map_eq hq fun e => e.favored && !e.wasFuzzed
  have hover : ({ s with queue := queue } : Favorites).overcount = s.overcount :=
    Prod.ext (congrArg (s.queuedFavored - Nat.cast ·) hfavored) (congrArg (s.pendingFavored - Nat.cast ·) hpending)
  have hcounted := counted_of_overcount h hover
  refine ⟨⟨h.slots, ?_, ?_, hcounted.1, hcounted.2, ?_⟩, hover⟩
  · refine owned_congr ?_ h.owned
    have := congrArg (List.map fun e => (e.tcRef, e.traceMini)) hq
    rwa [List.map_map, List.map_map] at this
  · rw [h.notFuzzed]
    exact congrArg Nat.cast (countP_of_map_eq hq fun e => !e.wasFuzzed).symm
  · intro hs i w hw
    refine captured_congr ?_ (h.captured hs i w hw)
    have := congrArg (List.map fun e => (e.favored, e.traceMini)) hq
    rwa [List.map_map, List.map_map] at this

theorem rated_consistent {s s' : Favorites} (h : s.Consistent) (hr : Rated s s') :
    s'.Consistent ∧ s'.overcount = s.overcount := by
  rcases hr.noted with rfl | hs
  · exact ⟨h, rfl⟩
  · have hnotFuzzed := countP_of_map_eq hr.rest fun e => !e.wasFuzzed
    have hfavored := countP_of_map_eq hr.rest (·.favored)
    have hpending := countP_of_map_eq hr.rest fun e => e.favored && !e.wasFuzzed
    have howned := hr.owned
    have hslots := hr.slots
    generalize s'.queue = queue at *
    generalize s'.topRated = topRated at *
    subst hs
    have hover : ({ s with queue := queue, topRated := topRated, scoreChanged := true } : Favorites).overcount = s.overcount :=
      Prod.ext (congrArg (s.queuedFavored - Nat.cast ·) hfavored) (congrArg (s.pendingFavored - Nat.cast ·) hpending)
    have hcounted := counted_of_overcount h hover
    exact ⟨⟨hslots, howned, h.notFuzzed.trans (congrArg Nat.cast hnotFuzzed.symm), hcounted.1, hcounted.2,
      fun hs => by cases hs⟩, hover⟩

theorem addToQueue_consistent {s : Favorites} (h : s.Consistent) (len : BitVec 32) :
    (s.addToQueue len).Consistent ∧ (s.addToQueue len).overcount = s.overcount := by
  let new : QueueEntry := ⟨0, len, 0, none, false, false, false⟩
  have hentry {q : Nat} {e : QueueEntry} (hq : (s.queue ++ [new])[q]? = some e) :
      s.queue[q]? = some e ∨ q = s.queue.length ∧ e = new := by
    rw [List.getElem?_append] at hq
    split at hq
    · exact Or.inl hq
    · next hlt =>
      rw [List.getElem?_singleton] at hq
      split at hq
      · exact Or.inr ⟨by omega, (Option.some.inj hq).symm⟩
      · cases hq
  have hnew : s.topRated.count (some s.queue.length) = 0 :=
    List.count_eq_zero.mpr fun hmem => Nat.lt_irrefl _ (h.owned.named _ hmem)
  have hover : (s.addToQueue len).overcount = s.overcount := by simp [Favorites.overcount, Favorites.addToQueue]
  have hcounted := counted_of_overcount h hover
  refine ⟨⟨h.slots, ⟨?_, ?_, ?_, ?_⟩, ?_, hcounted.1, hcounted.2, ?_⟩, hover⟩
  · intro q e hq
    rcases hentry hq with hq | ⟨rfl, rfl⟩
    · exact h.owned.refs q e hq
    · exact (congrArg Nat.cast hnew).symm
  · intro q e hq
    rcases hentry hq with hq | ⟨rfl, rfl⟩
    · exact h.owned.kept q e hq
    · exact iff_of_false (by simp [new]) (not_not.mpr rfl)
  · intro q e hq m hm
    rcases hentry hq with hq | ⟨rfl, rfl⟩
    · exact h.owned.sized q e hq m hm
    · cases hm
  · intro q hq
    have := h.owned.named q hq
    rw [Favorites.addToQueue, List.length_append]
    exact Nat.lt_add_right _ this
  · have := h.notFuzzed
    simp [Favorites.addToQueue, this]
  · intro hs i w hw
    obtain ⟨f, m, ⟨e, he, hfav, hm⟩, hmi⟩ := h.captured hs i w hw
    exact ⟨f, m, ⟨e, by rw [Favorites.addToQueue, List.getElem?_append_left (List.getElem?_eq_some_iff.mp he).1, he], hfav, hm⟩, hmi⟩

private theorem overcount_fuzzed {s : Favorites} {q : Nat} {e : QueueEntry} (he : s.queue[q]? = some e) (hfuzzed : e.wasFuzzed = false) :
    ({ s with
      queue := s.queue.set q { e with wasFuzzed := true }
      pendingNotFuzzed := s.pendingNotFuzzed - 1
      pendingFavored := if e.favored then s.pendingFavored - 1 else s.pendingFavored } : Favorites).overcount = s.overcount := by
  obtain ⟨hq, hget⟩ := List.getElem?_eq_some_iff.mp he
  have hmap : (s.queue.set q { e with wasFuzzed := true }).map (·.favored) = s.queue.map (·.favored) :=
    map_set_of_eq he rfl
  refine Prod.ext (congrArg (s.queuedFavored - Nat.cast ·) (countP_of_map_eq hmap id)) ?_
  have hcount := List.countP_set (p := fun e : QueueEntry => e.favored && !e.wasFuzzed)
    (a := { e with wasFuzzed := true }) hq
  rw [hget, hfuzzed] at hcount
  cases hfav : e.favored <;> rw [hfav] at hcount
  · simp only [Bool.false_and, Bool.false_eq_true, if_false, Nat.sub_zero, Nat.add_zero] at hcount
    exact congrArg (s.pendingFavored - Nat.cast ·) hcount
  · have hpos : 0 < s.queue.countP fun e => e.favored && !e.wasFuzzed :=
      List.countP_pos_iff.mpr ⟨e, hget ▸ List.getElem_mem hq, by rw [hfav, hfuzzed]; rfl⟩
    simp only [Bool.not_true, Bool.not_false, Bool.and_true, Bool.and_false, Bool.false_eq_true, if_false, if_true,
      Nat.add_zero] at hcount
    simp only [Favorites.overcount, if_true]
    omega

/-- The turn of an entry ends: it is taken off the counters it was in. -/
theorem abandonEntry_consistent {s : Favorites} (h : s.Consistent) {q : Nat} (hq : q < s.queue.length) (counts : Bool) :
    ∃ s', s.abandonEntry q counts = some s' ∧ s'.Consistent ∧ s'.overcount = s.overcount ∧ s'.topRated = s.topRated ∧
      s'.queue.map (fun e => (e.favFactor, e.traceMini)) = s.queue.map fun e => (e.favFactor, e.traceMini) := by
  obtain ⟨e, he⟩ : ∃ e, s.queue[q]? = some e := ⟨_, List.getElem?_eq_getElem hq⟩
  rw [Favorites.abandonEntry, he, Option.bind_eq_bind, Option.bind_some]
  split
  · next hcond =>
    have hfuzzed : e.wasFuzzed = false := by
      rw [Bool.and_eq_true, Bool.not_eq_true'] at hcond
      exact hcond.2
    have hget : s.queue[q] = e := (List.getElem?_eq_some_iff.mp he).2
    have hcounted := counted_of_overcount h (overcount_fuzzed he hfuzzed)
    refine ⟨_, rfl, ⟨h.slots, ?_, ?_, hcounted.1, hcounted.2, ?_⟩, overcount_fuzzed he hfuzzed, rfl, ?_⟩
    · refine owned_congr ?_ h.owned
      exact map_set_of_eq he rfl
    · have hpos : 0 < s.queue.countP (!·.wasFuzzed) :=
        List.countP_pos_iff.mpr ⟨e, hget ▸ List.getElem_mem hq, by rw [hfuzzed]; rfl⟩
      have := h.notFuzzed
      dsimp only
      rw [List.countP_set hq, hget, hfuzzed]
      simp
      omega
    · intro hs i w hw
      refine captured_congr ?_ (h.captured hs i w hw)
      exact map_set_of_eq he rfl
    · exact map_set_of_eq he rfl
  · exact ⟨s, rfl, h, rfl, rfl, rfl⟩

theorem empty_consistent : Favorites.empty.Consistent := by
  refine ⟨List.length_replicate, ⟨?_, ?_, ?_, ?_⟩, rfl, le_rfl, le_rfl, ?_⟩
  · intro q e hq
    cases hq
  · intro q e hq
    cases hq
  · intro q e hq
    cases hq
  · intro q hq
    cases List.eq_of_mem_replicate hq
  · intro _ i w hw
    cases List.eq_of_mem_replicate (List.mem_of_getElem? hw)

/-- The rating of an entry whose cost was set just before. -/
theorem rating_completes {s : Favorites} (h : s.Consistent) {q : Nat} {e : QueueEntry} (he : s.queue[q]? = some e)
    (e' : QueueEntry) (hcost : e'.uncosted = e.uncosted) (traceBits : Bitmap) (R : List Nat → Favorites → Prop)
    (h0 : R [] { s with queue := s.queue.set q e' })
    (hstep : ∀ past i s₁ s₂, i < mapSize → Rated { s with queue := s.queue.set q e' } s₁ → R past s₁ →
      Rates e'.favFactor q traceBits s₁ i s₂ → R (past ++ [i]) s₂) :
    ∃ s', Favorites.updateBitmapScore { s with queue := s.queue.set q e' } q traceBits = some s' ∧
      s'.Consistent ∧ s'.overcount = s.overcount ∧ R (List.range mapSize) s' := by
  obtain ⟨hset, hover⟩ := costed_consistent h (map_set_of_eq he hcost)
  have hq : (s.queue.set q e')[q]? = some e' := by
    rw [List.getElem?_set, if_pos rfl, if_pos (List.getElem?_eq_some_iff.mp he).1]
  obtain ⟨s', hs, hr, hR⟩ := updateBitmapScore_history hq hset.owned hset.slots R h0 hstep
  obtain ⟨h', hover'⟩ := rated_consistent hset hr
  exact ⟨s', hs, h', hover'.trans hover, hR⟩

theorem step_consistent {s : Favorites} (h : s.Consistent) (dumbMode : Bool) {ev : QueueEvent} (hev : ev.Names s) :
    ∃ s', s.step dumbMode ev = some s' ∧ s'.Consistent := by
  have hrating {q : Nat} {e : QueueEntry} (he : s.queue[q]? = some e) (e' : QueueEntry) (hcost : e'.uncosted = e.uncosted)
      (traceBits : Bitmap) :
      ∃ s', Favorites.updateBitmapScore { s with queue := s.queue.set q e' } q traceBits = some s' ∧ s'.Consistent := by
    obtain ⟨s', hs, h', -⟩ := rating_completes h he e' hcost traceBits (fun _ _ => True) trivial
      fun _ _ _ _ _ _ _ _ => trivial
    exact ⟨s', hs, h'⟩
  cases ev with
  | addToQueue len => exact ⟨_, rfl, (addToQueue_consistent h len).1⟩
  | calibrated q execUs traceBits =>
    obtain ⟨e, he⟩ : ∃ e, s.queue[q]? = some e := ⟨_, List.getElem?_eq_getElem hev⟩
    rw [Favorites.step, he, Option.bind_eq_bind, Option.bind_some]
    exact hrating he { e with execUs := execUs } rfl traceBits
  | trimmed q len cleanTrace =>
    obtain ⟨e, he⟩ : ∃ e, s.queue[q]? = some e := ⟨_, List.getElem?_eq_getElem hev⟩
    rw [Favorites.step, he, Option.bind_eq_bind, Option.bind_some]
    cases cleanTrace with
    | none =>
      refine ⟨_, rfl, (costed_consistent h ?_).1⟩
      exact map_set_of_eq he rfl
    | some traceBits => exact hrating he { e with len := len } rfl traceBits
  | cullQueue =>
    obtain ⟨s', hs, h', -⟩ := cullQueue_completes h dumbMode (fun _ => True) trivial
      fun _ _ _ _ _ _ _ _ _ _ _ _ => trivial
    exact ⟨s', hs, h'⟩
  | abandonEntry q counts =>
    obtain ⟨s', hs, h', -⟩ := abandonEntry_consistent h hev counts
    exact ⟨s', hs, h'⟩

/-- What the events alone say of an entry: its cost, and whether it was rated. -/
structure Known where
  execUs : BitVec 64
  len : BitVec 32
  rated : Bool

def QueueEvent.known (known : List Known) : QueueEvent → Option (List Known)
  | .addToQueue len => some (known ++ [⟨0, len, false⟩])
  | .calibrated q execUs _ => known[q]?.map fun k => known.set q ⟨execUs, k.len, true⟩
  | .trimmed q len cleanTrace => known[q]?.map fun k => known.set q ⟨k.execUs, len, k.rated || cleanTrace.isSome⟩
  | .cullQueue => some known
  | .abandonEntry q _ => known[q]?.map fun _ => known

def QueueEntry.cost (e : QueueEntry) : BitVec 64 × BitVec 32 := (e.execUs, e.len)

def Known.cost (k : Known) : BitVec 64 × BitVec 32 := (k.execUs, k.len)

/-- An entry that was not rated has won nothing. -/
structure Favorites.Follows (s : Favorites) (known : List Known) : Prop where
  consistent : s.Consistent
  costs : s.queue.map QueueEntry.cost = known.map Known.cost
  unrated : ∀ q k, known[q]? = some k → k.rated = false → some q ∉ s.topRated

private theorem follows_length {s : Favorites} {known : List Known} (h : s.Follows known) : s.queue.length = known.length := by
  have := congrArg List.length h.costs
  rwa [List.length_map, List.length_map] at this

theorem names_of_known {s : Favorites} {known : List Known} (h : s.Follows known) {ev : QueueEvent} (hev : (ev.known known).isSome) :
    ev.Names s := by
  cases ev with
  | addToQueue len => trivial
  | cullQueue => trivial
  | calibrated q execUs traceBits =>
    rw [QueueEvent.known, Option.isSome_map, isSome_getElem?, ← follows_length h] at hev
    exact hev
  | trimmed q len cleanTrace =>
    rw [QueueEvent.known, Option.isSome_map, isSome_getElem?, ← follows_length h] at hev
    exact hev
  | abandonEntry q counts =>
    rw [QueueEvent.known, Option.isSome_map, isSome_getElem?, ← follows_length h] at hev
    exact hev

/-- The rating of an entry gives no slot to another one. -/
private theorem rating_follows {s s' : Favorites} {known : List Known} (h : s.Follows known) {q : Nat} {e : QueueEntry} {k' : Known}
    (he : s.queue[q]? = some e) (e' : QueueEntry) (hcost : e'.uncosted = e.uncosted) (hknown : e'.cost = k'.cost)
    (hrated : k'.rated = true) {traceBits : Bitmap}
    (hs : Favorites.updateBitmapScore { s with queue := s.queue.set q e' } q traceBits = some s') : s'.Follows (known.set q k') := by
  obtain ⟨s₁, hs₁, hconsistent, -, hrest, htop⟩ := rating_completes h.consistent he e' hcost traceBits
    (fun _ s₁ => s₁.queue.map QueueEntry.rest = (s.queue.set q e').map QueueEntry.rest ∧
      ∀ p ≠ q, some p ∈ s₁.topRated → some p ∈ s.topRated)
    ⟨rfl, fun _ _ hp => hp⟩ fun _ i s₁ s₂ _ _ ⟨hrest, htop⟩ hr => by
      refine ⟨hr.rest.trans hrest, fun p hne hp => ?_⟩
      rcases hr.moves with ⟨rfl, -⟩ | ⟨heq, -⟩
      · exact htop p hne hp
      · rw [heq] at hp
        rcases List.mem_or_eq_of_mem_set hp with hp | hp
        · exact htop p hne hp
        · exact absurd (Option.some.inj hp) hne
  obtain rfl := Option.some.inj (hs.symm.trans hs₁)
  refine ⟨hconsistent, ?_, fun p k hp hk hmem => ?_⟩
  · have hcosts := congrArg (List.map QueueEntry.cost) hrest
    rw [List.map_map, List.map_map] at hcosts
    have hset : (s.queue.set q e').map QueueEntry.cost = (known.set q k').map Known.cost := by
      rw [List.map_set, List.map_set, h.costs, hknown]
    exact hcosts.trans hset
  · rcases getElem?_set_cases hp with ⟨rfl, rfl⟩ | ⟨hne, hp⟩
    · rw [hrated] at hk
      cases hk
    · exact h.unrated p k hp hk (htop p hne hmem)

private theorem step_follows {s s' : Favorites} {known known' : List Known} (h : s.Follows known) (dumbMode : Bool) {ev : QueueEvent}
    (hev : ev.known known = some known') (hs : s.step dumbMode ev = some s') : s'.Follows known' := by
  obtain ⟨s₁, hs₁, hconsistent⟩ := step_consistent h.consistent dumbMode (names_of_known h (Option.isSome_of_eq_some hev))
  obtain rfl := Option.some.inj (hs.symm.trans hs₁)
  clear hs₁
  have hentry {q : Nat} {k : Known} (hk : known[q]? = some k) : ∃ e, s.queue[q]? = some e ∧ e.cost = k.cost := by
    have hi := congrArg (·[q]?) h.costs
    simp only [List.getElem?_map, hk, Option.map_some] at hi
    exact Option.map_eq_some_iff.mp hi
  cases ev with
  | addToQueue len =>
    obtain rfl := Option.some.inj hev
    obtain rfl := Option.some.inj hs
    refine ⟨hconsistent, ?_, fun q k hk hrated hmem => ?_⟩
    · rw [Favorites.addToQueue, List.map_append, List.map_append, h.costs]
      rfl
    · have hlt : q < known.length := follows_length h ▸ h.consistent.owned.named q hmem
      rw [List.getElem?_append_left hlt] at hk
      exact h.unrated q k hk hrated hmem
  | calibrated q execUs traceBits =>
    obtain ⟨k, hk, rfl⟩ := Option.map_eq_some_iff.mp hev
    obtain ⟨e, he, hcost⟩ := hentry hk
    rw [Favorites.step, he, Option.bind_eq_bind, Option.bind_some] at hs
    have hlen : e.len = k.len := congrArg Prod.snd hcost
    exact rating_follows h he { e with execUs := execUs } rfl (congrArg (Prod.mk execUs) hlen) rfl hs
  | trimmed q len cleanTrace =>
    obtain ⟨k, hk, rfl⟩ := Option.map_eq_some_iff.mp hev
    obtain ⟨e, he, hcost⟩ := hentry hk
    rw [Favorites.step, he, Option.bind_eq_bind, Option.bind_some] at hs
    have hexec : e.execUs = k.execUs := congrArg Prod.fst hcost
    have hcost' : ({ e with len := len } : QueueEntry).cost = Known.cost ⟨k.execUs, len, k.rated || cleanTrace.isSome⟩ :=
      congrArg (Prod.mk · len) hexec
    cases cleanTrace with
    | none =>
      obtain rfl := Option.some.inj hs
      refine ⟨hconsistent, ?_, fun p k' hp hrated hmem => ?_⟩
      · rw [List.map_set, List.map_set, h.costs, hcost']
      · rcases getElem?_set_cases hp with ⟨rfl, rfl⟩ | ⟨-, hp⟩
        · rw [Option.isSome_none, Bool.or_false] at hrated
          exact h.unrated p k hk hrated hmem
        · exact h.unrated p k' hp hrated hmem
    | some traceBits => exact rating_follows h he { e with len := len } rfl hcost' (Bool.or_true _) hs
  | cullQueue =>
    obtain rfl := Option.some.inj hev
    obtain ⟨s₁, hs₁, -, hres⟩ := cullQueue_completes h.consistent dumbMode (fun _ => True) trivial
      fun _ _ _ _ _ _ _ _ _ _ _ _ => trivial
    obtain rfl := Option.some.inj (hs.symm.trans hs₁)
    rcases hres with rfl | ⟨htop, hunmarked, -⟩
    · exact h
    · have hcosts := congrArg (List.map QueueEntry.cost) hunmarked
      rw [List.map_map, List.map_map] at hcosts
      exact ⟨hconsistent, hcosts.trans h.costs, fun q k hk hrated => htop ▸ h.unrated q k hk hrated⟩
  | abandonEntry q counts =>
    obtain ⟨k, hk, rfl⟩ := Option.map_eq_some_iff.mp hev
    obtain ⟨e, he, -⟩ := hentry hk
    rw [Favorites.step, Favorites.abandonEntry, he, Option.bind_eq_bind, Option.bind_some] at hs
    split at hs
    · obtain rfl := Option.some.inj hs
      have hcosts : (s.queue.set q { e with wasFuzzed := true }).map QueueEntry.cost = s.queue.map QueueEntry.cost :=
        map_set_of_eq he rfl
      exact ⟨hconsistent, hcosts.trans h.costs, h.unrated⟩
    · obtain rfl := Option.some.inj hs
      exact h

/-- Conditions on a run of the queue from conditions on its events alone. -/
theorem allMeet_of_known {dumbMode : Bool} {C : Favorites → QueueEvent → Prop} {C' : List Known → QueueEvent → Prop}
    (hC : ∀ (s : Favorites) known ev, s.Follows known → ev.Names s → C' known ev → C s ev) {events : List QueueEvent}
    (h : AllMeet (fun known ev => ev.known known) (fun known ev => (ev.known known).isSome ∧ C' known ev) [] events) :
    AllMeet (Favorites.step dumbMode) C Favorites.empty events := by
  refine allMeet_of_followed (fun known (s : Favorites) => s.Follows known) ?_ events ?_ h
  · rintro known s ev hs ⟨hsome, hc⟩
    obtain ⟨known', hev⟩ := Option.isSome_iff_exists.mp hsome
    exact ⟨hC s known ev hs (names_of_known hs hsome) hc, fun s' hs' => ⟨known', hev, step_follows hs dumbMode hev hs'⟩⟩
  · refine ⟨empty_consistent, rfl, fun q k hk => ?_⟩
    cases hk

/-- Whatever the fuzzer does with its queue, no freed bits are read: every run completes, and ends with a winner's
bits kept as long as it has bytes, counters not below what they count, and each won byte captured after a culling. -/
theorem favorites_consistent (dumbMode : Bool) (events : List QueueEvent)
    (h : AllMeet (Favorites.step dumbMode) (fun s ev => ev.Names s) Favorites.empty events) :
    ∃ s, events.foldlM (Favorites.step dumbMode) Favorites.empty = some s ∧ s.Consistent :=
  exists_foldlM_inv_of_allMeet Favorites.Consistent (fun _ _ hs hev => step_consistent hs dumbMode hev) events
    empty_consistent h

/-- A trace that has the first byte of every word. -/
def sparseTrace : Bitmap := ⟨List.replicate (mapSize >>> 3) 1, List.length_replicate⟩

/-- A winner is replaced, and loses its bits; then the queue is culled. -/
theorem favorites_consistent_rated :
    ∃ s, [.addToQueue 8, .addToQueue 4, .calibrated 0 100 sparseTrace, .abandonEntry 0 true, .calibrated 1 50 sparseTrace, .cullQueue].foldlM
      (Favorites.step false) Favorites.empty = some s ∧ s.Consistent :=
  favorites_consistent false _ (@allMeet_of_known false _ (fun _ _ => True) (fun _ _ _ _ hnames _ => hnames) _ (by decide))

end LtlFuzzer.Aflgo
