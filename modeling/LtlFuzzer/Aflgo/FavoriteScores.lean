import LtlFuzzer.Aflgo.FavoriteRuns

/-! Where an entry always shows one trace the favorites are counted exactly, and where its cost only falls
once it has won a byte the winners are the cheapest entries. -/
namespace LtlFuzzer.Aflgo
open Foundation Runs

/-- The traces an entry is rated with have the edges of one trace. -/
def QueueEvent.Shows (shows : Nat → Bitmap) : QueueEvent → Prop
  | .calibrated q _ traceBits | .trimmed q _ (some traceBits) => ∀ i < mapSize, traceBits.at i = 0 ↔ (shows q).at i = 0
  | .addToQueue _ | .trimmed _ _ none | .cullQueue | .abandonEntry _ _ => True

/-- The winners show their bytes, the bits that are kept are those shown, and the counters are exact. -/
structure Favorites.Exact (shows : Nat → Bitmap) (s : Favorites) : Prop where
  won : ∀ i w, s.topRated[i]? = some (some w) → (shows w).at i ≠ 0
  minis : ∀ (q : Nat) (e : QueueEntry) (m : List (BitVec 8)), s.queue[q]? = some e → e.traceMini = some m →
    ∀ i < mapSize, bitAt m i = decide ((shows q).at i ≠ 0)
  counted : s.overcount = (0, 0)

variable {shows : Nat → Bitmap} {s : Favorites}

private theorem exact_start (shows : Nat → Bitmap) : Favorites.empty.Exact shows := by
  refine ⟨?_, ?_, rfl⟩
  · intro i w hw
    cases List.eq_of_mem_replicate (List.mem_of_getElem? hw)
  · intro q e m hq
    cases hq

private theorem exact_unmarked :
    (∀ f m, FavoredWith (s.queue.map fun e => { e with favored := false }) f m → ∀ j < mapSize, bitAt m j →
      bitAt (List.replicate (mapSize >>> 3) 0xff) j = false) ∧
    ({ s with
      scoreChanged := false
      queuedFavored := 0
      pendingFavored := 0
      queue := s.queue.map fun e => { e with favored := false } } : Favorites).overcount = (0, 0) := by
  constructor
  · rintro f m ⟨e, he, hfav, -⟩
    rw [List.getElem?_map] at he
    obtain ⟨e₀, -, rfl⟩ := Option.map_eq_some_iff.mp he
    cases hfav
  · simp [Favorites.overcount]

/-- Marking an entry whose bit is still to be captured marks one more. -/
private theorem exact_mark {past : List Nat} {r : List (BitVec 8) × Favorites} {i w : Nat} {e : QueueEntry}
    {mini : List (BitVec 8)} (hx : s.Exact shows) (hslots : s.topRated.length = mapSize) (howned : Owned s.queue s.topRated)
    (hr : Culling s past r)
    (hR : (∀ f m, FavoredWith r.2.queue f m → ∀ j < mapSize, bitAt m j → bitAt r.1 j = false) ∧ r.2.overcount = (0, 0))
    (hw : s.topRated[i]? = some (some w)) (he : r.2.queue[w]? = some e) (hmini : e.traceMini = some mini)
    (hbit : bitAt r.1 i = true) :
    (∀ f m, FavoredWith (Favorites.mark r w e mini).2.queue f m → ∀ j < mapSize, bitAt m j →
      bitAt (Favorites.mark r w e mini).1 j = false) ∧ (Favorites.mark r w e mini).2.overcount = (0, 0) := by
  have hi : i < mapSize := hslots ▸ (List.getElem?_eq_some_iff.mp hw).1
  obtain ⟨e₀, he₀, hunmarked⟩ := getElem?_of_map_eq hr.unmarked he
  have hmini₀ : e₀.traceMini = some mini := by
    rw [← hmini]
    exact (show e.unmarked.traceMini = e₀.unmarked.traceMini by rw [hunmarked]).symm
  have hbits := hx.minis w e₀ mini he₀ hmini₀
  have hlen := hr.length.trans (howned.sized w e₀ he₀ mini hmini₀).symm
  have hnew : e.favored = false := by
    by_contra hfav
    have := hR.1 w mini ⟨e, he, by simpa using hfav, hmini⟩ i hi (by rw [hbits i hi]; exact decide_eq_true (hx.won i w hw))
    rw [this] at hbit
    cases hbit
  constructor
  · intro f m hf j hj hmj
    rw [Favorites.mark, bitAt_zipWith hlen]
    obtain ⟨e', hf, hfav, hm⟩ := hf
    rcases getElem?_set_cases hf with ⟨rfl, rfl⟩ | ⟨-, hf⟩
    · obtain rfl := Option.some.inj (hmini.symm.trans hm)
      rw [hmj, Bool.not_true, Bool.and_false]
    · rw [hR.1 f m ⟨e', hf, hfav, hm⟩ j hj hmj, Bool.false_and]
  · obtain ⟨hq, hget⟩ := List.getElem?_eq_some_iff.mp he
    obtain ⟨hqueued, hpending⟩ := Prod.mk.inj hR.2
    have hfavored := List.countP_set (p := (·.favored)) (a := { e with favored := true }) hq
    have hunfuzzed := List.countP_set (p := fun e : QueueEntry => e.favored && !e.wasFuzzed)
      (a := { e with favored := true }) hq
    rw [hget, hnew] at hfavored hunfuzzed
    rw [Favorites.mark, Favorites.overcount, Prod.mk.injEq]
    dsimp only
    constructor
    · simp only [Bool.false_eq_true, if_false, if_true, Nat.sub_zero] at hfavored
      omega
    · cases hfuzzed : e.wasFuzzed <;> simp only [hfuzzed, Bool.true_and, Bool.false_and, Bool.not_false, Bool.not_true,
        Bool.false_eq_true, if_false, if_true, Nat.sub_zero] at hunfuzzed ⊢ <;> omega

/-- What the winners and the bits are said to show, apart from the counters. -/
private def ShownBy (shows : Nat → Bitmap) (s : Favorites) : Prop :=
  (∀ i w, s.topRated[i]? = some (some w) → (shows w).at i ≠ 0) ∧
  ∀ (q : Nat) (e : QueueEntry) (m : List (BitVec 8)), s.queue[q]? = some e → e.traceMini = some m →
    ∀ i < mapSize, bitAt m i = decide ((shows q).at i ≠ 0)

private theorem shownBy_rates {favFactor : BitVec 64} {q i : Nat} {traceBits : Bitmap} {s₁ s₂ : Favorites} (hi : i < mapSize)
    (ht : ∀ i < mapSize, traceBits.at i = 0 ↔ (shows q).at i = 0) (hf : ShownBy shows s₁)
    (hr : Rates favFactor q traceBits s₁ i s₂) : ShownBy shows s₂ := by
  constructor
  · intro j w hw
    rcases hr.moves with ⟨rfl, -⟩ | ⟨heq, hne, -⟩
    · exact hf.1 j w hw
    · rw [heq] at hw
      rcases getElem?_set_cases hw with ⟨rfl, hq⟩ | ⟨-, hw⟩
      · obtain rfl := Option.some.inj hq
        exact mt (ht j hi).mpr hne
      · exact hf.1 j w hw
  · intro p e m hp hm j hj
    rcases hr.minis p e m hp hm with ⟨e₁, hp₁, hm₁⟩ | ⟨rfl, rfl⟩
    · exact hf.2 p e₁ m hp₁ hm₁ j hj
    · rw [bitAt_minimizeBits traceBits hj]
      exact decide_eq_decide.mpr (not_congr (ht j hj))

private theorem shownBy_costed {q : Nat} {e : QueueEntry} (he : s.queue[q]? = some e) (e' : QueueEntry)
    (hmini : e'.traceMini = e.traceMini) (hf : ShownBy shows s) : ShownBy shows { s with queue := s.queue.set q e' } := by
  refine ⟨hf.1, fun p e₁ m hp hm => ?_⟩
  rcases getElem?_set_cases hp with ⟨rfl, rfl⟩ | ⟨-, hp⟩
  · exact hf.2 p e m he (hmini ▸ hm)
  · exact hf.2 p e₁ m hp hm

private theorem step_exact (h : s.Consistent) (hx : s.Exact shows) (dumbMode : Bool) {ev : QueueEvent} (hev : ev.Names s)
    (hshows : ev.Shows shows) : ∃ s', s.step dumbMode ev = some s' ∧ s'.Consistent ∧ s'.Exact shows := by
  have hrating {q : Nat} {e : QueueEntry} (he : s.queue[q]? = some e) (e' : QueueEntry) (hcost : e'.uncosted = e.uncosted)
      (hmini : e'.traceMini = e.traceMini) {traceBits : Bitmap} (ht : ∀ i < mapSize, traceBits.at i = 0 ↔ (shows q).at i = 0) :
      ∃ s', Favorites.updateBitmapScore { s with queue := s.queue.set q e' } q traceBits = some s' ∧
        s'.Consistent ∧ s'.Exact shows := by
    obtain ⟨s', hs, h', hover, hf⟩ := rating_completes h he e' hcost traceBits (fun _ => ShownBy shows)
      (shownBy_costed he e' hmini ⟨hx.won, hx.minis⟩) fun _ i s₁ s₂ hi _ hf hr => shownBy_rates hi ht hf hr
    exact ⟨s', hs, h', hf.1, hf.2, hover.trans hx.counted⟩
  cases ev with
  | addToQueue len =>
    obtain ⟨h', hover⟩ := addToQueue_consistent h len
    refine ⟨_, rfl, h', hx.won, fun q e m hq hm => ?_, hover.trans hx.counted⟩
    rw [Favorites.addToQueue, List.getElem?_append] at hq
    split at hq
    · exact hx.minis q e m hq hm
    · rw [List.getElem?_singleton] at hq
      split at hq
      · cases hq
        cases hm
      · cases hq
  | calibrated q execUs traceBits =>
    obtain ⟨e, he⟩ : ∃ e, s.queue[q]? = some e := ⟨_, List.getElem?_eq_getElem hev⟩
    rw [Favorites.step, he, Option.bind_eq_bind, Option.bind_some]
    exact hrating he { e with execUs := execUs } rfl rfl hshows
  | trimmed q len cleanTrace =>
    obtain ⟨e, he⟩ : ∃ e, s.queue[q]? = some e := ⟨_, List.getElem?_eq_getElem hev⟩
    rw [Favorites.step, he, Option.bind_eq_bind, Option.bind_some]
    cases cleanTrace with
    | none =>
      have hmap : (s.queue.set q { e with len := len }).map QueueEntry.uncosted = s.queue.map QueueEntry.uncosted :=
        map_set_of_eq he rfl
      obtain ⟨h', hover⟩ := costed_consistent h hmap
      have hf := shownBy_costed he { e with len := len } rfl ⟨hx.won, hx.minis⟩
      exact ⟨_, rfl, h', hf.1, hf.2, hover.trans hx.counted⟩
    | some traceBits => exact hrating he { e with len := len } rfl rfl hshows
  | cullQueue =>
    obtain ⟨s', hs, h', hres⟩ := cullQueue_completes h dumbMode
      (fun r => (∀ f m, FavoredWith r.2.queue f m → ∀ j < mapSize, bitAt m j → bitAt r.1 j = false) ∧ r.2.overcount = (0, 0))
      exact_unmarked fun _ _ _ _ _ _ hr hR hw he hmini hbit => exact_mark hx h.slots h.owned hr hR hw he hmini hbit
    refine ⟨s', hs, h', ?_⟩
    rcases hres with rfl | ⟨htop, hunmarked, r, hR, heq⟩
    · exact hx
    · refine ⟨fun i w hw => hx.won i w (htop ▸ hw), fun q e m hq hm => ?_, ?_⟩
      · obtain ⟨e₀, he₀, he⟩ := getElem?_of_map_eq hunmarked hq
        exact hx.minis q e₀ m he₀ ((show e.unmarked.traceMini = e₀.unmarked.traceMini by rw [he]).symm.trans hm)
      · rw [heq, Favorites.overcount, List.countP_map, List.countP_map]
        exact hR.2
  | abandonEntry q counts =>
    obtain ⟨s', hs, h', hover, htop, hmap⟩ := abandonEntry_consistent h hev counts
    refine ⟨s', hs, h', fun i w hw => hx.won i w (htop ▸ hw), fun p e m hp hm => ?_, hover.trans hx.counted⟩
    obtain ⟨e₀, he₀, he⟩ := getElem?_of_map_eq hmap hp
    exact hx.minis p e₀ m he₀ ((Prod.mk.inj he).2.symm.trans hm)

/-- Where each entry always shows one trace, the counters are the numbers of favored entries and of those that are
still to be fuzzed, and after a culling every byte that has a winner is in the bits of a favored entry. -/
theorem favorites_exact (shows : Nat → Bitmap) (dumbMode : Bool) (events : List QueueEvent)
    (h : AllMeet (Favorites.step dumbMode) (fun s ev => ev.Names s ∧ ev.Shows shows) Favorites.empty events) :
    ∃ s, events.foldlM (Favorites.step dumbMode) Favorites.empty = some s ∧
      s.queuedFavored = (s.queue.countP (·.favored) : Nat) ∧
      s.pendingFavored = (s.queue.countP fun e => e.favored && !e.wasFuzzed : Nat) ∧
      (s.scoreChanged = false → ∀ i w, s.topRated[i]? = some (some w) → ∃ f m, FavoredWith s.queue f m ∧ bitAt m i) := by
  obtain ⟨s, hs, hc, hx⟩ := exists_foldlM_inv_of_allMeet (fun s => s.Consistent ∧ s.Exact shows)
    (fun _ _ hs hev => step_exact hs.1 hs.2 dumbMode hev.1 hev.2) events ⟨empty_consistent, exact_start shows⟩ h
  obtain ⟨hqueued, hpending⟩ := Prod.mk.inj hx.counted
  refine ⟨s, hs, by omega, by omega, fun hsc i w hw => ?_⟩
  have hi : i < mapSize := hc.slots ▸ (List.getElem?_eq_some_iff.mp hw).1
  obtain ⟨f, m, hf, hm | rfl⟩ := hc.captured hsc i w hw
  · exact ⟨f, m, hf, hm⟩
  · obtain ⟨e, he, -, hmini⟩ := id hf
    refine ⟨f, m, hf, ?_⟩
    rw [hx.minis f e m he hmini i hi]
    exact decide_eq_true (hx.won i f hw)

/-- Two entries are rated, and one again after a culling. -/
theorem favorites_exact_rated :
    ∃ s, [.addToQueue 8, .addToQueue 4, .calibrated 0 100 sparseTrace, .calibrated 1 50 sparseTrace, .cullQueue, .abandonEntry 1 true,
        .calibrated 0 20 sparseTrace, .cullQueue].foldlM (Favorites.step false) Favorites.empty = some s ∧
      s.queuedFavored = (s.queue.countP (·.favored) : Nat) ∧
      s.pendingFavored = (s.queue.countP fun e => e.favored && !e.wasFuzzed : Nat) ∧
      (s.scoreChanged = false → ∀ i w, s.topRated[i]? = some (some w) → ∃ f m, FavoredWith s.queue f m ∧ bitAt m i) :=
  favorites_exact (fun _ => sparseTrace) false _
    (@allMeet_of_known false _ (fun _ ev => ev.Shows fun _ => sparseTrace) (fun _ _ _ _ hnames hshows => ⟨hnames, hshows⟩) _
      ⟨⟨rfl, trivial⟩, ⟨rfl, trivial⟩, ⟨rfl, fun _ _ => Iff.rfl⟩, ⟨rfl, fun _ _ => Iff.rfl⟩, ⟨rfl, trivial⟩, ⟨rfl, trivial⟩,
        ⟨rfl, fun _ _ => Iff.rfl⟩, ⟨rfl, trivial⟩, trivial⟩)

/-- The winner of byte i costs at most this. -/
def Favorites.Beats (s : Favorites) (i : Nat) (cost : BitVec 64) : Prop :=
  ∃ w e, s.topRated[i]? = some (some w) ∧ s.queue[w]? = some e ∧ e.favFactor ≤ cost

/-- An entry that has won a byte does not get more expensive. -/
def QueueEvent.Cheapens (s : Favorites) : QueueEvent → Prop
  | .calibrated q execUs _ => ∀ e, s.queue[q]? = some e → e.tcRef ≠ 0 → { e with execUs := execUs }.favFactor ≤ e.favFactor
  | .trimmed q len _ => ∀ e, s.queue[q]? = some e → e.tcRef ≠ 0 → { e with len := len }.favFactor ≤ e.favFactor
  | .addToQueue _ | .cullQueue | .abandonEntry _ _ => True

/-- The entry that an event rates, and the trace. -/
def QueueEvent.rating : QueueEvent → Option (Nat × Bitmap)
  | .calibrated q _ traceBits | .trimmed q _ (some traceBits) => some (q, traceBits)
  | .addToQueue _ | .trimmed _ _ none | .cullQueue | .abandonEntry _ _ => none

private theorem beats_congr {s' : Favorites} {i : Nat} {cost : BitVec 64} (htop : s'.topRated = s.topRated)
    (hmap : s'.queue.map QueueEntry.favFactor = s.queue.map QueueEntry.favFactor) (h : s.Beats i cost) : s'.Beats i cost := by
  obtain ⟨w, e, hw, he, hle⟩ := h
  obtain ⟨e', he', heq⟩ := getElem?_of_map_eq hmap.symm he
  exact ⟨w, e', htop ▸ hw, he', heq ▸ hle⟩

private theorem favFactor_map {queue queue' : List QueueEntry} (h : queue'.map QueueEntry.rest = queue.map QueueEntry.rest) :
    queue'.map QueueEntry.favFactor = queue.map QueueEntry.favFactor := by
  have := congrArg (List.map QueueEntry.favFactor) h
  rwa [List.map_map, List.map_map] at this

private theorem beats_rates {favFactor : BitVec 64} {q i : Nat} {traceBits : Bitmap} {s₁ s₂ : Favorites}
    (hslots : i < s₁.topRated.length) (hq : ∃ e, s₁.queue[q]? = some e ∧ e.favFactor = favFactor)
    (hr : Rates favFactor q traceBits s₁ i s₂) :
    (∀ j cost, s₁.Beats j cost → s₂.Beats j cost) ∧ (traceBits.at i ≠ 0 → s₂.Beats i favFactor) := by
  rcases hr.moves with ⟨rfl, hlost⟩ | ⟨heq, hne, hwon⟩
  · refine ⟨fun _ _ h => h, fun hne => ?_⟩
    obtain ⟨w, e, hw, he, hlt⟩ := hlost hne
    exact ⟨w, e, hw, he, BitVec.le_of_lt hlt⟩
  · have hmap := favFactor_map hr.rest
    have htop : s₂.topRated = s₁.topRated.set i (some q) := by rw [heq]
    have hnew : s₂.Beats i favFactor := by
      obtain ⟨e, he, hcost⟩ := hq
      obtain ⟨e', he', hcost'⟩ := getElem?_of_map_eq hmap.symm he
      refine ⟨q, e', by rw [htop, List.getElem?_set, if_pos rfl, if_pos hslots], he', ?_⟩
      rw [← hcost', hcost]
      exact BitVec.le_refl _
    refine ⟨fun j cost h => ?_, fun _ => hnew⟩
    obtain ⟨w, e, hw, he, hle⟩ := h
    by_cases hj : i = j
    · obtain rfl := hj
      obtain ⟨w', e', hw', he', hle'⟩ := hnew
      exact ⟨w', e', hw', he', BitVec.le_trans hle' (BitVec.le_trans (hwon w e hw he) hle)⟩
    · obtain ⟨e', he', hcost'⟩ := getElem?_of_map_eq hmap.symm he
      exact ⟨w, e', by rw [htop, List.getElem?_set, if_neg hj, hw], he', hcost' ▸ hle⟩

private theorem beats_costed (h : s.Consistent) {q : Nat} {e e' : QueueEntry} (he : s.queue[q]? = some e)
    (hcost : e.tcRef ≠ 0 → e'.favFactor ≤ e.favFactor) {i : Nat} {cost : BitVec 64} (hb : s.Beats i cost) :
    ({ s with queue := s.queue.set q e' } : Favorites).Beats i cost := by
  obtain ⟨w, e₁, hw, he₁, hle⟩ := hb
  by_cases hqw : q = w
  · obtain rfl := hqw
    obtain rfl := Option.some.inj (he.symm.trans he₁)
    have hpos := List.count_pos_iff.mpr (List.mem_of_getElem? hw)
    have href := h.owned.refs q e he
    refine ⟨q, e', hw, ?_, BitVec.le_trans (hcost (by omega)) hle⟩
    exact List.getElem?_set_self (List.getElem?_eq_some_iff.mp he).1
  · exact ⟨w, e₁, hw, by rw [List.getElem?_set, if_neg hqw, he₁], hle⟩

/-- What the rating of an entry does to the winners: no byte's winner gets dearer, and none of the entry's bytes has a
winner that is dearer than the entry. -/
private theorem rating_beats (h : s.Consistent) {q : Nat} {e : QueueEntry} (he : s.queue[q]? = some e) (e' : QueueEntry)
    (hcost : e'.uncosted = e.uncosted) (hcheap : e.tcRef ≠ 0 → e'.favFactor ≤ e.favFactor) (traceBits : Bitmap) :
    ∃ s', Favorites.updateBitmapScore { s with queue := s.queue.set q e' } q traceBits = some s' ∧ s'.Consistent ∧
      (∀ i cost, s.Beats i cost → s'.Beats i cost) ∧
      ∃ e₁, s'.queue[q]? = some e₁ ∧ ∀ i < mapSize, traceBits.at i ≠ 0 → s'.Beats i e₁.favFactor := by
  have hset : (s.queue.set q e')[q]? = some e' := List.getElem?_set_self (List.getElem?_eq_some_iff.mp he).1
  obtain ⟨s', hs, h', -, hkeep, hnew, hq⟩ := rating_completes h he e' hcost traceBits
    (fun past s' => (∀ i cost, s.Beats i cost → s'.Beats i cost) ∧
      (∀ i ∈ past, traceBits.at i ≠ 0 → s'.Beats i e'.favFactor) ∧ ∃ e₁, s'.queue[q]? = some e₁ ∧ e₁.favFactor = e'.favFactor)
    ⟨fun i cost hb => beats_costed h he hcheap hb, fun i hi => absurd hi List.not_mem_nil, e', hset, rfl⟩
    (fun past i s₁ s₂ hi hrated hR hr => by
      obtain ⟨hkeep, hnew, hq⟩ := hR
      obtain ⟨hstep, hi⟩ := beats_rates (hrated.slots.symm ▸ hi) hq hr
      refine ⟨fun j cost hb => hstep j cost (hkeep j cost hb), fun j hj hne => ?_, ?_⟩
      · rcases List.mem_append.mp hj with hj | hj
        · exact hstep j _ (hnew j hj hne)
        · obtain rfl := List.mem_singleton.mp hj
          exact hi hne
      · obtain ⟨e₁, he₁, hcost₁⟩ := hq
        obtain ⟨e₂, he₂, hcost₂⟩ := getElem?_of_map_eq (favFactor_map hr.rest).symm he₁
        exact ⟨e₂, he₂, hcost₂.symm.trans hcost₁⟩)
  obtain ⟨e₁, he₁, hcost₁⟩ := hq
  exact ⟨s', hs, h', hkeep, e₁, he₁, fun i hi hne => hcost₁ ▸ hnew i (List.mem_range.mpr hi) hne⟩

private theorem step_beats (h : s.Consistent) (dumbMode : Bool) {ev : QueueEvent} (hev : ev.Names s) (hcheap : ev.Cheapens s) :
    ∃ s', s.step dumbMode ev = some s' ∧ s'.Consistent ∧ (∀ i cost, s.Beats i cost → s'.Beats i cost) ∧
      ∀ q traceBits, ev.rating = some (q, traceBits) →
        ∃ e, s'.queue[q]? = some e ∧ ∀ i < mapSize, traceBits.at i ≠ 0 → s'.Beats i e.favFactor := by
  cases ev with
  | addToQueue len =>
    refine ⟨_, rfl, (addToQueue_consistent h len).1, fun i cost hb => ?_, fun q t hr => by cases hr⟩
    obtain ⟨w, e, hw, he, hle⟩ := hb
    refine ⟨w, e, hw, ?_, hle⟩
    rw [Favorites.addToQueue, List.getElem?_append_left (List.getElem?_eq_some_iff.mp he).1, he]
  | calibrated q execUs traceBits =>
    obtain ⟨e, he⟩ : ∃ e, s.queue[q]? = some e := ⟨_, List.getElem?_eq_getElem hev⟩
    obtain ⟨s', hs, h', hkeep, hnew⟩ := rating_beats h he { e with execUs := execUs } rfl (hcheap e he) traceBits
    rw [Favorites.step, he, Option.bind_eq_bind, Option.bind_some]
    refine ⟨s', hs, h', hkeep, fun p t hr => ?_⟩
    cases hr
    exact hnew
  | trimmed q len cleanTrace =>
    obtain ⟨e, he⟩ : ∃ e, s.queue[q]? = some e := ⟨_, List.getElem?_eq_getElem hev⟩
    rw [Favorites.step, he, Option.bind_eq_bind, Option.bind_some]
    cases cleanTrace with
    | none =>
      have hmap : (s.queue.set q { e with len := len }).map QueueEntry.uncosted = s.queue.map QueueEntry.uncosted :=
        map_set_of_eq he rfl
      exact ⟨_, rfl, (costed_consistent h hmap).1, fun i cost hb => beats_costed h he (hcheap e he) hb,
        fun p t hr => by cases hr⟩
    | some traceBits =>
      obtain ⟨s', hs, h', hkeep, hnew⟩ := rating_beats h he { e with len := len } rfl (hcheap e he) traceBits
      refine ⟨s', hs, h', hkeep, fun p t hr => ?_⟩
      cases hr
      exact hnew
  | cullQueue =>
    obtain ⟨s', hs, h', hres⟩ := cullQueue_completes h dumbMode (fun _ => True) trivial
      fun _ _ _ _ _ _ _ _ _ _ _ _ => trivial
    refine ⟨s', hs, h', fun i cost hb => ?_, fun q t hr => by cases hr⟩
    rcases hres with rfl | ⟨htop, hunmarked, -⟩
    · exact hb
    · have hmap := congrArg (List.map QueueEntry.favFactor) hunmarked
      rw [List.map_map, List.map_map] at hmap
      exact beats_congr htop hmap hb
  | abandonEntry q counts =>
    obtain ⟨s', hs, h', -, htop, hmap⟩ := abandonEntry_consistent h hev counts
    refine ⟨s', hs, h', fun i cost hb => beats_congr htop ?_ hb, fun q t hr => by cases hr⟩
    have := congrArg (List.map Prod.fst) hmap
    rwa [List.map_map, List.map_map] at this

/-- Where no entry gets dearer while it has won a byte, the winner of a byte costs in the end at most what any entry
cost that was rated for the byte, when it was rated. -/
theorem winners_cheapest (dumbMode : Bool) (before after : List QueueEvent) {ev : QueueEvent} {q : Nat} {traceBits : Bitmap}
    (hrating : ev.rating = some (q, traceBits))
    (h : AllMeet (Favorites.step dumbMode) (fun s ev => ev.Names s ∧ ev.Cheapens s) Favorites.empty (before ++ ev :: after)) :
    ∃ s₁ s e, (before ++ [ev]).foldlM (Favorites.step dumbMode) Favorites.empty = some s₁ ∧
      (before ++ ev :: after).foldlM (Favorites.step dumbMode) Favorites.empty = some s ∧ s₁.queue[q]? = some e ∧
      ∀ i < mapSize, traceBits.at i ≠ 0 → s.Beats i e.favFactor := by
  obtain ⟨hbefore, hrest⟩ := allMeet_append.mp h
  obtain ⟨s₀, hs₀, h₀⟩ := exists_foldlM_inv_of_allMeet Favorites.Consistent
    (fun _ _ hs hev => step_consistent hs dumbMode hev.1) before empty_consistent hbefore
  obtain ⟨⟨hnames, hcheap⟩, hafter⟩ := hrest s₀ hs₀
  obtain ⟨s₁, hs₁, h₁, -, hnew⟩ := step_beats h₀ dumbMode hnames hcheap
  rw [hs₁] at hafter
  obtain ⟨e, he, hbeats⟩ := hnew q traceBits hrating
  obtain ⟨s, hs, -, hkeep⟩ := exists_foldlM_inv_of_allMeet
    (fun s => s.Consistent ∧ ∀ i < mapSize, traceBits.at i ≠ 0 → s.Beats i e.favFactor)
    (fun s ev hs hev => by
      obtain ⟨s', hs', h', hkeep, -⟩ := step_beats hs.1 dumbMode hev.1 hev.2
      exact ⟨s', hs', h', fun i hi hne => hkeep i _ (hs.2 i hi hne)⟩) after ⟨h₁, hbeats⟩ hafter
  refine ⟨s₁, s, e, ?_, ?_, he, hkeep⟩
  · rw [List.foldlM_append, hs₀]
    simpa using hs₁
  · rw [List.foldlM_append, hs₀]
    simpa [hs₁] using hs

/-- The same of an entry that was rated, which the events alone tell. -/
def QueueEvent.lowers (known : List Known) : QueueEvent → Bool
  | .calibrated q execUs _ => known[q]?.all fun k => !k.rated || execUs * k.len.setWidth 64 ≤ k.execUs * k.len.setWidth 64
  | .trimmed q len _ => known[q]?.all fun k => !k.rated || k.execUs * len.setWidth 64 ≤ k.execUs * k.len.setWidth 64
  | .addToQueue _ | .cullQueue | .abandonEntry _ _ => true

theorem cheapens_of_lowers {known : List Known} (h : s.Follows known) {ev : QueueEvent} (hev : ev.lowers known = true) : ev.Cheapens s := by
  have hentry {q : Nat} {e : QueueEntry} (he : s.queue[q]? = some e) (hwon : e.tcRef ≠ 0) :
      ∃ k, known[q]? = some k ∧ e.execUs = k.execUs ∧ e.len = k.len ∧ k.rated = true := by
    have hi := congrArg (·[q]?) h.costs
    simp only [List.getElem?_map, he, Option.map_some] at hi
    obtain ⟨k, hk, hcost⟩ := Option.map_eq_some_iff.mp hi.symm
    refine ⟨k, hk, (congrArg Prod.fst hcost).symm, (congrArg Prod.snd hcost).symm, ?_⟩
    by_contra hrated
    have href := h.consistent.owned.refs q e he
    rw [List.count_eq_zero.mpr (h.unrated q k hk (Bool.eq_false_iff.mpr hrated))] at href
    exact hwon href
  cases ev with
  | addToQueue len => trivial
  | cullQueue => trivial
  | abandonEntry q counts => trivial
  | calibrated q execUs traceBits =>
    intro e he hwon
    obtain ⟨k, hk, hexec, hlen, hrated⟩ := hentry he hwon
    rw [QueueEvent.lowers, hk, Option.all_some, hrated, Bool.not_true, Bool.false_or, decide_eq_true_iff, ← hexec, ← hlen] at hev
    exact hev
  | trimmed q len cleanTrace =>
    intro e he hwon
    obtain ⟨k, hk, hexec, hlen, hrated⟩ := hentry he hwon
    rw [QueueEvent.lowers, hk, Option.all_some, hrated, Bool.not_true, Bool.false_or, decide_eq_true_iff, ← hexec, ← hlen] at hev
    exact hev

/-- The slots of the first entry are won by a cheaper one, whose trimming is aborted and which is then rated cheaper still. -/
theorem winners_cheapest_rated :
    ∃ s₁ s e, [QueueEvent.addToQueue 8, .addToQueue 4, .calibrated 0 100 sparseTrace].foldlM (Favorites.step false)
        Favorites.empty = some s₁ ∧
      [QueueEvent.addToQueue 8, .addToQueue 4, .calibrated 0 100 sparseTrace, .calibrated 1 50 sparseTrace, .trimmed 1 3 none, .cullQueue,
        .calibrated 1 40 sparseTrace].foldlM (Favorites.step false) Favorites.empty = some s ∧
      s₁.queue[0]? = some e ∧ ∀ i < mapSize, sparseTrace.at i ≠ 0 → s.Beats i e.favFactor :=
  @winners_cheapest false [.addToQueue 8, .addToQueue 4] [.calibrated 1 50 sparseTrace, .trimmed 1 3 none, .cullQueue, .calibrated 1 40 sparseTrace]
    (.calibrated 0 100 sparseTrace) 0 sparseTrace rfl
    (@allMeet_of_known false _ (fun known ev => ev.lowers known = true) (fun _ _ _ hs hnames hlow => ⟨hnames, cheapens_of_lowers hs hlow⟩) _
      (by decide))

end LtlFuzzer.Aflgo
