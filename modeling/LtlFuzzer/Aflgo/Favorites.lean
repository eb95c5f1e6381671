import LtlFuzzer.Aflgo.Bitmap
import LtlFuzzer.Foundation.Runs

/-! The queue's favored entries: who is rated top for each byte of the map, and who is favored for it. -/
namespace LtlFuzzer.Aflgo
open Foundation Runs

/-- An entry of the queue, with the fields the favorites are computed from. -/
structure QueueEntry where
  execUs : BitVec 64
  len : BitVec 32
  tcRef : Int
  traceMini : Option (List (BitVec 8))
  favored : Bool
  wasFuzzed : Bool
  fsRedundant : Bool

/-- The queue, the winner of each byte, and the counters over them. -/
structure Favorites where
  queue : List QueueEntry
  topRated : List (Option Nat)
  scoreChanged : Bool
  queuedFavored : Int
  pendingFavored : Int
  pendingNotFuzzed : Int

def Favorites.empty : Favorites where
  queue := []
  topRated := List.replicate mapSize none
  scoreChanged := false
  queuedFavored := 0
  pendingFavored := 0
  pendingNotFuzzed := 0

/-- Bit i of a compacted map. -/
def bitAt (m : List (BitVec 8)) (i : Nat) : Bool := (m.getD (i >>> 3) 0).getLsbD (i &&& 7)

def setBit (dst : List (BitVec 8)) (i : Nat) : List (BitVec 8) :=
  dst.set (i >>> 3) (dst.getD (i >>> 3) 0 ||| (1 : BitVec 8) <<< (i &&& 7))

def minimizeBits (src : Bitmap) : List (BitVec 8) :=
  (List.range mapSize).foldl (fun dst i => if src.at i ≠ 0 then setBit dst i else dst) (List.replicate (mapSize >>> 3) 0)

def QueueEntry.favFactor (e : QueueEntry) : BitVec 64 := e.execUs * e.len.setWidth 64

/-- One slot fewer is won by an entry; its bits are freed with the last of them. -/
def QueueEntry.lose (e : QueueEntry) : QueueEntry :=
  if e.tcRef - 1 = 0 then { e with tcRef := e.tcRef - 1, traceMini := none } else { e with tcRef := e.tcRef - 1 }

def QueueEntry.win (e : QueueEntry) (traceBits : Bitmap) : QueueEntry :=
  { e with tcRef := e.tcRef + 1, traceMini := some (e.traceMini.getD (minimizeBits traceBits)) }

def Favorites.loses (s : Favorites) (w : Nat) : Option Favorites := do
  let e ← s.queue[w]?
  some { s with queue := s.queue.set w e.lose }

def Favorites.wins (s : Favorites) (q : Nat) (traceBits : Bitmap) (i : Nat) : Option Favorites := do
  let e ← s.queue[q]?
  some { s with topRated := s.topRated.set i (some q), queue := s.queue.set q (e.win traceBits), scoreChanged := true }

/-- What an entry with this factor does to the winner of byte i. -/
def Favorites.updateSlot (favFactor : BitVec 64) (q : Nat) (traceBits : Bitmap) (s : Favorites) (i : Nat) : Option Favorites :=
  if traceBits.at i = 0 then some s
  else match s.topRated.getD i none with
    | none => s.wins q traceBits i
    | some w => do
      let e ← s.queue[w]?
      if favFactor > e.favFactor then some s
      else (← s.loses w).wins q traceBits i

def Favorites.updateBitmapScore (s : Favorites) (q : Nat) (traceBits : Bitmap) : Option Favorites := do
  let e ← s.queue[q]?
  (List.range mapSize).foldlM (Favorites.updateSlot e.favFactor q traceBits) s

/-- A winner becomes a favorite, and its bits are taken from those that are still to be captured. -/
def Favorites.mark (r : List (BitVec 8) × Favorites) (w : Nat) (e : QueueEntry) (mini : List (BitVec 8)) :
    List (BitVec 8) × Favorites :=
  (List.zipWith (fun v m => if m ≠ 0 then v &&& ~~~m else v) r.1 mini,
    { r.2 with
      queue := r.2.queue.set w { e with favored := true }
      queuedFavored := r.2.queuedFavored + 1
      pendingFavored := if e.wasFuzzed then r.2.pendingFavored else r.2.pendingFavored + 1 })

def Favorites.cullSlot (r : List (BitVec 8) × Favorites) (i : Nat) : Option (List (BitVec 8) × Favorites) :=
  match r.2.topRated.getD i none with
  | none => some r
  | some w =>
    if bitAt r.1 i then do
      let e ← r.2.queue[w]?
      let mini ← e.traceMini
      some (Favorites.mark r w e mini)
    else some r

def Favorites.cullQueue (dumbMode : Bool) (s : Favorites) : Option Favorites :=
  if dumbMode || !s.scoreChanged then some s
  else do
    let r ← (List.range mapSize).foldlM Favorites.cullSlot (List.replicate (mapSize >>> 3) 0xff,
      { s with
        scoreChanged := false
        queuedFavored := 0
        pendingFavored := 0
        queue := s.queue.map fun e => { e with favored := false } })
    some { r.2 with queue := r.2.queue.map fun e => { e with fsRedundant := !e.favored } }

def Favorites.addToQueue (s : Favorites) (len : BitVec 32) : Favorites :=
  { s with
    queue := s.queue ++ [⟨0, len, 0, none, false, false, false⟩]
    pendingNotFuzzed := s.pendingNotFuzzed + 1 }

/-- The end of an entry's turn; it counts where the fuzzer goes on and the entry is calibrated. -/
def Favorites.abandonEntry (s : Favorites) (q : Nat) (counts : Bool) : Option Favorites := do
  let e ← s.queue[q]?
  if counts && !e.wasFuzzed then
    some { s with
      queue := s.queue.set q { e with wasFuzzed := true }
      pendingNotFuzzed := s.pendingNotFuzzed - 1
      pendingFavored := if e.favored then s.pendingFavored - 1 else s.pendingFavored }
  else some s

/-- What the fuzzer does with its queue; a trimming that is aborted ends without a clean trace. -/
inductive QueueEvent where
  | addToQueue (len : BitVec 32)
  | calibrated (q : Nat) (execUs : BitVec 64) (traceBits : Bitmap)
  | trimmed (q : Nat) (len : BitVec 32) (cleanTrace : Option Bitmap)
  | cullQueue
  | abandonEntry (q : Nat) (counts : Bool)

def Favorites.step (dumbMode : Bool) (s : Favorites) : QueueEvent → Option Favorites
  | .addToQueue len => some (s.addToQueue len)
  | .calibrated q execUs traceBits => do
    let e ← s.queue[q]?
    Favorites.updateBitmapScore { s with queue := s.queue.set q { e with execUs := execUs } } q traceBits
  | .trimmed q len cleanTrace => do
    let e ← s.queue[q]?
    let s := { s with queue := s.queue.set q { e with len := len } }
    match cleanTrace with
    | some traceBits => s.updateBitmapScore q traceBits
    | none => some s
  | .cullQueue => s.cullQueue dumbMode
  | .abandonEntry q counts => s.abandonEntry q counts

/-- The entry that an event is about has been added. -/
def QueueEvent.Names (s : Favorites) : QueueEvent → Prop
  | .addToQueue _ | .cullQueue => True
  | .calibrated q _ _ | .trimmed q _ _ | .abandonEntry q _ => q < s.queue.length

private theorem low_bits (n : Nat) : n &&& 7 = n % 8 := Nat.and_two_pow_sub_one_eq_mod n 3

private theorem high_bits (n : Nat) : n >>> 3 = n / 8 := Nat.shiftRight_eq_div_pow n 3

private theorem getLsbD_one_shift {k b : Nat} (hk : k < 8) : ((1 : BitVec 8) <<< k).getLsbD b = decide (b = k) := by
  rw [BitVec.getLsbD_shiftLeft]
  simp only [BitVec.ofNat_eq_ofNat, BitVec.getLsbD_one]
  grind

private theorem bitAt_setBit (dst : List (BitVec 8)) {i j : Nat} (hj : j >>> 3 < dst.length) :
    bitAt (setBit dst j) i = (bitAt dst i || decide (i = j)) := by
  have hlow : j &&& 7 < 8 := by rw [low_bits]; omega
  rw [bitAt, bitAt, setBit, List.getD_eq_getElem?_getD, List.getElem?_set, if_pos hj]
  by_cases h : j >>> 3 = i >>> 3
  · rw [if_pos h, Option.getD_some, BitVec.getLsbD_or, getLsbD_one_shift hlow, h]
    congr 2
    rw [high_bits, high_bits] at h
    rw [low_bits, low_bits, eq_iff_iff]
    omega
  · rw [if_neg h, ← List.getD_eq_getElem?_getD, decide_eq_false (by rintro rfl; exact h rfl), Bool.or_false]

private theorem byte_index_lt {i : Nat} (hi : i < mapSize) : i >>> 3 < mapSize >>> 3 := by
  have : mapSize % 8 = 0 := by
    unfold mapSize
    rfl
  rw [high_bits, high_bits]
  omega

private theorem bitAt_zero (n i : Nat) : bitAt (List.replicate n 0) i = false := by
  rw [bitAt, List.getD_eq_getElem?_getD, List.getElem?_replicate]
  split <;> simp

private theorem minimize_loop (src : Bitmap) (i n : Nat) (hn : n ≤ mapSize) :
    bitAt ((List.range n).foldl (fun dst i => if src.at i ≠ 0 then setBit dst i else dst)
      (List.replicate (mapSize >>> 3) 0)) i = decide (i < n ∧ src.at i ≠ 0) ∧
    ((List.range n).foldl (fun dst i => if src.at i ≠ 0 then setBit dst i else dst)
      (List.replicate (mapSize >>> 3) 0)).length = mapSize >>> 3 := by
  induction n with
  | zero => exact ⟨by rw [List.range_zero, List.foldl_nil, bitAt_zero]; simp, List.length_replicate⟩
  | succ n ih =>
    obtain ⟨hbit, hlen⟩ := ih (Nat.le_of_succ_le hn)
    rw [List.range_succ, List.foldl_append, List.foldl_cons, List.foldl_nil]
    split
    · next hset =>
      rw [bitAt_setBit _ (by rw [hlen]; exact byte_index_lt hn), hbit]
      refine ⟨?_, by rw [setBit, List.length_set, hlen]⟩
      rw [← Bool.decide_or]
      refine decide_eq_decide.mpr ?_
      grind
    · next hset =>
      rw [hbit]
      refine ⟨decide_eq_decide.mpr ?_, hlen⟩
      grind

/-- A compacted map keeps of each byte whether it is set. -/
theorem bitAt_minimizeBits (src : Bitmap) {i : Nat} (hi : i < mapSize) :
    bitAt (minimizeBits src) i = decide (src.at i ≠ 0) := by
  rw [minimizeBits, (minimize_loop src i mapSize le_rfl).1]
  exact decide_eq_decide.mpr (and_iff_right hi)

theorem length_minimizeBits (src : Bitmap) : (minimizeBits src).length = mapSize >>> 3 :=
  (minimize_loop src 0 mapSize le_rfl).2

/-- An entry counts the bytes it has won, and keeps its bits as long as there are any. -/
structure Owned (queue : List QueueEntry) (topRated : List (Option Nat)) : Prop where
  refs : ∀ (q : Nat) (e : QueueEntry), queue[q]? = some e → e.tcRef = (topRated.count (some q) : Nat)
  kept : ∀ (q : Nat) (e : QueueEntry), queue[q]? = some e → (e.traceMini.isSome ↔ e.tcRef ≠ 0)
  sized : ∀ (q : Nat) (e : QueueEntry), queue[q]? = some e → ∀ m, e.traceMini = some m → m.length = mapSize >>> 3
  named : ∀ q, some q ∈ topRated → q < queue.length

/-- An entry less what the ratings change of it. -/
def QueueEntry.rest (e : QueueEntry) : QueueEntry := { e with tcRef := 0, traceMini := none }

@[simp] theorem QueueEntry.rest_lose (e : QueueEntry) : e.lose.rest = e.rest := by
  rw [QueueEntry.lose]
  split <;> rfl

@[simp] theorem QueueEntry.rest_win (e : QueueEntry) (traceBits : Bitmap) : (e.win traceBits).rest = e.rest := rfl

theorem map_set_of_eq {α β : Type} {f : α → β} {l : List α} {i : Nat} {a b : α} (hb : l[i]? = some b) (h : f a = f b) :
    (l.set i a).map f = l.map f := by
  rw [List.map_set, h]
  have hmap : (l.map f)[i]? = some (f b) := by rw [List.getElem?_map, hb, Option.map_some]
  obtain ⟨hi, hget⟩ := List.getElem?_eq_some_iff.mp hmap
  rw [← hget, List.set_getElem_self]

theorem getElem?_set_cases {α : Type} {l : List α} {i j : Nat} {a b : α} (h : (l.set i a)[j]? = some b) :
    j = i ∧ b = a ∨ j ≠ i ∧ l[j]? = some b := by
  rw [List.getElem?_set] at h
  split at h
  · next hij =>
    split at h
    · exact Or.inl ⟨hij.symm, (Option.some.inj h).symm⟩
    · cases h
  · next hij => exact Or.inr ⟨fun he => hij he.symm, h⟩

/-- The bits that entries have are those they had, or new ones of a kind. -/
def Minis (queue queue' : List QueueEntry) (New : Nat → List (BitVec 8) → Prop) : Prop :=
  ∀ (p : Nat) (e' : QueueEntry) (m : List (BitVec 8)), queue'[p]? = some e' → e'.traceMini = some m →
    (∃ e : QueueEntry, queue[p]? = some e ∧ e.traceMini = some m) ∨ New p m

private theorem owned_loses {s : Favorites} {i w : Nat} (h : Owned s.queue s.topRated) (hw : s.topRated[i]? = some (some w)) :
    ∃ s', s.loses w = some s' ∧ Owned s'.queue (s.topRated.set i none) ∧
      s' = { s with queue := s'.queue } ∧ s'.queue.map QueueEntry.rest = s.queue.map QueueEntry.rest ∧
      Minis s.queue s'.queue fun _ _ => False := by
  obtain ⟨hi, hget⟩ := List.getElem?_eq_some_iff.mp hw
  have hmem := List.mem_of_getElem? hw
  obtain ⟨e, he⟩ : ∃ e, s.queue[w]? = some e := ⟨_, List.getElem?_eq_getElem (h.named w hmem)⟩
  have hpos : (0 : Int) < e.tcRef := by
    rw [h.refs _ _ he]
    exact_mod_cast List.count_pos_iff.mpr hmem
  have hcount (q : Nat) : ((s.topRated.set i none).count (some q) : Int) =
      s.topRated.count (some q) - if w = q then 1 else 0 := by
    rw [List.count_set hi, hget]
    by_cases hq : w = q
    · have := List.count_pos_iff.mpr (hq ▸ hmem)
      simp [hq]
      omega
    · simp [hq]
  have hlose : e.lose.tcRef = e.tcRef - 1 ∧ (e.lose.traceMini.isSome ↔ e.lose.tcRef ≠ 0) ∧
      ∀ m, e.lose.traceMini = some m → e.traceMini = some m := by
    rw [QueueEntry.lose]
    split
    · next h0 => exact ⟨rfl, by simp [h0], by simp⟩
    · next h0 => exact ⟨rfl, iff_of_true ((h.kept _ _ he).mpr hpos.ne') h0, fun _ hm => hm⟩
  refine ⟨{ s with queue := s.queue.set w e.lose }, by rw [Favorites.loses, he]; rfl, ⟨?_, ?_, ?_, ?_⟩, rfl,
    map_set_of_eq he (QueueEntry.rest_lose e), ?_⟩
  · intro q e' hq
    rw [hcount]
    rcases getElem?_set_cases hq with ⟨rfl, rfl⟩ | ⟨hne, hq⟩
    · rw [if_pos rfl, hlose.1, h.refs _ _ he]
    · rw [if_neg fun heq => hne heq.symm, h.refs q e' hq, sub_zero]
  · intro q e' hq
    rcases getElem?_set_cases hq with ⟨rfl, rfl⟩ | ⟨-, hq⟩
    · exact hlose.2.1
    · exact h.kept q e' hq
  · intro q e' hq m hm
    rcases getElem?_set_cases hq with ⟨rfl, rfl⟩ | ⟨-, hq⟩
    · exact h.sized _ _ he m (hlose.2.2 m hm)
    · exact h.sized q e' hq m hm
  · intro q hq
    rw [List.length_set]
    exact h.named q ((List.mem_or_eq_of_mem_set hq).resolve_right (by simp))
  · intro p e' m hp hm
    rcases getElem?_set_cases hp with ⟨rfl, rfl⟩ | ⟨-, hp⟩
    · exact Or.inl ⟨e, he, hlose.2.2 m hm⟩
    · exact Or.inl ⟨e', hp, hm⟩

private theorem owned_wins {s : Favorites} {i q : Nat} (traceBits : Bitmap) (h : Owned s.queue (s.topRated.set i none))
    (hi : i < s.topRated.length) (hq : q < s.queue.length) :
    ∃ s', s.wins q traceBits i = some s' ∧ Owned s'.queue s'.topRated ∧
      s' = { s with queue := s'.queue, topRated := s.topRated.set i (some q), scoreChanged := true } ∧
      s'.queue.map QueueEntry.rest = s.queue.map QueueEntry.rest ∧
      Minis s.queue s'.queue fun p m => p = q ∧ m = minimizeBits traceBits := by
  obtain ⟨e, he⟩ : ∃ e, s.queue[q]? = some e := ⟨_, List.getElem?_eq_getElem hq⟩
  have hset : s.topRated.set i (some q) = (s.topRated.set i none).set i (some q) := by rw [List.set_set]
  have hcount (p : Nat) : (((s.topRated.set i none).set i (some q)).count (some p) : Int) =
      (s.topRated.set i none).count (some p) + if q = p then 1 else 0 := by
    rw [List.count_set (by rwa [List.length_set])]
    by_cases hp : q = p <;> simp [hp]
  have hwin : (e.win traceBits).tcRef = e.tcRef + 1 ∧ (e.win traceBits).traceMini = some (e.traceMini.getD (minimizeBits traceBits)) :=
    ⟨rfl, rfl⟩
  refine ⟨{ s with topRated := s.topRated.set i (some q), queue := s.queue.set q (e.win traceBits), scoreChanged := true },
    by rw [Favorites.wins, he]; rfl, ⟨?_, ?_, ?_, ?_⟩, rfl, map_set_of_eq he (QueueEntry.rest_win e traceBits), ?_⟩
  · intro p e' hp
    rw [hset, hcount]
    rcases getElem?_set_cases hp with ⟨rfl, rfl⟩ | ⟨hne, hp⟩
    · rw [if_pos rfl, hwin.1, h.refs _ _ he]
    · rw [if_neg fun heq => hne heq.symm, h.refs p e' hp, add_zero]
  · intro p e' hp
    rcases getElem?_set_cases hp with ⟨rfl, rfl⟩ | ⟨-, hp⟩
    · have href := h.refs _ _ he
      rw [hwin.1, hwin.2]
      exact iff_of_true rfl (by omega)
    · exact h.kept p e' hp
  · intro p e' hp m hm
    rcases getElem?_set_cases hp with ⟨rfl, rfl⟩ | ⟨-, hp⟩
    · rw [hwin.2, Option.some.injEq] at hm
      rw [← hm]
      cases hmini : e.traceMini with
      | none =>
        rw [Option.getD_none]
        exact length_minimizeBits traceBits
      | some m' =>
        rw [Option.getD_some]
        exact h.sized _ _ he m' hmini
    · exact h.sized p e' hp m hm
  · intro p hp
    rw [List.length_set]
    rw [hset] at hp
    rcases List.mem_or_eq_of_mem_set hp with hp | hp
    · exact h.named p hp
    · obtain rfl := Option.some.inj hp
      exact hq
  · intro p e' m hp hm
    rcases getElem?_set_cases hp with ⟨rfl, rfl⟩ | ⟨-, hp⟩
    · rw [hwin.2, Option.some.injEq] at hm
      cases hmini : e.traceMini with
      | none =>
        rw [hmini, Option.getD_none] at hm
        exact Or.inr ⟨rfl, hm.symm⟩
      | some m' =>
        rw [hmini, Option.getD_some] at hm
        exact Or.inl ⟨e, he, hm ▸ hmini⟩
    · exact Or.inl ⟨e', hp, hm⟩

/-- What one byte of the rating does: nothing, where the trace does not have it or the winner is better,
or the entry takes the slot of a winner that is no better. -/
structure Rates (favFactor : BitVec 64) (q : Nat) (traceBits : Bitmap) (s : Favorites) (i : Nat) (s' : Favorites) : Prop where
  owned : Owned s'.queue s'.topRated
  rest : s'.queue.map QueueEntry.rest = s.queue.map QueueEntry.rest
  minis : Minis s.queue s'.queue fun p m => p = q ∧ m = minimizeBits traceBits
  moves : s' = s ∧ (traceBits.at i ≠ 0 → ∃ w e, s.topRated[i]? = some (some w) ∧ s.queue[w]? = some e ∧ e.favFactor < favFactor) ∨
    s' = { s with queue := s'.queue, topRated := s.topRated.set i (some q), scoreChanged := true } ∧ traceBits.at i ≠ 0 ∧
      ∀ w e, s.topRated[i]? = some (some w) → s.queue[w]? = some e → favFactor ≤ e.favFactor

private theorem minis_refl (queue : List QueueEntry) (New : Nat → List (BitVec 8) → Prop) : Minis queue queue New :=
  fun _ e _ hp hm => Or.inl ⟨e, hp, hm⟩

theorem updateSlot_rates {favFactor : BitVec 64} {q i : Nat} (traceBits : Bitmap) {s : Favorites}
    (h : Owned s.queue s.topRated) (hi : i < s.topRated.length) (hq : q < s.queue.length) :
    ∃ s', s.updateSlot favFactor q traceBits i = some s' ∧ Rates favFactor q traceBits s i s' := by
  have hslot : s.topRated[i]? = some (s.topRated.getD i none) := by
    rw [List.getD_eq_getElem?_getD, List.getElem?_eq_getElem hi, Option.getD_some]
  rw [Favorites.updateSlot]
  split
  · next h0 => exact ⟨s, rfl, h, rfl, minis_refl _ _, Or.inl ⟨rfl, fun hne => absurd h0 hne⟩⟩
  · next hne =>
    split
    · next hnone =>
      rw [hnone] at hslot
      have hclear : s.topRated.set i none = s.topRated := by
        obtain ⟨_, hget⟩ := List.getElem?_eq_some_iff.mp hslot
        rw [← hget, List.set_getElem_self]
      obtain ⟨s', hs, howned, heq, hrest, hminis⟩ := owned_wins traceBits (hclear.symm ▸ h) hi hq
      refine ⟨s', hs, howned, hrest, hminis, Or.inr ⟨heq, hne, fun w e hw _ => ?_⟩⟩
      rw [hslot] at hw
      cases Option.some.inj hw
    · next w hw =>
      rw [hw] at hslot
      obtain ⟨e, he⟩ : ∃ e, s.queue[w]? = some e :=
        ⟨_, List.getElem?_eq_getElem (h.named w (List.mem_of_getElem? hslot))⟩
      rw [he, Option.bind_eq_bind, Option.bind_some]
      split
      · next hlt => exact ⟨s, rfl, h, rfl, minis_refl _ _, Or.inl ⟨rfl, fun _ => ⟨w, e, hslot, he, hlt⟩⟩⟩
      · next hge =>
        obtain ⟨s₁, hs₁, howned₁, heq₁, hrest₁, hminis₁⟩ := owned_loses h hslot
        have htop₁ : s₁.topRated = s.topRated := by rw [heq₁]
        have hlen : s₁.queue.length = s.queue.length := by
          have := congrArg List.length hrest₁
          rwa [List.length_map, List.length_map] at this
        obtain ⟨s', hs, howned, heq, hrest, hminis⟩ := owned_wins traceBits (htop₁ ▸ howned₁)
          (htop₁ ▸ hi) (hlen ▸ hq)
        refine ⟨s', by rw [hs₁]; exact hs, howned, hrest.trans hrest₁, ?_, Or.inr ⟨by rw [heq, heq₁], hne, ?_⟩⟩
        · intro p e' m hp hm
          rcases hminis p e' m hp hm with ⟨e₁, hp₁, hm₁⟩ | hnew
          · exact Or.inl ((hminis₁ p e₁ m hp₁ hm₁).resolve_right id)
          · exact Or.inr hnew
        · intro w' e' hw' he'
          rw [hslot] at hw'
          obtain rfl := Option.some.inj (Option.some.inj hw')
          obtain rfl := Option.some.inj (he.symm.trans he')
          exact BitVec.not_lt.mp hge

/-- What a rating leaves, byte after byte: nothing but the ratings changes, and any change is noted. -/
structure Rated (s s' : Favorites) : Prop where
  owned : Owned s'.queue s'.topRated
  slots : s'.topRated.length = mapSize
  rest : s'.queue.map QueueEntry.rest = s.queue.map QueueEntry.rest
  noted : s' = s ∨ s' = { s with queue := s'.queue, topRated := s'.topRated, scoreChanged := true }

private theorem rated_rates {favFactor : BitVec 64} {q i : Nat} {traceBits : Bitmap} {s s₁ s₂ : Favorites} (h : Rated s s₁)
    (hr : Rates favFactor q traceBits s₁ i s₂) : Rated s s₂ := by
  refine ⟨hr.owned, ?_, hr.rest.trans h.rest, ?_⟩
  · rcases hr.moves with ⟨rfl, -⟩ | ⟨heq, -⟩
    · exact h.slots
    · rw [heq, List.length_set, h.slots]
  · rcases hr.moves with ⟨rfl, -⟩ | ⟨heq, -⟩
    · exact h.noted
    · right
      rcases h.noted with rfl | hs₁
      · rw [heq]
      · rw [heq, hs₁]

/-- The rating of an entry completes; what holds of the bytes done so far is kept from byte to byte. -/
theorem updateBitmapScore_history {s : Favorites} {q : Nat} {e : QueueEntry} {traceBits : Bitmap} (he : s.queue[q]? = some e)
    (h : Owned s.queue s.topRated) (hslots : s.topRated.length = mapSize) (R : List Nat → Favorites → Prop) (h0 : R [] s)
    (hstep : ∀ past i s₁ s₂, i < mapSize → Rated s s₁ → R past s₁ → Rates e.favFactor q traceBits s₁ i s₂ →
      R (past ++ [i]) s₂) :
    ∃ s', s.updateBitmapScore q traceBits = some s' ∧ Rated s s' ∧ R (List.range mapSize) s' := by
  rw [Favorites.updateBitmapScore, he, Option.bind_eq_bind, Option.bind_some]
  refine exists_foldlM_history (fun past s' => Rated s s' ∧ R past s') ?_ ⟨⟨h, hslots, rfl, Or.inl rfl⟩, h0⟩
  rintro past i hi s₁ ⟨hrated, hR⟩
  have hi : i < mapSize := List.mem_range.mp (hi.mem (by simp))
  have hq : q < s₁.queue.length := by
    have := congrArg List.length hrated.rest
    rw [List.length_map, List.length_map] at this
    exact this ▸ (List.getElem?_eq_some_iff.mp he).1
  obtain ⟨s₂, hs, hr⟩ := updateSlot_rates traceBits hrated.owned (hrated.slots.symm ▸ hi) hq
  exact ⟨s₂, hs, rated_rates hrated hr, hstep past i s₁ s₂ hi hrated hR hr⟩

theorem bitAt_zipWith {v m : List (BitVec 8)} (h : v.length = m.length) (i : Nat) :
    bitAt (List.zipWith (fun v m => if m ≠ 0 then v &&& ~~~m else v) v m) i = (bitAt v i && !bitAt m i) := by
  have hbyte (v m : BitVec 8) : (if m ≠ 0 then v &&& ~~~m else v) = v &&& ~~~m := by
    split
    · rfl
    · next h0 => rw [not_not.mp h0, BitVec.ofNat_eq_ofNat, BitVec.not_zero, BitVec.and_allOnes]
  simp only [hbyte]
  rw [bitAt, bitAt, bitAt, List.getD_eq_getElem?_getD, List.getD_eq_getElem?_getD, List.getD_eq_getElem?_getD,
    List.getElem?_zipWith]
  by_cases hi : i >>> 3 < v.length
  · have hlow : i &&& 7 < 8 := by rw [low_bits]; omega
    rw [List.getElem?_eq_getElem hi, List.getElem?_eq_getElem (h ▸ hi)]
    simp [hlow]
  · rw [List.getElem?_eq_none (Nat.not_lt.mp hi), List.getElem?_eq_none (h ▸ Nat.not_lt.mp hi)]
    simp

theorem bitAt_untouched {i : Nat} (hi : i < mapSize) : bitAt (List.replicate (mapSize >>> 3) 0xff) i = true := by
  have hlow : i &&& 7 < 8 := by rw [low_bits]; omega
  rw [bitAt, List.getD_eq_getElem?_getD, List.getElem?_replicate, if_pos (byte_index_lt hi), Option.getD_some,
    show (0xff : BitVec 8) = BitVec.allOnes 8 from rfl, BitVec.getLsbD_allOnes]
  exact decide_eq_true hlow

/-- What one byte of the culling does: it marks the winner where the byte is still to be captured. -/
theorem cullSlot_marks {r : List (BitVec 8) × Favorites} {i : Nat} (h : Owned r.2.queue r.2.topRated)
    (hi : i < r.2.topRated.length) :
    ∃ r', Favorites.cullSlot r i = some r' ∧
      (r' = r ∧ (∀ w, r.2.topRated[i]? = some (some w) → bitAt r.1 i = false) ∨
        ∃ w e mini, r.2.topRated[i]? = some (some w) ∧ r.2.queue[w]? = some e ∧ e.traceMini = some mini ∧
          bitAt r.1 i = true ∧ r' = Favorites.mark r w e mini) := by
  have hslot : r.2.topRated[i]? = some (r.2.topRated.getD i none) := by
    rw [List.getD_eq_getElem?_getD, List.getElem?_eq_getElem hi, Option.getD_some]
  rw [Favorites.cullSlot]
  split
  · next hnone =>
    rw [hnone] at hslot
    refine ⟨r, rfl, Or.inl ⟨rfl, fun w hw => ?_⟩⟩
    rw [hslot] at hw
    cases Option.some.inj hw
  · next w hw =>
    rw [hw] at hslot
    have hmem := List.mem_of_getElem? hslot
    split
    · next hbit =>
      obtain ⟨e, he⟩ : ∃ e, r.2.queue[w]? = some e := ⟨_, List.getElem?_eq_getElem (h.named w hmem)⟩
      have hpos : e.tcRef ≠ 0 := by
        have := List.count_pos_iff.mpr hmem
        rw [h.refs w e he]
        omega
      obtain ⟨mini, hmini⟩ := Option.isSome_iff_exists.mp ((h.kept w e he).mpr hpos)
      exact ⟨_, by rw [he, Option.bind_eq_bind, Option.bind_some, hmini]; rfl,
        Or.inr ⟨w, e, mini, hslot, he, hmini, hbit, rfl⟩⟩
    · next hbit => exact ⟨r, rfl, Or.inl ⟨rfl, fun _ _ => Bool.eq_false_iff.mpr hbit⟩⟩

end LtlFuzzer.Aflgo
