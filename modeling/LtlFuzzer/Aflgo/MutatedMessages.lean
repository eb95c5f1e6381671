import LtlFuzzer.Aflgo.MessageList

/-! The messages under mutation, and how those of a mutated buffer take their place in the list. -/
namespace LtlFuzzer.Aflgo
open Foundation ListSegments Runs

/-- The list, and the pointers to both sides of the messages that are mutated. -/
structure FuzzedList where
  kl : MessageList
  m2Prev : Option Nat
  m2Next : Nat

def FuzzedList.insertMessage (f : FuzzedList) (mdata : Bytes) : FuzzedList :=
  let kl := (f.kl.newMessage mdata).klPushp f.kl.blocks
  { f with kl := kl, m2Next := if kl.next f.m2Next = some kl.tail then kl.tail else f.m2Next }

/-- The messages of the mutated buffer take the place of those before. -/
def FuzzedList.updateM2 (f : FuzzedList) (texts : List Bytes) : Option FuzzedList :=
  if texts = [] then none
  else do
    let prevLast ← f.kl.getLastMessage
    let f := texts.foldl FuzzedList.insertMessage f
    let curLast ← f.kl.getLastMessage
    let first ← f.kl.next prevLast
    let kl := f.kl
    match f.m2Prev with
    | none =>
      let next := Function.update (Function.update kl.next curLast (some f.m2Next)) prevLast (some kl.tail)
      let kl' := { kl with head := first, next := next }
      let kl' ← kl'.freeUntil f.m2Next kl.nodes kl.head (next kl.head)
      some { f with kl := kl' }
    | some prev =>
      let oldStart ← kl.next prev
      let next := Function.update (Function.update (Function.update kl.next prev (some first)) curLast (some f.m2Next))
        prevLast (some kl.tail)
      let kl' := { kl with next := next }
      let kl' ← kl'.freeUntil f.m2Next kl.nodes oldStart (next oldStart)
      some { f with kl := kl' }

/-- The list has the messages before those that are mutated, these, the ones after them, and new ones. -/
structure FuzzedList.Splits (f : FuzzedList) (m1 m2 m3 new : List (Nat × Bytes)) : Prop where
  has : f.kl.Has (m1 ++ m2 ++ m3 ++ new)
  prev : f.m2Prev = (m1.map Prod.fst).getLast?
  next : (m3.map Prod.fst ++ [f.kl.tail]).head? = some f.m2Next

theorem FuzzedList.Splits.insert {f : FuzzedList} {m1 m2 m3 new : List (Nat × Bytes)} (h : f.Splits m1 m2 m3 new) (mdata : Bytes) :
    (f.insertMessage mdata).Splits m1 m2 m3 (new ++ [(f.kl.tail, mdata)]) := by
  obtain ⟨hhas, -, hnext, htail⟩ := push_has h.has mdata
  rw [List.append_assoc] at hhas
  refine ⟨hhas, h.prev, ?_⟩
  rw [FuzzedList.insertMessage]
  cases m3 with
  | nil =>
    have hend : f.kl.tail = f.m2Next := Option.some.inj h.next
    dsimp only
    rw [← hend, if_pos htail]
    rfl
  | cons p m3 =>
    obtain hp : p.1 = f.m2Next := Option.some.inj h.next
    have hmem : p.1 ∈ (m1 ++ m2 ++ p :: m3 ++ new).map Prod.fst := List.mem_map_of_mem (by simp)
    obtain ⟨c, hc, hpc⟩ := h.has.seg.next_mem hmem
    dsimp only
    rw [if_neg]
    · exact congrArg some hp
    · rw [← hp, hnext _ hmem, hpc, Option.some.injEq]
      rintro rfl
      -- the new end is not among the nodes before
      have hnot := hhas.tail_not_mem
      rw [← List.append_assoc, List.map_append, List.map_singleton] at hnot
      exact hnot hc

theorem FuzzedList.Splits.inserts {f : FuzzedList} {m1 m2 m3 new : List (Nat × Bytes)} (h : f.Splits m1 m2 m3 new)
    (texts : List Bytes) :
    ∃ more, (texts.foldl FuzzedList.insertMessage f).Splits m1 m2 m3 (new ++ more) ∧ more.map Prod.snd = texts := by
  induction texts generalizing f new with
  | nil => exact ⟨[], by rwa [List.append_nil], rfl⟩
  | cons mdata texts ih =>
    obtain ⟨more, hmore, htexts⟩ := ih (h.insert mdata)
    rw [List.append_assoc] at hmore
    exact ⟨(f.kl.tail, mdata) :: more, hmore, by rw [List.map_cons, htexts]⟩

/-- Where the messages to mutate end is none of them. -/
theorem FuzzedList.Splits.next_not_mem {f : FuzzedList} {m1 m2 m3 new : List (Nat × Bytes)} (h : f.Splits m1 m2 m3 new) :
    f.m2Next ∉ m2.map Prod.fst := by
  intro hin
  have hnodup := h.has.nodup
  simp only [List.map_append, List.append_assoc] at hnodup
  have hdisjoint := (List.nodup_append.mp (List.nodup_append.mp hnodup).2.1).2.2 _ hin f.m2Next
  rcases List.mem_append.mp (List.mem_of_head? h.next) with hm3 | htail
  · exact hdisjoint (List.mem_append_left _ hm3) rfl
  · exact hdisjoint (by simp [List.mem_singleton.mp htail]) rfl

private theorem free_replaced {f : FuzzedList} {m1 m2 m3 new : List (Nat × Bytes)} (h : f.Splits m1 m2 m3 new) (hm2 : m2 ≠ [])
    {next : Nat → Option Nat} {head start : Nat} (hseg : Seg next head ((m1 ++ new ++ m3).map Prod.fst) f.kl.tail)
    (hends : next f.kl.tail = none) (hold : Seg next start (m2.map Prod.fst) f.m2Next) :
    ∃ kl, MessageList.freeUntil f.m2Next f.kl.nodes { f.kl with head := head, next := next } start (next start) = some kl ∧
      FuzzedList.Splits { f with kl := kl } m1 new m3 [] := by
  have hperm : (m1 ++ new ++ m3 ++ m2).Perm (m1 ++ m2 ++ m3 ++ new) := by
    simp only [List.append_assoc]
    refine List.Perm.append_left m1 ?_
    rw [← List.append_assoc m2]
    exact List.perm_append_comm.trans (List.perm_append_comm.append_right new)
  have hstores := h.has.toStores.relinked hperm head next
  have hmem {p : Nat × Bytes} (hp : p ∈ m2) : p ∈ m1 ++ new ++ m3 ++ m2 := List.mem_append_right _ hp
  have hle : m2.length ≤ f.kl.nodes := by
    have := h.has.length_lt
    simp only [List.length_append] at this
    omega
  have hm2nodup : (m2.map Prod.fst).Nodup := by
    have := h.has.nodes_nodup
    simp only [List.map_append, List.append_assoc] at this
    exact (List.nodup_append.mp (List.nodup_append.mp this).2.1).1
  obtain ⟨kl, hrun, hfreed⟩ := freeUntil_freed hm2 hold h.next_not_mem (fun p hp => hstores.texts p (hmem hp))
    (fun p hp p' hp' => hstores.apart p (hmem hp) p' (hmem hp')) hm2nodup hle
  refine ⟨kl, hrun, ⟨hfreed.stores (by rwa [List.append_nil]), ?_, ?_⟩, h.prev, ?_⟩
  all_goals rw [hfreed.tail]
  · rw [hfreed.head, hfreed.next, List.append_nil]
    exact hseg
  · rw [hfreed.next]
    exact hends
  · exact h.next

/-- The messages that are mutated are replaced, whatever stands around them. -/
theorem FuzzedList.Splits.update {f : FuzzedList} {m1 m2 m3 : List (Nat × Bytes)} (h : f.Splits m1 m2 m3 []) (hm2 : m2 ≠ [])
    {texts : List Bytes} (htexts : texts ≠ []) :
    ∃ f' new, f.updateM2 texts = some f' ∧ f'.Splits m1 new m3 [] ∧ new.map Prod.snd = texts := by
  obtain ⟨new, hinserts, hnew⟩ := h.inserts texts
  rw [List.nil_append] at hinserts
  obtain ⟨f₁, hf₁⟩ : ∃ f₁, texts.foldl FuzzedList.insertMessage f = f₁ := ⟨_, rfl⟩
  rw [hf₁] at hinserts
  have hne : new ≠ [] := by
    rintro rfl
    exact htexts hnew.symm
  obtain ⟨new', x, hx⟩ := (List.eq_nil_or_concat new).resolve_left hne
  obtain ⟨old, y, hy⟩ := (List.eq_nil_or_concat (m2 ++ m3)).resolve_left (by simp [hm2])
  rw [List.concat_eq_append] at hx hy
  have hprevLast : f.kl.getLastMessage = some y.1 := by
    have := h.has
    rw [List.append_nil, List.append_assoc, hy, ← List.append_assoc] at this
    exact this.getLastMessage_eq
  have hcurLast : f₁.kl.getLastMessage = some x.1 := by
    have := hinserts.has
    rw [hx, ← List.append_assoc] at this
    exact this.getLastMessage_eq
  have hseg := hinserts.has.seg
  have hnodup := hinserts.has.nodes_nodup
  have htail := hinserts.has.tail_not_mem
  have hoff (n : Nat) (hn : n ∈ (m1 ++ m2 ++ m3 ++ new).map Prod.fst) : f₁.kl.tail ≠ n := fun h => htail (h ▸ hn)
  simp only [hx, List.map_append, List.map_singleton] at hseg hnodup hoff
  have hold : m2.map Prod.fst ++ m3.map Prod.fst = old.map Prod.fst ++ [y.1] := by
    rw [← List.map_append, hy, List.map_append, List.map_singleton]
  have hyx : y.1 ≠ x.1 := by
    have hymem : y.1 ∈ m1.map Prod.fst ++ m2.map Prod.fst ++ m3.map Prod.fst := by
      rw [List.append_assoc, hold]
      simp
    exact (List.nodup_append.mp hnodup).2.2 y.1 hymem x.1 (by simp)
  have hymem : y.1 ∈ m1.map Prod.fst ++ m2.map Prod.fst ++ m3.map Prod.fst ++ (new'.map Prod.fst ++ [x.1]) := by
    rw [List.append_assoc (m1.map _), hold]
    simp
  obtain ⟨first, -, hfirst⟩ := hseg.next_mem hymem
  -- the pointers may be set in any way that joins the parts
  have hreplaced (head : Nat) (next : Nat → Option Nat) (hhead : (if m1.map Prod.fst = [] then first else f₁.kl.head) = head)
      (hxn : next x.1 = some f₁.m2Next) (hyn : next y.1 = some f₁.kl.tail)
      (hpn : ∀ p, (m1.map Prod.fst).getLast? = some p → next p = some first)
      (hkeep : ∀ n, n ≠ x.1 → n ≠ y.1 → (m1.map Prod.fst).getLast? ≠ some n → next n = f₁.kl.next n) :
      ∃ start kl, Seg f₁.kl.next f₁.kl.head (m1.map Prod.fst) start ∧
        MessageList.freeUntil f₁.m2Next f₁.kl.nodes { f₁.kl with head := head, next := next } start (next start) = some kl ∧
        FuzzedList.Splits { f₁ with kl := kl } m1 new m3 [] := by
    obtain ⟨first', start, hfirst', hstart, hlist, hout⟩ := hseg.splice hnodup hold hinserts.next hxn hyn
      (fun p hp => (hpn p hp).trans hfirst.symm) hkeep
    obtain rfl : first = first' := Option.some.inj (hfirst.symm.trans hfirst')
    have hends : next f₁.kl.tail = none := by
      rw [hkeep f₁.kl.tail (hoff _ (by simp)) (hoff _ hymem) fun hl => hoff _ (by simp [List.mem_of_getLast? hl]) rfl]
      exact hinserts.has.ends
    rw [hhead] at hlist
    have hlist' : Seg next head ((m1 ++ new ++ m3).map Prod.fst) f₁.kl.tail := by
      simpa only [hx, List.map_append, List.map_singleton] using hlist
    obtain ⟨kl, hrun, hsplits⟩ := free_replaced hinserts hm2 hlist' hends hout
    exact ⟨start, kl, hstart, hrun, hsplits⟩
  have hprev := hinserts.prev
  rw [FuzzedList.updateM2, if_neg htexts, hprevLast, Option.bind_eq_bind, Option.bind_some]
  simp only [hf₁, hcurLast, hfirst, Option.bind_eq_bind, Option.bind_some]
  rcases List.eq_nil_or_concat m1 with rfl | ⟨k, p, rfl⟩
  · obtain ⟨start, kl, hstart, hrun, hsplits⟩ := hreplaced first
      (Function.update (Function.update f₁.kl.next x.1 (some f₁.m2Next)) y.1 (some f₁.kl.tail)) (if_pos rfl)
      (by rw [Function.update_of_ne hyx.symm, Function.update_self]) (Function.update_self _ _ _) (fun p hp => by cases hp)
      fun n hnx hny _ => by rw [Function.update_of_ne hny, Function.update_of_ne hnx]
    obtain rfl : f₁.kl.head = start := hstart
    refine ⟨{ f₁ with kl := kl }, new, ?_, hsplits, hnew⟩
    have hnone : f₁.m2Prev = none := hprev
    simp only [hnone, hrun, Option.bind_some]
  · rw [List.concat_eq_append, List.map_append, List.map_singleton] at *
    rw [List.getLast?_concat] at hprev
    have hpx : p.1 ≠ x.1 := (List.nodup_append.mp hnodup).2.2 p.1 (by simp) x.1 (by simp)
    have hpy : p.1 ≠ y.1 := by
      rw [List.append_assoc (k.map _ ++ _), hold] at hnodup
      exact (List.nodup_append.mp (List.nodup_append.mp hnodup).1).2.2 p.1 (by simp) y.1 (by simp)
    obtain ⟨start, kl, hstart, hrun, hsplits⟩ := hreplaced f₁.kl.head
      (Function.update (Function.update (Function.update f₁.kl.next p.1 (some first)) x.1 (some f₁.m2Next)) y.1
        (some f₁.kl.tail))
      (if_neg (by simp)) (by rw [Function.update_of_ne hyx.symm, Function.update_self]) (Function.update_self _ _ _)
      (fun q hq => by
        rw [List.getLast?_concat, Option.some.injEq] at hq
        rw [← hq, Function.update_of_ne hpy, Function.update_of_ne hpx, Function.update_self])
      fun n hnx hny hnp => by
        rw [List.getLast?_concat, ne_eq, Option.some.injEq] at hnp
        rw [Function.update_of_ne hny, Function.update_of_ne hnx, Function.update_of_ne (Ne.symm hnp)]
    refine ⟨{ f₁ with kl := kl }, new, ?_, hsplits, hnew⟩
    simp only [hprev, (seg_concat.mp hstart).2, hrun, Option.bind_some]

/-- The loop that looks for the two sides of the messages to mutate, with counters of 32 bits. -/
def MessageList.sidesFrom (kl : MessageList) (startId regionCount : Nat) : Nat → Nat → Nat → Option Nat × Nat →
    Option (Option Nat × Nat)
  | 0, _, _, _ => none
  | rounds + 1, it, count, (prev, next) =>
    if it = kl.tail then some (prev, next)
    else do
      let n ← kl.next it
      kl.sidesFrom startId regionCount rounds n ((count + 1) % 2 ^ 32)
        (if count = (startId + (2 ^ 32 - 1)) % 2 ^ 32 then some it else prev,
          if count = (startId + regionCount) % 2 ^ 32 then it else next)

/-- Where the messages to mutate start. -/
def FuzzedList.m2Start (f : FuzzedList) : Option Nat := match f.m2Prev with
  | none => some f.kl.head
  | some p => f.kl.next p

/-- The number of the first message to mutate, and how many they are. -/
def m2Region (totalRegion : Nat) (draws : Nat × Nat) : Nat × Nat :=
  let startId := draws.1 % totalRegion
  let regionCount := draws.2 % (totalRegion - startId)
  (startId, if regionCount = 0 then regionCount + 1 else regionCount)

/-- The messages to mutate are drawn, and what they hold is the buffer to be mutated. None for an entry without
regions, where the fuzzer stops. -/
def MessageList.selectM2 (kl : MessageList) (totalRegion : Nat) (draws : Nat × Nat) : Option (FuzzedList × Bytes) :=
  if totalRegion = 0 then none
  else do
    let (startId, regionCount) := m2Region totalRegion draws
    let (prev, next) ← kl.sidesFrom startId regionCount kl.nodes kl.head 0 (none, kl.tail)
    let f : FuzzedList := ⟨kl, prev, next⟩
    let it ← f.m2Start
    let texts ← kl.textsFrom next kl.nodes it
    some (f, texts.flatten)

/-- The region has a byte, and all of its bytes are in the buffer. -/
def Region.Within (r : Region) (buf : Bytes) : Prop := r.startByte ≤ r.endByte ∧ r.endByte < buf.length

instance (r : Region) (buf : Bytes) : Decidable (r.Within buf) := inferInstanceAs (Decidable (_ ∧ _))

/-- What the regions of a buffer hold. -/
def regionTexts (buf : Bytes) (regions : List Region) : List Bytes :=
  regions.map fun r => (buf.drop r.startByte).take (r.endByte - r.startByte + 1)

/-- The mutated buffer is cut into messages, which take the place of those before. None for a read past the buffer. -/
def commonFuzzStuff (extractRequests : Bytes → Option (List Region)) (f : FuzzedList) (outBuf : Bytes) : Option FuzzedList := do
  let regions ← extractRequests outBuf
  if ∀ r ∈ regions, r.Within outBuf then f.updateM2 (regionTexts outBuf regions) else none

private theorem sidesFrom_eq {kl : MessageList} {startId regionCount : Nat} {ns : List Nat} {it count : Nat} {prev : Option Nat}
    {next rounds : Nat} (hseg : Seg kl.next it ns kl.tail) (htail : kl.tail ∉ ns) (hrounds : ns.length < rounds)
    (hcount : count + ns.length < 2 ^ 32) (hstop : startId + regionCount < 2 ^ 32) :
    kl.sidesFrom startId regionCount rounds it count (prev, next) =
      some ((if count < startId then ns[startId - 1 - count]? else none).or prev,
        (if count ≤ startId + regionCount then ns[startId + regionCount - count]? else none).getD next) := by
  induction ns generalizing it count prev next rounds with
  | nil =>
    obtain ⟨r, rfl⟩ := Nat.exists_eq_succ_of_ne_zero (Nat.ne_of_gt hrounds)
    obtain rfl : it = kl.tail := hseg
    rw [MessageList.sidesFrom, if_pos rfl]
    simp
  | cons n ns ih =>
    obtain ⟨r, rfl⟩ := Nat.exists_eq_succ_of_ne_zero (Nat.ne_of_gt (Nat.zero_lt_of_lt hrounds))
    obtain ⟨rfl, c, hc, hrest⟩ := hseg
    have hne : it ≠ kl.tail := fun h => htail (h ▸ List.mem_cons_self)
    rw [List.length_cons] at hcount hrounds
    rw [MessageList.sidesFrom, if_neg hne, hc, Option.bind_eq_bind, Option.bind_some, Nat.mod_eq_of_lt (by omega),
      Nat.mod_eq_of_lt hstop, ih hrest (fun h => htail (List.mem_cons_of_mem _ h)) (by omega) (by omega)]
    have hbefore : count = (startId + (2 ^ 32 - 1)) % 2 ^ 32 ↔ count + 1 = startId := by omega
    have hprev : (if count + 1 < startId then ns[startId - 1 - (count + 1)]? else none).or
        (if count = (startId + (2 ^ 32 - 1)) % 2 ^ 32 then some it else prev) =
          (if count < startId then (it :: ns)[startId - 1 - count]? else none).or prev := by
      simp only [hbefore]
      rcases Nat.lt_trichotomy (count + 1) startId with hlt | rfl | hgt
      · obtain ⟨k, rfl⟩ := Nat.exists_eq_add_of_lt hlt
        have hk : count + 1 + k + 1 - 1 - count = k + 1 := by omega
        have hk' : count + 1 + k + 1 - 1 - (count + 1) = k := by omega
        rw [if_pos hlt, if_neg (by omega), if_pos (by omega), hk, hk', List.getElem?_cons_succ]
      · simp
      · rw [if_neg (by omega), if_neg (by omega), if_neg (by omega)]
    have hnext : (if count + 1 ≤ startId + regionCount then ns[startId + regionCount - (count + 1)]? else none).getD
        (if count = startId + regionCount then it else next) =
          (if count ≤ startId + regionCount then (it :: ns)[startId + regionCount - count]? else none).getD next := by
      rcases Nat.lt_trichotomy count (startId + regionCount) with hlt | heq | hgt
      · obtain ⟨k, hk⟩ := Nat.exists_eq_add_of_lt hlt
        have hk₁ : startId + regionCount - count = k + 1 := by omega
        have hk₂ : startId + regionCount - (count + 1) = k := by omega
        rw [if_pos (Nat.succ_le_of_lt hlt), if_neg hlt.ne, if_pos hlt.le, hk₁, hk₂, List.getElem?_cons_succ]
      · simp [heq]
      · rw [if_neg (by omega), if_neg (by omega), if_neg (by omega)]
    rw [hprev, hnext]

/-- The messages to mutate are read between their two sides. -/
private theorem FuzzedList.Splits.read {f : FuzzedList} {m1 m2 m3 : List (Nat × Bytes)} (h : f.Splits m1 m2 m3 []) :
    ∃ it, f.m2Start = some it ∧ f.kl.textsFrom f.m2Next f.kl.nodes it = some (m2.map Prod.snd) := by
  have hseg := h.has.seg
  have hlength := h.has.length_lt
  have hprev := h.prev
  simp only [List.append_nil, List.map_append, List.append_assoc, List.length_append] at hseg hlength
  obtain ⟨start, h1, h23⟩ := seg_append.mp hseg
  obtain ⟨stop, h2, h3⟩ := seg_append.mp h23
  obtain rfl : stop = f.m2Next := Option.some.inj (h3.start.symm.trans h.next)
  have htexts : ∀ p ∈ m2, f.kl.text p.1 = some p.2 := fun p hp => h.has.texts p (by simp [hp])
  refine ⟨start, ?_, textsFrom_eq h2 h.next_not_mem htexts (by omega)⟩
  rw [FuzzedList.m2Start]
  rcases List.eq_nil_or_concat m1 with rfl | ⟨k, p, rfl⟩
  · rw [show f.m2Prev = none from hprev]
    exact congrArg some h1
  · rw [List.concat_eq_append, List.map_append, List.map_singleton] at hprev h1
    rw [List.getLast?_concat] at hprev
    rw [hprev]
    exact (seg_concat.mp h1).2

theorem length_constructKlMessages (seed : Bytes) (regions : List Region) :
    (constructKlMessages seed regions).length = regions.length := by
  induction regions generalizing seed with
  | nil => rfl
  | cons r regions ih => rw [constructKlMessages, List.length_cons, List.length_cons, ih]

/-- Whatever is drawn, there is a message to mutate, and all of them are in the list. -/
theorem m2Region_within {totalRegion : Nat} (hpos : 0 < totalRegion) (draws : Nat × Nat) :
    0 < (m2Region totalRegion draws).2 ∧
      (m2Region totalRegion draws).1 + (m2Region totalRegion draws).2 ≤ totalRegion := by
  have hstart := Nat.mod_lt draws.1 hpos
  have hcount := Nat.mod_lt draws.2 (Nat.sub_pos_of_lt hstart)
  rw [m2Region]
  dsimp only
  split_ifs <;> omega

/-- The two sides are found, and what is between them is read. -/
theorem MessageList.Has.selectM2 {kl : MessageList} {l : List (Nat × Bytes)} (h : kl.Has l) (hne : l ≠ []) (hlt : l.length < 2 ^ 32)
    (draws : Nat × Nat) {startId regionCount : Nat} (hregion : m2Region l.length draws = (startId, regionCount)) :
    (l.drop startId).take regionCount ≠ [] ∧
    ∃ f, kl.selectM2 l.length draws = some (f, (((l.drop startId).take regionCount).map Prod.snd).flatten) ∧
      f.Splits (l.take startId) ((l.drop startId).take regionCount) (l.drop (startId + regionCount)) [] := by
  have hpos : 0 < l.length := List.length_pos_of_ne_nil hne
  obtain ⟨hcount_pos, hcount_le⟩ := m2Region_within hpos draws
  rw [hregion] at hcount_pos hcount_le
  have hrounds : (l.map Prod.fst).length < kl.nodes := by
    rw [List.length_map]
    exact h.length_lt
  have hsmall : 0 + (l.map Prod.fst).length < 2 ^ 32 := by
    rw [List.length_map]
    omega
  have hsides := @sidesFrom_eq kl startId regionCount _ _ _ none kl.tail _ h.seg h.tail_not_mem hrounds hsmall (by omega)
  simp only [Nat.zero_le, if_true, Nat.sub_zero, Option.or_none] at hsides
  have hl : l = l.take startId ++ (l.drop startId).take regionCount ++ l.drop (startId + regionCount) := by
    rw [List.append_assoc, ← List.drop_drop, List.take_append_drop, List.take_append_drop]
  have hm2 : (l.drop startId).take regionCount ≠ [] := by
    intro hnil
    have := congrArg List.length hnil
    rw [List.length_take, List.length_drop, List.length_nil] at this
    omega
  obtain ⟨f, hf⟩ : ∃ f : FuzzedList, f = ⟨kl, if 0 < startId then (l.map Prod.fst)[startId - 1]? else none,
    (l.map Prod.fst)[startId + regionCount]?.getD kl.tail⟩ := ⟨_, rfl⟩
  have hsplits : f.Splits (l.take startId) ((l.drop startId).take regionCount) (l.drop (startId + regionCount)) [] := by
    subst hf
    refine ⟨by rwa [List.append_nil, ← hl], ?_, ?_⟩
    · rw [List.map_take, List.getLast?_take]
      dsimp only
      rcases Nat.eq_zero_or_pos startId with rfl | hstart_pos
      · rfl
      · rw [if_pos hstart_pos, if_neg (by omega), List.getElem?_eq_getElem (by rw [List.length_map]; omega)]
        rfl
    · rw [List.head?_append, List.map_drop, List.head?_drop]
      dsimp only
      cases (l.map Prod.fst)[startId + regionCount]? <;> rfl
  obtain ⟨it, hit, hread⟩ := hsplits.read
  refine ⟨hm2, f, ?_, hsplits⟩
  rw [MessageList.selectM2, if_neg hpos.ne']
  subst hf
  simp only [hregion, hsides, hit, hread, Option.bind_eq_bind, Option.bind_some]

/-- What is mutated after some mutants: the messages of the last one, or the first ones. -/
def mutatedTexts (extractRequests : Bytes → Option (List Region)) (first : List Bytes) (mutants : List Bytes) : List Bytes :=
  match mutants.getLast? with
  | none => first
  | some outBuf => regionTexts outBuf ((extractRequests outBuf).getD [])

/-- The buffer is cut into at least one message. -/
def Cuts (extractRequests : Bytes → Option (List Region)) (outBuf : Bytes) : Prop :=
  ∃ r ∈ extractRequests outBuf, r ≠ [] ∧ ∀ region ∈ r, region.Within outBuf

/-- Mutant after mutant is put in. -/
theorem FuzzedList.Splits.mutate {extractRequests : Bytes → Option (List Region)} {f : FuzzedList} {m1 m2 m3 : List (Nat × Bytes)}
    (h : f.Splits m1 m2 m3 []) (hm2 : m2 ≠ []) {mutants : List Bytes} (hmutants : ∀ outBuf ∈ mutants, Cuts extractRequests outBuf) :
    ∃ f' m, mutants.foldlM (commonFuzzStuff extractRequests) f = some f' ∧ f'.Splits m1 m m3 [] ∧
      m.map Prod.snd = mutatedTexts extractRequests (m2.map Prod.snd) mutants := by
  have hstep : ∀ past outBuf, past ++ [outBuf] <+: mutants → ∀ f : FuzzedList,
      (∃ m, m ≠ [] ∧ f.Splits m1 m m3 [] ∧ m.map Prod.snd = mutatedTexts extractRequests (m2.map Prod.snd) past) →
      ∃ f', commonFuzzStuff extractRequests f outBuf = some f' ∧ ∃ m, m ≠ [] ∧ f'.Splits m1 m m3 [] ∧
        m.map Prod.snd = mutatedTexts extractRequests (m2.map Prod.snd) (past ++ [outBuf]) := by
    rintro past outBuf hpast f ⟨m, hm, hsplits, -⟩
    obtain ⟨r, hr, hrne, hwithin⟩ := hmutants outBuf (hpast.mem (by simp))
    have hr' : extractRequests outBuf = some r := hr
    have hcut : regionTexts outBuf r ≠ [] := by simpa [regionTexts] using hrne
    obtain ⟨f', new, hupdate, hsplits', hnew⟩ := hsplits.update hm hcut
    refine ⟨f', ?_, new, ?_, hsplits', ?_⟩
    · rw [commonFuzzStuff, hr', Option.bind_eq_bind, Option.bind_some, if_pos hwithin, hupdate]
    · rintro rfl
      exact hcut hnew.symm
    · rw [hnew, mutatedTexts, List.getLast?_concat]
      dsimp only
      rw [hr', Option.getD_some]
  obtain ⟨f', hrun, m, -, hsplits, hm⟩ := exists_foldlM_history _ hstep ⟨m2, hm2, h, rfl⟩
  exact ⟨f', m, hrun, hsplits, hm⟩

/-- The list holds these messages, and if it were deleted now, all would be freed once. -/
def MessageList.Carries (kl : MessageList) (texts : List Bytes) : Prop :=
  kl.texts = some texts ∧ kl.size = texts.length ∧ ∃ kl', kl.deleteKlMessages = some kl' ∧ kl'.Released

private theorem MessageList.Has.carries {kl : MessageList} {l : List (Nat × Bytes)} (h : kl.Has l) : kl.Carries (l.map Prod.snd) :=
  ⟨h.texts_eq, by rw [List.length_map]; exact h.size, h.delete⟩

/-- For every entry with regions, whatever is drawn and however many mutants follow that are cut into messages: the
messages around those that are mutated stay, these are always the messages of the last mutant, and nothing is lost,
freed twice or read after it was freed. -/
theorem messages_around_mutants_stay (extractRequests : Bytes → Option (List Region)) (seed : Bytes) (regions : List Region)
    (hregions : regions ≠ []) (hcount : regions.length < 2 ^ 32) (draws : Nat × Nat) :
    ∃ m1 m2 m3 f, constructKlMessages seed regions = m1 ++ m2 ++ m3 ∧ (m1.length, m2.length) = m2Region regions.length draws ∧
      (MessageList.construct (constructKlMessages seed regions)).selectM2 regions.length draws = some (f, m2.flatten) ∧
      ∀ mutants : List Bytes, (∀ outBuf ∈ mutants, Cuts extractRequests outBuf) →
        ∃ f', mutants.foldlM (commonFuzzStuff extractRequests) f = some f' ∧
          f'.kl.Carries (m1 ++ mutatedTexts extractRequests m2 mutants ++ m3) := by
  obtain ⟨l, hl, htexts⟩ := construct_has (constructKlMessages seed regions)
  have hlength : l.length = regions.length := by rw [← List.length_map Prod.snd, htexts, length_constructKlMessages]
  have hne : l ≠ [] := by
    rintro rfl
    exact hregions (List.eq_nil_of_length_eq_zero hlength.symm)
  have hle := (m2Region_within (List.length_pos_of_ne_nil hregions) draws).2
  obtain ⟨⟨startId, regionCount⟩, hregion⟩ : ∃ r, m2Region regions.length draws = r := ⟨_, rfl⟩
  rw [hregion] at hle
  obtain ⟨hm2, f, hselect, hsplits⟩ := hl.selectM2 hne (hlength ▸ hcount) draws (hlength ▸ hregion)
  rw [hlength] at hselect
  refine ⟨(l.take startId).map Prod.snd, _, (l.drop (startId + regionCount)).map Prod.snd, f, ?_, ?_, hselect,
    fun mutants hmutants => ?_⟩
  · rw [← htexts, ← List.map_append, ← List.map_append, List.append_assoc, ← List.drop_drop, List.take_append_drop,
      List.take_append_drop]
  · rw [hregion, List.length_map, List.length_map, List.length_take, List.length_take, List.length_drop, hlength]
    dsimp only at hle
    congr 1 <;> omega
  · obtain ⟨f', m, hrun, hsplits', hm⟩ := hsplits.mutate hm2 hmutants
    have hcarries := hsplits'.has.carries
    rw [List.append_nil, List.map_append, List.map_append, hm] at hcarries
    exact ⟨f', hrun, hcarries⟩

theorem messages_around_mutants_stay_two : ∃ m1 m2 m3 f, [[97, 13, 10], [98]] = m1 ++ m2 ++ m3 ∧ (m1.length, m2.length) = (1, 1) ∧
    (MessageList.construct [[97, 13, 10], [98]]).selectM2 2 (1, 0) = some (f, m2.flatten) ∧
    ∃ f', [[99], [100, 13, 10, 101, 13, 10]].foldlM (commonFuzzStuff extractRequestsTelnet) f = some f' ∧
      f'.kl.Carries (m1 ++ mutatedTexts extractRequestsTelnet m2 [[99], [100, 13, 10, 101, 13, 10]] ++ m3) := by
  obtain ⟨m1, m2, m3, f, hsplit, hlength, hselect, hrun⟩ := messages_around_mutants_stay extractRequestsTelnet
    [97, 13, 10, 98] [⟨0, 2⟩, ⟨3, 3⟩] (by decide) (by decide) (1, 0)
  refine ⟨m1, m2, m3, f, hsplit, hlength, hselect, hrun _ fun outBuf hmem => ?_⟩
  rcases List.mem_pair.mp hmem with rfl | rfl
  · exact ⟨[⟨0, 0⟩], by decide, by decide, by decide⟩
  · exact ⟨[⟨0, 2⟩, ⟨3, 5⟩], by decide, by decide, by decide⟩

end LtlFuzzer.Aflgo
