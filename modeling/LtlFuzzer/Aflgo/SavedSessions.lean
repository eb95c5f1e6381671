import LtlFuzzer.Aflgo.MutatedMessages
import LtlFuzzer.Aflgo.SavedCrashes

/-! The sessions in the queue: saved as files with their regions, and read back as messages. -/
namespace LtlFuzzer.Aflgo
open Foundation Runs

/-- A signed number of 32 bits. -/
def s32 (n : Int) : Int := n.bmod (2 ^ 32)

/-- The loop of the conversion, where the count starts at one. None where a region would end before the file starts. -/
def regionsFrom (maxCount : Nat) : Nat → Int → List Message → Option (List Region)
  | _, _, [] => some []
  | regionCount, curStart, m :: klMessages =>
    if maxCount < regionCount then some []
    else
      let curEnd := s32 (curStart + m.msize - 1)
      if curEnd < 0 then none
      else (⟨curStart.toNat, curEnd.toNat⟩ :: ·) <$> regionsFrom maxCount (regionCount + 1) (s32 (curEnd + 1)) klMessages

def convertKlMessagesToRegions (klMessages : List Message) (maxCount : Nat) : Option (List Region) :=
  regionsFrom maxCount 1 0 klMessages

/-- None for what no memory is given for. -/
def Message.ofBytes (mdata : Bytes) : Option Message :=
  if h : mdata ≠ [] ∧ mdata.length ≤ maxAlloc then some ⟨mdata, h.1, h.2⟩ else none

/-- An entry of the queue. -/
structure SessionEntry where
  file : Bytes
  regions : List Region

def SessionEntry.session (e : SessionEntry) : List Bytes := constructKlMessages e.file e.regions

/-- A seed is read, or the last one of some mutants of an entry is found to be worth keeping. -/
inductive SessionEvent where
  | seed (file : Bytes)
  | found (entry : Nat) (draws : Nat × Nat) (mutants : List Bytes) (messagesSent : Nat)

variable (extractRequests : Bytes → Option (List Region))

def queueStep (queue : List SessionEntry) : SessionEvent → Option (List SessionEntry)
  | .seed file => do
    let regions ← extractRequests file
    some (queue ++ [⟨file, regions⟩])
  | .found entry draws mutants messagesSent => do
    let e ← queue[entry]?
    let (f, _) ← (MessageList.construct e.session).selectM2 e.regions.length draws
    let f ← mutants.foldlM (commonFuzzStuff extractRequests) f
    let texts ← f.kl.texts
    let klMessages ← texts.mapM Message.ofBytes
    let regions ← convertKlMessagesToRegions klMessages messagesSent
    let _ ← f.kl.deleteKlMessages
    some (queue ++ [⟨saveKlMessagesToFile klMessages false messagesSent, regions⟩])

/-- A session with the messages of the last mutant in place of those that are mutated. -/
def mutatedSession (session : List Bytes) (draws : Nat × Nat) (mutants : List Bytes) : List Bytes :=
  let (startId, regionCount) := m2Region session.length draws
  session.take startId ++ mutatedTexts extractRequests ((session.drop startId).take regionCount) mutants ++
    session.drop (startId + regionCount)

/-- What the queue is for: a session is a list of messages, and a mutant replaces some of them. -/
def sessionStep (sessions : List (List Bytes)) : SessionEvent → Option (List (List Bytes))
  | .seed file => do
    let regions ← extractRequests file
    some (sessions ++ [regionTexts file regions])
  | .found entry draws mutants messagesSent => do
    let session ← sessions[entry]?
    if session = [] then none
    else some (sessions ++ [(mutatedSession extractRequests session draws mutants).take messagesSent])

/-- The extraction cuts a part of the seed from its start into regions; the entry has messages, every mutant is cut
into messages, memory is given for each, and the file can be counted in 31 bits. -/
def Replayable (sessions : List (List Bytes)) : SessionEvent → Prop
  | .seed file => ∃ regions ∈ extractRequests file, ∃ stop ≤ file.length, Tiles 0 stop regions
  | .found entry draws mutants messagesSent => ∃ session ∈ sessions[entry]?, session ≠ [] ∧ session.length < 2 ^ 32 ∧
    (∀ outBuf ∈ mutants, Cuts extractRequests outBuf) ∧
    (∀ m ∈ mutatedSession extractRequests session draws mutants, m ≠ [] ∧ m.length ≤ maxAlloc) ∧
    ((mutatedSession extractRequests session draws mutants).take messagesSent).flatten.length < 2 ^ 31

variable {extractRequests}

/-- The messages of a region each, where the regions stand one after another. -/
private theorem constructKlMessages_eq {file : Bytes} {start stop : Nat} {regions : List Region} (h : Tiles start stop regions)
    (hstop : stop ≤ file.length) : constructKlMessages (file.drop start) regions = regionTexts file regions := by
  induction regions generalizing start with
  | nil => rfl
  | cons r regions ih =>
    obtain ⟨rfl, hle, hrest⟩ := h
    have hstop' := hrest.le
    have hend : r.startByte + (r.endByte - r.startByte + 1) = r.endByte + 1 := by omega
    have hread : r.endByte - r.startByte + 1 ≤ (file.drop r.startByte).length := by
      rw [List.length_drop]
      omega
    rw [constructKlMessages, List.takeD_eq_take _ hread, List.drop_drop, hend, ih hrest]
    rfl

private theorem s32_eq {n : Int} (hpos : 0 ≤ n) (hlt : n < 2 ^ 31) : s32 n = n := by
  rw [s32]
  exact Int.bmod_eq_of_le (by omega) (by omega)

/-- The file of a session and its regions give the session back. -/
private theorem regionsFrom_eq {klMessages : List Message} {maxCount regionCount start : Nat} {kept : List Message}
    (hkept : klMessages.take (maxCount + 1 - regionCount) = kept)
    (hsize : start + (kept.flatMap Message.mdata).length < 2 ^ 31) :
    ∃ regions, regionsFrom maxCount regionCount start klMessages = some regions ∧
      Tiles start (start + (kept.flatMap Message.mdata).length) regions ∧
      constructKlMessages (kept.flatMap Message.mdata) regions = kept.map Message.mdata := by
  induction klMessages generalizing regionCount start kept with
  | nil =>
    rw [List.take_nil] at hkept
    subst hkept
    exact ⟨[], rfl, rfl, rfl⟩
  | cons m klMessages ih =>
    by_cases hstop : maxCount < regionCount
    · rw [Nat.sub_eq_zero_of_le hstop, List.take_zero] at hkept
      subst hkept
      exact ⟨[], if_pos hstop, rfl, rfl⟩
    · obtain ⟨rest, hrest⟩ : ∃ rest, klMessages.take (maxCount + 1 - (regionCount + 1)) = rest := ⟨_, rfl⟩
      have hmore : maxCount + 1 - regionCount = maxCount + 1 - (regionCount + 1) + 1 := by omega
      rw [hmore, List.take_succ_cons, hrest] at hkept
      subst hkept
      have hpos : 0 < m.mdata.length := List.length_pos_of_ne_nil m.nonempty
      rw [List.flatMap_cons, List.length_append] at hsize ⊢
      obtain ⟨regions, hregions, htiles, hread⟩ := @ih (regionCount + 1) (start + m.mdata.length) rest hrest (by omega)
      have hend : s32 (start + m.msize - 1) = start + m.mdata.length - 1 := by
        rw [Message.msize]
        exact s32_eq (by omega) (by omega)
      have hnext : s32 (start + m.mdata.length - 1 + 1) = ((start + m.mdata.length : Nat) : Int) := by
        rw [s32_eq (by omega) (by omega)]
        push_cast
        omega
      have hlast : ((start : Int) + m.mdata.length - 1).toNat = start + m.mdata.length - 1 := by omega
      have hsucc : start + m.mdata.length - 1 + 1 = start + m.mdata.length := by omega
      have hlen : start + m.mdata.length - 1 - start + 1 = m.mdata.length := by omega
      refine ⟨⟨start, start + m.mdata.length - 1⟩ :: regions, ?_, ⟨rfl, ?_, ?_⟩, ?_⟩
      · rw [regionsFrom, if_neg hstop, hend]
        dsimp only
        rw [if_neg (by omega), hnext, hregions, hlast]
        rfl
      · dsimp only
        omega
      · dsimp only
        rw [hsucc, ← Nat.add_assoc]
        exact htiles
      · rw [constructKlMessages, List.map_cons]
        dsimp only
        rw [hlen, List.takeD_eq_take _ (by rw [List.length_append]; omega), List.take_left, List.drop_left, hread]

/-- What is saved of a session is read back as it was sent. -/
private theorem convert_eq {texts : List Bytes} (htexts : ∀ m ∈ texts, m ≠ [] ∧ m.length ≤ maxAlloc) {messagesSent : Nat}
    (hsize : (texts.take messagesSent).flatten.length < 2 ^ 31) :
    ∃ klMessages regions, texts.mapM Message.ofBytes = some klMessages ∧
      convertKlMessagesToRegions klMessages messagesSent = some regions ∧
      Tiles 0 (saveKlMessagesToFile klMessages false messagesSent).length regions ∧
      constructKlMessages (saveKlMessagesToFile klMessages false messagesSent) regions = texts.take messagesSent := by
  obtain ⟨klMessages, hkl, hmdata⟩ : ∃ klMessages, texts.mapM Message.ofBytes = some klMessages ∧
      klMessages.map Message.mdata = texts := by
    clear hsize
    induction texts with
    | nil => exact ⟨[], rfl, rfl⟩
    | cons m texts ih =>
      obtain ⟨hm, htexts⟩ := List.forall_mem_cons.mp htexts
      obtain ⟨klMessages, hkl, hmdata⟩ := ih htexts
      refine ⟨⟨m, hm.1, hm.2⟩ :: klMessages, ?_, ?_⟩
      · rw [List.mapM_cons, Message.ofBytes, dif_pos hm, hkl]
        rfl
      · rw [List.map_cons, hmdata]
  have hflat (kept : List Message) : kept.flatMap Message.mdata = (kept.map Message.mdata).flatten := List.flatMap_def
  have hkept : klMessages.take (messagesSent + 1 - 1) = klMessages.take messagesSent := by rw [Nat.add_sub_cancel]
  obtain ⟨regions, hregions, htiles, hread⟩ := @regionsFrom_eq _ _ _ 0 _ hkept (by rw [hflat, List.map_take, hmdata]; omega)
  refine ⟨klMessages, regions, hkl, hregions, ?_, ?_⟩
  · rw [Nat.zero_add] at htiles
    exact htiles
  · rw [List.map_take, hmdata] at hread
    exact hread

/-- The queue holds these sessions, and every file is covered by its regions as far as they reach. -/
structure Shelves (queue : List SessionEntry) (sessions : List (List Bytes)) : Prop where
  session : queue.map SessionEntry.session = sessions
  tiles : ∀ e ∈ queue, ∃ stop ≤ e.file.length, Tiles 0 stop e.regions

private theorem shelves_seed {queue : List SessionEntry} {sessions : List (List Bytes)} (h : Shelves queue sessions) {file : Bytes}
    (hr : Replayable extractRequests sessions (.seed file)) :
    ∃ queue' sessions', queueStep extractRequests queue (.seed file) = some queue' ∧
      sessionStep extractRequests sessions (.seed file) = some sessions' ∧ Shelves queue' sessions' := by
  obtain ⟨regions, hregions, stop, hstop, htiles⟩ := hr
  have hread := constructKlMessages_eq htiles hstop
  rw [List.drop_zero] at hread
  have hext : extractRequests file = some regions := hregions
  refine ⟨queue ++ [⟨file, regions⟩], sessions ++ [regionTexts file regions], ?_, ?_, ?_, ?_⟩
  · rw [queueStep, hext]
    rfl
  · rw [sessionStep, hext]
    rfl
  · rw [List.map_append, h.session, List.map_singleton, SessionEntry.session, hread]
  · intro e he
    rcases List.mem_append.mp he with he | he
    · exact h.tiles e he
    · obtain rfl := List.mem_singleton.mp he
      exact ⟨stop, hstop, htiles⟩

private theorem shelves_found {queue : List SessionEntry} {sessions : List (List Bytes)} (h : Shelves queue sessions) {entry : Nat}
    {draws : Nat × Nat} {mutants : List Bytes} {messagesSent : Nat}
    (hr : Replayable extractRequests sessions (.found entry draws mutants messagesSent)) :
    ∃ queue' sessions', queueStep extractRequests queue (.found entry draws mutants messagesSent) = some queue' ∧
      sessionStep extractRequests sessions (.found entry draws mutants messagesSent) = some sessions' ∧
      Shelves queue' sessions' := by
  obtain ⟨session, hsession, hne, hlt, hmutants, hsmall, hsize⟩ := hr
  have hsession' : sessions[entry]? = some session := hsession
  rw [← h.session, List.getElem?_map] at hsession
  obtain ⟨e, he, rfl⟩ := Option.map_eq_some_iff.mp hsession
  obtain ⟨l, hl, htexts⟩ := construct_has e.session
  have hlength : l.length = e.session.length := by rw [← htexts, List.length_map]
  have hregions : e.regions.length = e.session.length := (length_constructKlMessages e.file e.regions).symm
  have hlne : l ≠ [] := by
    rintro rfl
    exact hne htexts.symm
  obtain ⟨⟨startId, regionCount⟩, hregion⟩ : ∃ r, m2Region e.session.length draws = r := ⟨_, rfl⟩
  obtain ⟨hm2, f, hselect, hsplits⟩ := hl.selectM2 hlne (hlength ▸ hlt) draws (hlength ▸ hregion)
  rw [hlength, ← hregions] at hselect
  obtain ⟨f', m, hrun, hsplits', hm⟩ := hsplits.mutate hm2 hmutants
  have hmutated : mutatedSession extractRequests e.session draws mutants =
      (l.take startId ++ m ++ l.drop (startId + regionCount) ++ []).map Prod.snd := by
    rw [mutatedSession, hregion, ← htexts]
    simp only [List.append_nil, List.map_append, List.map_take, List.map_drop, hm]
  obtain ⟨klMessages, regions, hkl, hconvert, htiles, hread⟩ := convert_eq hsmall hsize
  obtain ⟨kl', hdelete, -⟩ := hsplits'.has.delete
  refine ⟨queue ++ [⟨saveKlMessagesToFile klMessages false messagesSent, regions⟩],
    sessions ++ [(mutatedSession extractRequests e.session draws mutants).take messagesSent], ?_, ?_, ?_, ?_⟩
  · rw [queueStep, he]
    simp only [Option.bind_eq_bind, Option.bind_some, hselect, hrun, hsplits'.has.texts_eq, ← hmutated, hkl, hconvert, hdelete]
  · rw [sessionStep, hsession', Option.bind_eq_bind, Option.bind_some, if_neg hne]
  · rw [List.map_append, h.session, List.map_singleton, SessionEntry.session, hread]
  · intro e he
    rcases List.mem_append.mp he with he | he
    · exact h.tiles e he
    · obtain rfl := List.mem_singleton.mp he
      exact ⟨_, Nat.le_refl _, htiles⟩

/-- The queue of files and regions is a queue of sessions: through all seeds, mutants and savings, what is read back of
an entry is the session that was found, with the messages of the mutant in their place, and nothing else. -/
theorem queue_keeps_sessions (extractRequests : Bytes → Option (List Region)) (events : List SessionEvent)
    (h : AllMeet (sessionStep extractRequests) (Replayable extractRequests) [] events) :
    ∃ queue sessions, events.foldlM (queueStep extractRequests) [] = some queue ∧
      events.foldlM (sessionStep extractRequests) [] = some sessions ∧ queue.map SessionEntry.session = sessions ∧
      ∀ e ∈ queue, ∃ stop ≤ e.file.length, Tiles 0 stop e.regions := by
  obtain ⟨queue, sessions, hqueue, hsessions, hshelves⟩ := exists_foldlM_simulated Shelves (fun queue sessions event hs hr => by
    cases event with
    | seed file => exact shelves_seed hs hr
    | found entry draws mutants messagesSent => exact shelves_found hs hr) events ⟨rfl, fun e he => absurd he List.not_mem_nil⟩ h
  exact ⟨queue, sessions, hqueue, hsessions, hshelves.session, hshelves.tiles⟩

theorem queue_keeps_sessions_found :
    ∃ queue sessions, [.seed [97, 13, 10, 98, 13, 10], .found 0 (1, 0) [[99]] 2].foldlM (queueStep extractRequestsTelnet) [] =
        some queue ∧
      [.seed [97, 13, 10, 98, 13, 10], .found 0 (1, 0) [[99]] 2].foldlM (sessionStep extractRequestsTelnet) [] = some sessions ∧
      queue.map SessionEntry.session = sessions ∧ ∀ e ∈ queue, ∃ stop ≤ e.file.length, Tiles 0 stop e.regions := by
  refine queue_keeps_sessions extractRequestsTelnet _ ⟨?_, ?_⟩
  · exact ⟨[⟨0, 2⟩, ⟨3, 5⟩], by decide, 6, by decide, ⟨rfl, by decide, rfl, by decide, rfl⟩⟩
  · have hseed : sessionStep extractRequestsTelnet [] (.seed [97, 13, 10, 98, 13, 10]) = some [[[97, 13, 10], [98, 13, 10]]] := by
      decide
    rw [hseed]
    refine ⟨⟨[[97, 13, 10], [98, 13, 10]], by decide, by decide, by decide, ?_, by decide, by decide⟩, ?_⟩
    · intro outBuf hmem
      obtain rfl := List.mem_singleton.mp hmem
      exact ⟨[⟨0, 0⟩], by decide, by decide, by decide⟩
    · split <;> trivial

end LtlFuzzer.Aflgo
