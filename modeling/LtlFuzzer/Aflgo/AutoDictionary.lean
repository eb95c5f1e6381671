import LtlFuzzer.Aflgo.HavocTweaks
import Mathlib.Data.List.Nodup

/-! The dictionary that grows by itself: `maybe_add_auto`, over any run of calls. -/
namespace LtlFuzzer.Aflgo
open Foundation Draws

def useAutoExtras : Nat := 50

def maxAutoExtras : Nat := useAutoExtras * 10

def tolower (b : UInt8) : UInt8 := if 65 ≤ b ∧ b ≤ 90 then b + 32 else b

/-- Whether two strings of one length differ, but for case. -/
def memcmpNocase : Bytes → Bytes → Bool
  | a :: m1, b :: m2 => tolower a != tolower b || memcmpNocase m1 m2
  | _, _ => false

structure AutoExtra where
  data : Bytes
  hitCnt : Nat

/-- `qsort`: the elements in order, equal ones as it pleases. -/
structure Qsort where
  sort : (AutoExtra → AutoExtra → Bool) → List AutoExtra → List AutoExtra
  perm : ∀ le l, (sort le l).Perm l
  pairwise : ∀ le l, (∀ a b c, le a b = true → le b c = true → le a c = true) → (∀ a b, (le a b || le b a) = true) →
    (sort le l).Pairwise fun a b => le a b = true

/-- A run of identical bytes. -/
def sameBytes : Bytes → Bool
  | [] => false
  | b :: rest => rest.all (· == b)

/-- Two bytes are compared with signed numbers, so negative ones are met in the other order only. -/
def builtinValue (mem : Bytes) : Bool :=
  if mem.length = 2 then interesting16.any fun n => wordAt mem == n || wordAt mem == swap 2 (word 2 n)
  else if mem.length = 4 then interesting32.any fun n => wordAt mem == word 4 n || wordAt mem == swap 4 (word 4 n)
  else false

/-- Whether a user's token matches, where they are sorted by size. -/
def inExtras (extras : List Bytes) (mem : Bytes) : Bool :=
  ((extras.dropWhile fun e => e.length < mem.length).takeWhile fun e => e.length = mem.length).any fun e => !memcmpNocase e mem

/-- By use count, and then the first 50 by size. -/
def sortAutoExtras (q : Qsort) (aExtras : List AutoExtra) : List AutoExtra :=
  let byUse := q.sort (fun e1 e2 => e2.hitCnt ≤ e1.hitCnt) aExtras
  let top := min useAutoExtras aExtras.length
  q.sort (fun e1 e2 => e1.data.length ≤ e2.data.length) (byUse.take top) ++ byUse.drop top

/-- An entry of the lower half makes room. -/
def evict (mem : Bytes) (aExtras : List AutoExtra) : Draws (List AutoExtra) := do
  let r ← draw ((maxAutoExtras + 1) / 2)
  writeBlock aExtras (maxAutoExtras / 2 + r) [⟨mem, 0⟩]

/-- A hit of an entry, or a new one: at the end while there is room. -/
def hitOrAdd (mem : Bytes) (aExtras : List AutoExtra) : Draws (List AutoExtra) :=
  match aExtras.findIdx? fun e => e.data.length = mem.length && !memcmpNocase e.data mem with
  | some i => pure (aExtras.modify i fun e => { e with hitCnt := e.hitCnt + 1 })
  | none => if aExtras.length < maxAutoExtras then pure (aExtras ++ [⟨mem, 0⟩]) else evict mem aExtras

def maybeAddAuto (q : Qsort) (extras : List Bytes) (mem : Bytes) (aExtras : List AutoExtra) : Draws (List AutoExtra) :=
  if sameBytes mem || builtinValue mem || inExtras extras mem then pure aExtras
  else do
    let aExtras ← hitOrAdd mem aExtras
    pure (sortAutoExtras q aExtras)

/-- A call and the dictionary that it meets. -/
structure AutoCall where
  mem : Bytes
  met : List AutoExtra

/-- The calls so far and the dictionary. -/
def addToken (q : Qsort) (extras : List Bytes) (s : List AutoCall × List AutoExtra) (mem : Bytes) :
    Draws (List AutoCall × List AutoExtra) := do
  let aExtras ← maybeAddAuto q extras mem s.2
  pure (s.1 ++ [⟨mem, s.2⟩], aExtras)

/-- What `maybe_add_auto` makes of calls in a row. -/
def addTokens (q : Qsort) (extras : List Bytes) (tokens : List Bytes) (s : List AutoCall × List AutoExtra) :
    Draws (List AutoCall × List AutoExtra) := tokens.foldlM (addToken q extras) s

theorem matches_iff (e mem : Bytes) :
    (decide (e.length = mem.length) && !memcmpNocase e mem) = true ↔ e.map tolower = mem.map tolower := by
  induction e generalizing mem with
  | nil => cases mem <;> simp [memcmpNocase]
  | cons a e ih =>
    cases mem with
    | nil => simp
    | cons b mem =>
      rw [List.map_cons, List.map_cons, List.cons.injEq, ← ih mem]
      simp only [List.length_cons, Nat.add_right_cancel_iff, memcmpNocase, Bool.not_or, bne, Bool.not_not, Bool.and_eq_true,
        beq_iff_eq]
      tauto

private theorem mem_takeWhile_length {n : Nat} {l : List Bytes} {y : Bytes} (hsorted : l.Pairwise fun a b => a.length ≤ b.length)
    (hle : ∀ x ∈ l, n ≤ x.length) (hy : y ∈ l) (hlen : y.length = n) : y ∈ l.takeWhile fun e => e.length = n := by
  induction l with
  | nil => exact absurd hy List.not_mem_nil
  | cons x l ih =>
    have hx : x.length = n := by
      rcases List.mem_cons.mp hy with rfl | hy
      · exact hlen
      · exact Nat.le_antisymm (hlen ▸ List.rel_of_pairwise_cons hsorted hy) (hle x List.mem_cons_self)
    rw [List.takeWhile_cons, if_pos (decide_eq_true hx)]
    rcases List.mem_cons.mp hy with rfl | hy
    · exact List.mem_cons_self
    · exact List.mem_cons_of_mem x (ih hsorted.of_cons (fun z hz => hle z (List.mem_cons_of_mem x hz)) hy)

/-- The scan of a sorted dictionary meets all tokens of the length. -/
private theorem mem_scan {n : Nat} {l : List Bytes} {y : Bytes} (hsorted : l.Pairwise fun a b => a.length ≤ b.length) (hy : y ∈ l)
    (hlen : y.length = n) : y ∈ (l.dropWhile fun e => e.length < n).takeWhile fun e => e.length = n := by
  induction l with
  | nil => exact absurd hy List.not_mem_nil
  | cons x l ih =>
    by_cases hx : x.length < n
    · rw [List.dropWhile_cons, if_pos (decide_eq_true hx)]
      refine ih hsorted.of_cons (List.mem_of_ne_of_mem ?_ hy)
      rintro rfl
      omega
    · rw [List.dropWhile_cons, if_neg (by simpa using hx)]
      refine mem_takeWhile_length hsorted (fun z hz => ?_) hy hlen
      rcases List.mem_cons.mp hz with rfl | hz
      · exact Nat.le_of_not_lt hx
      · exact Nat.le_trans (Nat.le_of_not_lt hx) (List.rel_of_pairwise_cons hsorted hz)

theorem ne_of_not_inExtras {extras : List Bytes} {mem : Bytes} (hsorted : extras.Pairwise fun a b => a.length ≤ b.length)
    (h : inExtras extras mem = false) {x : Bytes} (hx : x ∈ extras) : x.map tolower ≠ mem.map tolower := by
  intro he
  have hlen : x.length = mem.length := by
    have := congrArg List.length he
    rwa [List.length_map, List.length_map] at this
  have hno := List.any_eq_false.mp h x (mem_scan hsorted hx hlen)
  exact hno (Bool.and_eq_true_iff.mp ((matches_iff x mem).mpr he)).2

/-- The tokens of a dictionary, in any order. -/
structure AutoEntries (extras seen keys : List Bytes) : Prop where
  size : keys.length ≤ maxAutoExtras
  distinct : (keys.map (List.map tolower)).Nodup
  offered : ∀ d ∈ keys, d ∈ seen
  news : ∀ d ∈ keys, sameBytes d = false ∧ builtinValue d = false ∧ ∀ x ∈ extras, x.map tolower ≠ d.map tolower

/-- What `maybe_add_auto` never takes. -/
def Rejected (extras : List Bytes) (mem : Bytes) : Prop :=
  sameBytes mem = true ∨ builtinValue mem = true ∨ inExtras extras mem = true

instance (extras : List Bytes) (mem : Bytes) : Decidable (Rejected extras mem) := inferInstanceAs (Decidable (_ ∨ _ ∨ _))

/-- Whether a token is in a dictionary, but for case. -/
def Has (l : List AutoExtra) (mem : Bytes) : Prop := ∃ e ∈ l, e.data.map tolower = mem.map tolower

/-- The calls that hit a token. -/
def hits (extras : List Bytes) (key : Bytes) (calls : List AutoCall) : Nat :=
  calls.countP fun call => decide (¬ Rejected extras call.mem ∧ key.map tolower = call.mem.map tolower)

/-- The call that put an entry in, after which it stayed, and the hits since then. -/
def Counted (extras : List Bytes) (calls : List AutoCall) (e : AutoExtra) : Prop :=
  ∃ before met since, calls = before ++ ⟨e.data, met⟩ :: since ∧ ¬ Has met e.data ∧ ¬ Rejected extras e.data ∧
    (∀ call ∈ since, Has call.met e.data) ∧ e.hitCnt = hits extras e.data since

/-- With the order: the first 50 by size, none of them used less than the others. -/
structure AutoDict (extras : List Bytes) (calls : List AutoCall) (l : List AutoExtra) : Prop where
  entries : AutoEntries extras (calls.map AutoCall.mem) (l.map AutoExtra.data)
  counted : ∀ e ∈ l, Counted extras calls e
  bySize : (l.take useAutoExtras).Pairwise fun e1 e2 => e1.data.length ≤ e2.data.length
  byUse : ∀ e1 ∈ l.take useAutoExtras, ∀ e2 ∈ l.drop useAutoExtras, e2.hitCnt ≤ e1.hitCnt

section
variable {extras seen keys : List Bytes} {mem : Bytes} {l : List AutoExtra} {calls : List AutoCall} {e : AutoExtra}

/-- A call that does not hit an entry that stays. -/
private theorem Counted.other (h : Counted extras calls e) (he : e ∈ l)
    (hno : Rejected extras mem ∨ e.data.map tolower ≠ mem.map tolower) : Counted extras (calls ++ [⟨mem, l⟩]) e := by
  obtain ⟨before, met, since, rfl, hnew, htaken, hstay, hcount⟩ := h
  refine ⟨before, met, since ++ [⟨mem, l⟩], List.append_assoc _ _ _, hnew, htaken, ?_, ?_⟩
  · intro call hcall
    rcases List.mem_append.mp hcall with hcall | hcall
    · exact hstay call hcall
    · rw [List.mem_singleton.mp hcall]
      exact ⟨e, he, rfl⟩
  · have hmiss : ¬ (¬ Rejected extras mem ∧ e.data.map tolower = mem.map tolower) := fun ⟨hacc, hsame⟩ =>
      hno.elim hacc fun hne => hne hsame
    rw [hits, List.countP_append, List.countP_singleton, if_neg (by rwa [decide_eq_true_iff]), Nat.add_zero]
    exact hcount

/-- A hit. -/
private theorem Counted.hit (h : Counted extras calls e) (he : e ∈ l) (hacc : ¬ Rejected extras mem)
    (hsame : e.data.map tolower = mem.map tolower) : Counted extras (calls ++ [⟨mem, l⟩]) { e with hitCnt := e.hitCnt + 1 } := by
  obtain ⟨before, met, since, rfl, hnew, htaken, hstay, hcount⟩ := h
  refine ⟨before, met, since ++ [⟨mem, l⟩], List.append_assoc _ _ _, hnew, htaken, ?_, ?_⟩
  · intro call hcall
    rcases List.mem_append.mp hcall with hcall | hcall
    · exact hstay call hcall
    · rw [List.mem_singleton.mp hcall]
      exact ⟨e, he, rfl⟩
  · rw [hits, List.countP_append, List.countP_singleton, if_pos (decide_eq_true ⟨hacc, hsame⟩), ← hits, ← hcount]

/-- A new entry. -/
private theorem Counted.new (hacc : ¬ Rejected extras mem) (hnew : ¬ Has l mem) : Counted extras (calls ++ [⟨mem, l⟩]) ⟨mem, 0⟩ :=
  ⟨calls, l, [], rfl, hnew, hacc, fun _ hcall => absurd hcall List.not_mem_nil, rfl⟩

private theorem AutoEntries.mono (h : AutoEntries extras seen keys) (mem : Bytes) : AutoEntries extras (seen ++ [mem]) keys :=
  ⟨h.size, h.distinct, fun d hd => List.mem_append_left [mem] (h.offered d hd), h.news⟩

private theorem AutoEntries.perm {keys' : List Bytes} (h : AutoEntries extras seen keys) (hperm : keys'.Perm keys) :
    AutoEntries extras seen keys' :=
  ⟨hperm.length_eq ▸ h.size, (hperm.map _).nodup_iff.mpr h.distinct, fun d hd => h.offered d (hperm.mem_iff.mp hd),
    fun d hd => h.news d (hperm.mem_iff.mp hd)⟩

/-- A token that matches no entry, in a place of its own or in that of another. -/
private theorem AutoEntries.add {keys' : List Bytes} (h : AutoEntries extras seen keys)
    (hnews : sameBytes mem = false ∧ builtinValue mem = false ∧ ∀ x ∈ extras, x.map tolower ≠ mem.map tolower)
    (hsize : keys'.length ≤ maxAutoExtras) (hdistinct : (keys'.map (List.map tolower)).Nodup)
    (hmem : ∀ d ∈ keys', d ∈ keys ∨ d = mem) : AutoEntries extras (seen ++ [mem]) keys' := by
  refine ⟨hsize, hdistinct, fun d hd => ?_, fun d hd => ?_⟩
  · rcases hmem d hd with hd | rfl
    · exact List.mem_append_left [mem] (h.offered d hd)
    · exact List.mem_append_right seen (List.mem_singleton.mpr rfl)
  · rcases hmem d hd with hd | rfl
    · exact h.news d hd
    · exact hnews

private theorem pairwise_sort (q : Qsort) {r : AutoExtra → AutoExtra → Prop} [DecidableRel r]
    (htrans : ∀ a b c, r a b → r b c → r a c) (htotal : ∀ a b, r a b ∨ r b a) (l : List AutoExtra) :
    (q.sort (fun a b => decide (r a b)) l).Pairwise r := by
  refine (q.pairwise _ l ?_ ?_).imp fun h => of_decide_eq_true h
  · intro a b c hab hbc
    exact decide_eq_true (htrans a b c (of_decide_eq_true hab) (of_decide_eq_true hbc))
  · intro a b
    rw [Bool.or_eq_true, decide_eq_true_iff, decide_eq_true_iff]
    exact htotal a b

theorem sortAutoExtras_perm (q : Qsort) (l : List AutoExtra) : (sortAutoExtras q l).Perm l := by
  refine ((q.perm _ _).append_right _).trans ?_
  rw [List.take_append_drop]
  exact q.perm _ _

/-- The two sorts leave the order that the stages rely on. -/
theorem sortAutoExtras_spec (q : Qsort) (h : AutoEntries extras (calls.map AutoCall.mem) (l.map AutoExtra.data))
    (hcounted : ∀ e ∈ l, Counted extras calls e) : AutoDict extras calls (sortAutoExtras q l) := by
  have hperm := sortAutoExtras_perm q l
  generalize hbyUse : q.sort (fun e1 e2 => e2.hitCnt ≤ e1.hitCnt) l = byUse at *
  have hlen : byUse.length = l.length := hbyUse ▸ (q.perm _ _).length_eq
  generalize htop : min useAutoExtras l.length = top at *
  generalize hsize : q.sort (fun e1 e2 => e1.data.length ≤ e2.data.length) (byUse.take top) = first at *
  have hfirst : first.Perm (byUse.take top) := hsize ▸ q.perm _ _
  have hsorted : sortAutoExtras q l = first ++ byUse.drop top := by
    rw [sortAutoExtras]
    simp only [hbyUse, htop, hsize]
  have htake : first.length = top := by
    rw [hfirst.length_eq, List.length_take]
    omega
  have hrest : (byUse.drop top).take (useAutoExtras - top) = [] := by
    refine List.eq_nil_of_length_eq_zero ?_
    rw [List.length_take, List.length_drop]
    omega
  have hfront : (sortAutoExtras q l).take useAutoExtras = first := by
    rw [hsorted, List.take_append, List.take_of_length_le (by omega), htake, hrest, List.append_nil]
  have hback : (sortAutoExtras q l).drop useAutoExtras = byUse.drop top := by
    apply @List.append_cancel_left _ first
    rw [← hsorted, ← hfront, List.take_append_drop]
  have hpair : (byUse.take top ++ byUse.drop top).Pairwise fun e1 e2 => e2.hitCnt ≤ e1.hitCnt := by
    rw [List.take_append_drop, ← hbyUse]
    exact @pairwise_sort q (fun e1 e2 => e2.hitCnt ≤ e1.hitCnt) _ (fun _ _ _ hab hbc => Nat.le_trans hbc hab)
      (fun _ _ => Nat.le_total _ _) l
  refine ⟨h.perm (hperm.map _), fun e he => hcounted e (hperm.mem_iff.mp he), ?_, ?_⟩
  · rw [hfront, ← hsize]
    exact @pairwise_sort q (fun e1 e2 => e1.data.length ≤ e2.data.length) _ (fun _ _ _ => Nat.le_trans)
      (fun _ _ => Nat.le_total _ _) (byUse.take top)
  · rw [hfront, hback]
    intro e1 he1 e2 he2
    exact (List.pairwise_append.mp hpair).2.2 e1 (hfirst.mem_iff.mp he1) e2 he2

private theorem data_modify (i : Nat) (l : List AutoExtra) :
    (l.modify i fun e => { e with hitCnt := e.hitCnt + 1 }).map AutoExtra.data = l.map AutoExtra.data := by
  induction l generalizing i with
  | nil => cases i <;> rfl
  | cons e l ih =>
    cases i with
    | zero => rfl
    | succ i =>
      rw [List.modify_succ_cons, List.map_cons, List.map_cons, ih]

/-- An eviction puts the token in the place of another. -/
private theorem evict_safe (mem : Bytes) (h : l.length = maxAutoExtras) :
    Safe (evict mem l) fun m => ∃ i, i < l.length ∧ m = l.set i ⟨mem, 0⟩ := by
  refine (safe_draw (by decide)).bind fun r hr => ?_
  have hin : maxAutoExtras / 2 + r < l.length := by
    rw [h]
    have : (maxAutoExtras + 1) / 2 ≤ maxAutoExtras - maxAutoExtras / 2 := by decide
    omega
  refine (safe_writeBlock hin).mono fun m hm => ⟨_, hin, ?_⟩
  rw [hm, List.set_eq_take_append_cons_drop, if_pos hin, overwrite, List.append_assoc]
  rfl

/-- Where a token is found, no other entry matches it. -/
private theorem Counted.modify {i : Nat} (hi : i < l.length) (hdistinct : ((l.map AutoExtra.data).map (List.map tolower)).Nodup)
    (hcounted : ∀ e ∈ l, Counted extras calls e) (hacc : ¬ Rejected extras mem) (hmatch : l[i].data.map tolower = mem.map tolower) :
    ∀ e ∈ l.modify i fun e => { e with hitCnt := e.hitCnt + 1 }, Counted extras (calls ++ [⟨mem, l⟩]) e := by
  intro e he
  obtain ⟨j, hj, rfl⟩ := List.mem_iff_getElem.mp he
  rw [List.length_modify] at hj
  rw [List.getElem_modify]
  split_ifs with hij
  · subst hij
    exact (hcounted _ (List.getElem_mem hj)).hit (List.getElem_mem hj) hacc hmatch
  · refine (hcounted _ (List.getElem_mem hj)).other (List.getElem_mem hj) (.inr fun hsame => hij ?_)
    rw [List.map_map] at hdistinct
    have heq : l[i] = l[j] :=
      List.inj_on_of_nodup_map hdistinct (List.getElem_mem hi) (List.getElem_mem hj) (hmatch.trans hsame.symm)
    exact hdistinct.of_map.getElem_inj_iff.mp heq

/-- Afterwards the token matches an entry, be it a new one. -/
private theorem hitOrAdd_safe (h : AutoEntries extras (calls.map AutoCall.mem) (l.map AutoExtra.data))
    (hcounted : ∀ e ∈ l, Counted extras calls e) (hacc : ¬ Rejected extras mem)
    (hnews : sameBytes mem = false ∧ builtinValue mem = false ∧ ∀ x ∈ extras, x.map tolower ≠ mem.map tolower) :
    Safe (hitOrAdd mem l) fun m => AutoEntries extras (calls.map AutoCall.mem ++ [mem]) (m.map AutoExtra.data) ∧
      (∀ e ∈ m, Counted extras (calls ++ [⟨mem, l⟩]) e) ∧ Has m mem := by
  rw [hitOrAdd]
  cases hidx : l.findIdx? fun e => e.data.length = mem.length && !memcmpNocase e.data mem with
  | some i =>
    obtain ⟨hi, hmatch, -⟩ := List.findIdx?_eq_some_iff_getElem.mp hidx
    have hmatch := (matches_iff _ _).mp hmatch
    refine Safe.pure ⟨?_, Counted.modify hi h.distinct hcounted hacc hmatch, ?_⟩
    · rw [data_modify]
      exact h.mono mem
    · have hin : l[i].data ∈ (l.modify i fun e => { e with hitCnt := e.hitCnt + 1 }).map AutoExtra.data := by
        rw [data_modify]
        exact List.mem_map.mpr ⟨_, List.getElem_mem hi, rfl⟩
      obtain ⟨e, he, hdata⟩ := List.mem_map.mp hin
      exact ⟨e, he, hdata ▸ hmatch⟩
  | none =>
    have hnew : ¬ Has l mem := by
      rintro ⟨e, he, hsame⟩
      have hno := List.findIdx?_eq_none_iff.mp hidx e he
      rw [(matches_iff _ _).mpr hsame] at hno
      exact Bool.false_ne_true hno.symm
    have hkey : mem.map tolower ∉ (l.map AutoExtra.data).map (List.map tolower) := by
      intro hmem
      obtain ⟨d, hd, hsame⟩ := List.mem_map.mp hmem
      obtain ⟨e, he, rfl⟩ := List.mem_map.mp hd
      exact hnew ⟨e, he, hsame⟩
    have hold : ∀ e ∈ l, Counted extras (calls ++ [⟨mem, l⟩]) e := fun e he =>
      (hcounted e he).other he (.inr fun hsame => hnew ⟨e, he, hsame⟩)
    have hadded : Counted extras (calls ++ [⟨mem, l⟩]) ⟨mem, 0⟩ := Counted.new hacc hnew
    have hsize : l.length ≤ maxAutoExtras := @List.length_map _ _ l AutoExtra.data ▸ h.size
    refine Safe.ite (fun hroom => Safe.pure ⟨?_, ?_, ⟨mem, 0⟩, List.mem_concat_self, rfl⟩) fun hfull => ?_
    · refine h.add hnews ?_ ?_ ?_
      · rw [List.length_map, List.length_append, List.length_singleton]
        omega
      · rw [List.map_append, List.map_append, List.nodup_append]
        refine ⟨h.distinct, List.nodup_singleton _, fun a ha b hb he => ?_⟩
        rw [List.mem_singleton.mp hb] at he
        exact hkey (he ▸ ha)
      · intro d hd
        rw [List.map_append] at hd
        exact (List.mem_append.mp hd).imp_right List.mem_singleton.mp
    · intro e he
      rcases List.mem_append.mp he with he | he
      · exact hold e he
      · exact List.mem_singleton.mp he ▸ hadded
    · refine (evict_safe mem (Nat.le_antisymm hsize (Nat.le_of_not_lt hfull))).mono ?_
      rintro m ⟨i, hi, rfl⟩
      refine ⟨?_, fun e he => ?_, ⟨mem, 0⟩, List.mem_set hi _, rfl⟩
      · rw [List.map_set]
        refine h.add hnews ?_ ?_ fun d hd => List.mem_or_eq_of_mem_set hd
        · rw [List.length_set]
          exact h.size
        · rw [List.map_set]
          exact h.distinct.set hkey
      · rcases List.mem_or_eq_of_mem_set he with he | rfl
        · exact hold e he
        · exact hadded

/-- One call. -/
theorem maybeAddAuto_safe (q : Qsort) (hsorted : extras.Pairwise fun a b => a.length ≤ b.length) (h : AutoDict extras calls l)
    (mem : Bytes) : Safe (maybeAddAuto q extras mem l) fun l' => AutoDict extras (calls ++ [⟨mem, l⟩]) l' ∧
      (Rejected extras mem ∨ Has l' mem) := by
  refine Safe.ite (fun hrejected => Safe.pure ?_) fun hno => ?_
  · rw [Bool.or_eq_true, Bool.or_eq_true, or_assoc] at hrejected
    refine ⟨⟨?_, fun e he => (h.counted e he).other he (.inl hrejected), h.bySize, h.byUse⟩, .inl hrejected⟩
    rw [List.map_append]
    exact h.entries.mono mem
  have hacc : ¬ Rejected extras mem := by
    rwa [Bool.or_eq_true, Bool.or_eq_true, or_assoc] at hno
  simp only [Bool.or_eq_true, not_or, Bool.not_eq_true] at hno
  obtain ⟨⟨hsame, hbuiltin⟩, hin⟩ := hno
  refine (hitOrAdd_safe h.entries h.counted hacc ⟨hsame, hbuiltin, fun x hx => ne_of_not_inExtras hsorted hin hx⟩).bind ?_
  rintro m ⟨hm, hcounted, e, he, hmatch⟩
  have hm : AutoEntries extras ((calls ++ [AutoCall.mk mem l]).map AutoCall.mem) (m.map AutoExtra.data) := by rwa [List.map_append]
  exact Safe.pure ⟨sortAutoExtras_spec q hm hcounted, .inr ⟨e, (sortAutoExtras_perm q m).mem_iff.mpr he, hmatch⟩⟩

private theorem addToken_safe (q : Qsort) (hsorted : extras.Pairwise fun a b => a.length ≤ b.length) (h : AutoDict extras calls l)
    (mem : Bytes) : Safe (addToken q extras (calls, l) mem) fun s =>
      s.1.map AutoCall.mem = calls.map AutoCall.mem ++ [mem] ∧ AutoDict extras s.1 s.2 ∧ (Rejected extras mem ∨ Has s.2 mem) :=
  (maybeAddAuto_safe q hsorted h mem).bind fun _ hl' => Safe.pure ⟨List.map_append, hl'⟩

/-- By induction on the calls. -/
private theorem addTokens_safe (q : Qsort) (hsorted : extras.Pairwise fun a b => a.length ≤ b.length) (h : AutoDict extras calls l)
    (tokens : List Bytes) : Safe (addTokens q extras tokens (calls, l)) fun s =>
      s.1.map AutoCall.mem = calls.map AutoCall.mem ++ tokens ∧ AutoDict extras s.1 s.2 := by
  induction tokens generalizing calls l with
  | nil => exact Safe.pure ⟨(List.append_nil _).symm, h⟩
  | cons mem tokens ih =>
    rw [addTokens, List.foldlM_cons]
    refine (addToken_safe q hsorted h mem).bind fun ⟨calls', l'⟩ ⟨hcalls, hl', _⟩ => (ih hl').mono fun s hs => ⟨?_, hs.2⟩
    rw [hs.1, hcalls, List.append_assoc]
    rfl

end

private theorem autoDict_nil (extras : List Bytes) : AutoDict extras [] [] :=
  ⟨⟨Nat.zero_le _, List.nodup_nil, fun _ hd => absurd hd List.not_mem_nil, fun _ hd => absurd hd List.not_mem_nil⟩,
    fun _ he => absurd he List.not_mem_nil, List.Pairwise.nil, fun _ he => absurd he List.not_mem_nil⟩

/-- Whatever is offered and drawn, and however equal entries are ordered: no access past the end, and the dictionary holds at
most 500 of the tokens, no two alike but for case, none that the user's has, each with the count of its hits since it was put
in, with the first 50 by size, and the token of the last call is in it if it was not rejected. -/
theorem auto_dictionary_run (q : Qsort) {extras : List Bytes} (hsorted : extras.Pairwise fun a b => a.length ≤ b.length)
    (tokens : List Bytes) (mem : Bytes) : Safe (addTokens q extras (tokens ++ [mem]) ([], [])) fun s =>
      s.1.map AutoCall.mem = tokens ++ [mem] ∧ AutoDict extras s.1 s.2 ∧ (Rejected extras mem ∨ Has s.2 mem) := by
  rw [addTokens, List.foldlM_append]
  refine (addTokens_safe q hsorted (autoDict_nil extras) tokens).bind fun ⟨calls, l⟩ ⟨hcalls, hl⟩ => ?_
  rw [List.foldlM_cons]
  refine (addToken_safe q hsorted hl mem).bind fun s ⟨hlast, hs⟩ => Safe.pure ⟨?_, hs⟩
  rw [hlast, hcalls]
  rfl

/-- Insertion sort is one of them. -/
def insertionQsort : Qsort where
  sort le l := l.insertionSort fun a b => le a b = true
  perm _ l := l.perm_insertionSort _
  pairwise _ l htrans htotal :=
    have : Std.Total _ := ⟨fun a b => Bool.or_eq_true _ _ ▸ htotal a b⟩
    have : IsTrans AutoExtra _ := ⟨htrans⟩
    l.pairwise_insertionSort _

/-- `IHDR` and `IDAT` beside the user's `GET` and `POST`: `ihdr` and `iHDR` are hits, `Post` is rejected. -/
theorem auto_dictionary_run_magic : ∃ s rest,
    addTokens insertionQsort [[0x47, 0x45, 0x54], [0x50, 0x4f, 0x53, 0x54]]
      ([[0x49, 0x44, 0x41, 0x54], [0x49, 0x48, 0x44, 0x52], [0x69, 0x68, 0x64, 0x72], [0x50, 0x6f, 0x73, 0x74]] ++ [[0x69, 0x48, 0x44, 0x52]])
      ([], []) (fun _ => 0) = some (s, rest) ∧
    (s.2.map fun e => (e.data, e.hitCnt)) = [([0x49, 0x48, 0x44, 0x52], 2), ([0x49, 0x44, 0x41, 0x54], 0)] ∧
    AutoDict [[0x47, 0x45, 0x54], [0x50, 0x4f, 0x53, 0x54]] s.1 s.2 := by
  obtain ⟨s, rest, hrun, -, hdict, -⟩ := @auto_dictionary_run insertionQsort [[0x47, 0x45, 0x54], [0x50, 0x4f, 0x53, 0x54]] (by decide)
    [[0x49, 0x44, 0x41, 0x54], [0x49, 0x48, 0x44, 0x52], [0x69, 0x68, 0x64, 0x72], [0x50, 0x6f, 0x73, 0x74]] [0x69, 0x48, 0x44, 0x52] fun _ => 0
  refine ⟨s, rest, hrun, ?_, hdict⟩
  have heval : ((addTokens insertionQsort [[0x47, 0x45, 0x54], [0x50, 0x4f, 0x53, 0x54]]
      ([[0x49, 0x44, 0x41, 0x54], [0x49, 0x48, 0x44, 0x52], [0x69, 0x68, 0x64, 0x72], [0x50, 0x6f, 0x73, 0x74]] ++ [[0x69, 0x48, 0x44, 0x52]])
      ([], []) fun _ => 0).map fun r => r.1.2.map fun e => (e.data, e.hitCnt)) =
      some [([0x49, 0x48, 0x44, 0x52], 2), ([0x49, 0x44, 0x41, 0x54], 0)] := by decide +kernel
  rw [hrun] at heval
  exact Option.some.inj heval

end LtlFuzzer.Aflgo
