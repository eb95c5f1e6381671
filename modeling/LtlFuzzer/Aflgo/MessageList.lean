import LtlFuzzer.Aflgo.TelnetRequests
import LtlFuzzer.Foundation.ListSegments
import LtlFuzzer.Foundation.Runs

/-! The linked list of the messages of a session, and the replacement of the messages under mutation. -/
namespace LtlFuzzer.Aflgo
open Foundation ListSegments Runs

/-- A klist of messages in its heap. A node is a number, as is a message; the end of the list is a node too.
The pool has the freed nodes, the last one first. -/
structure MessageList where
  head : Nat
  tail : Nat
  size : Int
  cnt : Int
  buf : List Nat
  next : Nat → Option Nat
  data : Nat → Option Nat
  messages : Nat → Option Bytes
  nodes : Nat
  blocks : Nat

def klInit : MessageList where
  head := 0
  tail := 0
  size := 0
  cnt := 1
  buf := []
  next := fun _ => none
  data := fun _ => none
  messages := fun _ => none
  nodes := 1
  blocks := 0

def MessageList.kmpAlloc (kl : MessageList) : Nat × MessageList :=
  match kl.buf with
  | [] => (kl.nodes, { kl with
      cnt := kl.cnt + 1
      nodes := kl.nodes + 1
      next := Function.update kl.next kl.nodes none
      data := Function.update kl.data kl.nodes none })
  | p :: buf => (p, { kl with cnt := kl.cnt + 1, buf := buf })

def MessageList.kmpFree (kl : MessageList) (p : Nat) : MessageList := { kl with cnt := kl.cnt - 1, buf := p :: kl.buf }

/-- The old end of the list becomes the node of the message. -/
def MessageList.klPushp (kl : MessageList) (m : Nat) : MessageList :=
  let p := kl.kmpAlloc.1
  let kl := kl.kmpAlloc.2
  { kl with
    next := Function.update (Function.update kl.next p none) kl.tail (some p)
    data := Function.update kl.data kl.tail (some m)
    tail := p
    size := kl.size + 1 }

/-- A new message with its bytes. -/
def MessageList.newMessage (kl : MessageList) (mdata : Bytes) : MessageList :=
  { kl with messages := Function.update kl.messages kl.blocks (some mdata), blocks := kl.blocks + 1 }

/-- None for what is not allocated, where ck_free aborts. -/
def MessageList.freeMessage (kl : MessageList) (m : Nat) : Option MessageList :=
  (kl.messages m).map fun _ => { kl with messages := Function.update kl.messages m none }

/-- The walk to the last message, in at most so many rounds. -/
def MessageList.lastFrom (kl : MessageList) : Nat → Nat → Option Nat
  | 0, _ => none
  | rounds + 1, it => do
    let n ← kl.next it
    if n = kl.tail then some it else kl.lastFrom rounds n

def MessageList.getLastMessage (kl : MessageList) : Option Nat := kl.lastFrom kl.nodes kl.head

/-- The loop that frees from a node on up to another, at least one. -/
def MessageList.freeUntil (stop : Nat) : Nat → MessageList → Nat → Option Nat → Option MessageList
  | 0, _, _, _ => none
  | rounds + 1, kl, cur, next => do
    let m ← kl.data cur
    let kl ← kl.freeMessage m
    let kl := { kl.kmpFree cur with size := kl.size - 1 }
    let cur ← next
    if cur = stop then some kl else MessageList.freeUntil stop rounds kl cur (kl.next cur)

/-- What a walk reads from a node on up to another. -/
def MessageList.textsFrom (kl : MessageList) (stop : Nat) : Nat → Nat → Option (List Bytes)
  | 0, _ => none
  | rounds + 1, it =>
    if it = stop then some []
    else do
      let m ← kl.data it
      let mdata ← kl.messages m
      let n ← kl.next it
      (mdata :: ·) <$> kl.textsFrom stop rounds n

def MessageList.texts (kl : MessageList) : Option (List Bytes) := kl.textsFrom kl.tail kl.nodes kl.head

/-- The first message is taken out; none where there is none. -/
def MessageList.klShift (kl : MessageList) : Option (Option Nat × MessageList) :=
  (kl.next kl.head).map fun n => (kl.data kl.head, { kl.kmpFree kl.head with head := n, size := kl.size - 1 })

/-- The loop that takes out all messages and frees them. -/
def MessageList.shiftAll : Nat → MessageList → Option MessageList
  | 0, _ => none
  | rounds + 1, kl => match kl.klShift with
    | none => some kl
    | some (none, kl) => MessageList.shiftAll rounds kl
    | some (some m, kl) => do
      let kl ← kl.freeMessage m
      MessageList.shiftAll rounds kl

/-- The nodes that are left go to the pool. Whatever is in the pool is then freed once for each time it is there. -/
def MessageList.klDestroy : Nat → MessageList → Nat → Option MessageList
  | 0, _, _ => none
  | rounds + 1, kl, p =>
    if p = kl.tail then some (kl.kmpFree p)
    else do
      let n ← kl.next p
      MessageList.klDestroy rounds (kl.kmpFree p) n

def MessageList.deleteKlMessages (kl : MessageList) : Option MessageList := do
  let kl ← MessageList.shiftAll kl.nodes kl
  MessageList.klDestroy kl.nodes kl kl.head

/-- Every message is freed, and every node is in the pool once. -/
def MessageList.Released (kl : MessageList) : Prop := kl.messages = (fun _ => none) ∧ kl.buf.Perm (List.range kl.nodes)

/-- The messages are put into a new list, one after another. -/
def MessageList.construct (texts : List Bytes) : MessageList :=
  texts.foldl (fun kl mdata => (kl.newMessage mdata).klPushp kl.blocks) klInit

/-- What a node of a message holds. -/
def MessageList.text (kl : MessageList) (n : Nat) : Option Bytes := (kl.data n).bind kl.messages

/-- These nodes with these texts, nothing else is allocated, and every other node but the end is free. -/
structure MessageList.Stores (kl : MessageList) (l : List (Nat × Bytes)) : Prop where
  all : (l.map Prod.fst ++ kl.tail :: kl.buf).Perm (List.range kl.nodes)
  texts : ∀ p ∈ l, kl.text p.1 = some p.2
  owned : ∀ m, kl.messages m ≠ none → ∃ p ∈ l, kl.data p.1 = some m
  apart : ∀ p ∈ l, ∀ p' ∈ l, kl.data p.1 = kl.data p'.1 → p.1 = p'.1
  fresh : ∀ m, kl.messages m ≠ none → m < kl.blocks
  size : kl.size = l.length
  cnt : kl.cnt = l.length + 1

/-- The pointers lead over these nodes, and nothing else is there. -/
structure MessageList.Has (kl : MessageList) (l : List (Nat × Bytes)) : Prop extends kl.Stores l where
  seg : Seg kl.next kl.head (l.map Prod.fst) kl.tail
  ends : kl.next kl.tail = none

namespace MessageList.Has
variable {kl : MessageList} {l : List (Nat × Bytes)}

theorem nodup (h : kl.Has l) : (l.map Prod.fst ++ kl.tail :: kl.buf).Nodup := h.all.nodup_iff.mpr List.nodup_range

theorem nodes_nodup (h : kl.Has l) : (l.map Prod.fst).Nodup := (List.nodup_append.mp h.nodup).1

theorem tail_not_mem (h : kl.Has l) : kl.tail ∉ l.map Prod.fst := fun hm =>
  (List.nodup_append.mp h.nodup).2.2 _ hm _ List.mem_cons_self rfl

theorem lt (h : kl.Has l) {n : Nat} (hn : n ∈ l.map Prod.fst ++ kl.tail :: kl.buf) : n < kl.nodes :=
  List.mem_range.mp (h.all.mem_iff.mp hn)

theorem length_lt (h : kl.Has l) : l.length < kl.nodes := by
  have := h.all.length_eq
  rw [List.length_append, List.length_map, List.length_cons, List.length_range] at this
  omega

end MessageList.Has

theorem klInit_has : klInit.Has [] where
  all := List.Perm.refl _
  texts := fun _ hp => absurd hp List.not_mem_nil
  owned := fun _ hm => absurd rfl hm
  apart := fun _ hp => absurd hp List.not_mem_nil
  fresh := fun _ hm => absurd rfl hm
  size := rfl
  cnt := rfl
  seg := rfl
  ends := rfl

/-- A node from the pool or a new one: it is none of the list's, and the list stays as it is. -/
private theorem kmpAlloc_spec {kl : MessageList} {ns : List Nat} (hall : (ns ++ kl.tail :: kl.buf).Perm (List.range kl.nodes)) :
    (ns ++ kl.tail :: kl.kmpAlloc.1 :: kl.kmpAlloc.2.buf).Perm (List.range kl.kmpAlloc.2.nodes) ∧
    (∀ n ∈ ns ++ [kl.tail], n ≠ kl.kmpAlloc.1 ∧ kl.kmpAlloc.2.next n = kl.next n ∧ kl.kmpAlloc.2.data n = kl.data n) ∧
    kl.kmpAlloc.2.head = kl.head ∧ kl.kmpAlloc.2.tail = kl.tail ∧ kl.kmpAlloc.2.messages = kl.messages ∧
    kl.kmpAlloc.2.blocks = kl.blocks ∧ kl.kmpAlloc.2.size = kl.size ∧ kl.kmpAlloc.2.cnt = kl.cnt + 1 := by
  have hnodup := hall.nodup_iff.mpr List.nodup_range
  rw [MessageList.kmpAlloc]
  cases hbuf : kl.buf with
  | nil =>
    rw [hbuf] at hall
    refine ⟨?_, fun n hn => ?_, rfl, rfl, rfl, rfl, rfl, rfl⟩
    · have := hall.append_right [kl.nodes]
      rw [← List.range_succ, List.append_assoc] at this
      exact this
    · have hne : n ≠ kl.nodes := (List.mem_range.mp (hall.mem_iff.mp hn)).ne
      exact ⟨hne, Function.update_of_ne hne _ _, Function.update_of_ne hne _ _⟩
  | cons p buf =>
    rw [hbuf] at hall hnodup
    refine ⟨hall, fun n hn => ⟨?_, rfl, rfl⟩, rfl, rfl, rfl, rfl, rfl, rfl⟩
    rintro rfl
    rw [← List.singleton_append, ← List.append_assoc] at hnodup
    exact (List.nodup_append.mp hnodup).2.2 _ hn _ List.mem_cons_self rfl

private theorem text_of_eq {kl kl' : MessageList} {n : Nat} {t : Bytes} (h : kl.text n = some t) (hdata : kl'.data n = kl.data n)
    (hmsg : ∀ m, kl.messages m ≠ none → kl'.messages m = kl.messages m) : kl'.text n = some t := by
  obtain ⟨m, hm, ht⟩ := Option.bind_eq_some_iff.mp h
  rw [MessageList.text, hdata, hm, Option.bind_some, hmsg m (by rw [ht]; simp), ht]

/-- A message put at the end of the list. -/
theorem push_has {kl : MessageList} {l : List (Nat × Bytes)} (h : kl.Has l) (mdata : Bytes) :
    ((kl.newMessage mdata).klPushp kl.blocks).Has (l ++ [(kl.tail, mdata)]) ∧
    ((kl.newMessage mdata).klPushp kl.blocks).head = kl.head ∧
    (∀ n ∈ l.map Prod.fst, ((kl.newMessage mdata).klPushp kl.blocks).next n = kl.next n) ∧
    ((kl.newMessage mdata).klPushp kl.blocks).next kl.tail = some ((kl.newMessage mdata).klPushp kl.blocks).tail := by
  have hall : (l.map Prod.fst ++ (kl.newMessage mdata).tail :: (kl.newMessage mdata).buf).Perm
    (List.range (kl.newMessage mdata).nodes) := h.all
  obtain ⟨hall', hframe, hhead, htail, hmessages, hblocks, hsize, hcnt⟩ := kmpAlloc_spec hall
  rw [MessageList.klPushp]
  generalize (kl.newMessage mdata).kmpAlloc = r at *
  obtain ⟨p, kl₁⟩ := r
  dsimp only at *
  have htail₁ : kl₁.tail = kl.tail := htail
  have hmessages₁ : kl₁.messages = Function.update kl.messages kl.blocks (some mdata) := hmessages
  rw [htail₁]
  have hlist {n : Nat} (hn : n ∈ l.map Prod.fst) : n ≠ p ∧ n ≠ kl.tail ∧ kl₁.next n = kl.next n ∧ kl₁.data n = kl.data n := by
    obtain ⟨hp, hnext, hdata⟩ := hframe n (List.mem_append_left _ hn)
    exact ⟨hp, fun he => h.tail_not_mem (he ▸ hn), hnext, hdata⟩
  have hptail : kl.tail ≠ p := (hframe kl.tail (List.mem_append_right _ List.mem_cons_self)).1
  have hnext {n : Nat} (hn : n ∈ l.map Prod.fst) :
      Function.update (Function.update kl₁.next p none) kl.tail (some p) n = kl.next n := by
    obtain ⟨hp, ht, hnext, -⟩ := hlist hn
    rw [Function.update_of_ne ht, Function.update_of_ne hp, hnext]
  have hdata {n : Nat} (hn : n ∈ l.map Prod.fst) : Function.update kl₁.data kl.tail (some kl.blocks) n = kl.data n := by
    obtain ⟨-, ht, -, hdata⟩ := hlist hn
    rw [Function.update_of_ne ht, hdata]
  have hkept {m : Nat} (hm : kl.messages m ≠ none) : kl₁.messages m = kl.messages m := by
    rw [hmessages₁, Function.update_of_ne (h.fresh m hm).ne]
  have hsome {q : Nat × Bytes} (hq : q ∈ l) : ∃ m, kl.data q.1 = some m ∧ kl.messages m ≠ none := by
    obtain ⟨m, hm, ht⟩ := Option.bind_eq_some_iff.mp (h.texts q hq)
    exact ⟨m, hm, by rw [ht]; simp⟩
  have hlast : Function.update (Function.update kl₁.next p none) kl.tail (some p) kl.tail = some p := Function.update_self _ _ _
  refine ⟨⟨⟨?_, ?_, ?_, ?_, ?_, ?_, ?_⟩, ?_, ?_⟩, hhead, fun n hn => hnext hn, hlast⟩
  · rw [List.map_append, List.map_singleton, List.append_assoc]
    exact hall'
  · intro q hq
    rcases List.mem_append.mp hq with hq | hq
    · exact text_of_eq (h.texts q hq) (hdata (List.mem_map_of_mem hq)) fun m hm => hkept hm
    · obtain rfl := List.mem_singleton.mp hq
      rw [MessageList.text]
      dsimp only
      rw [Function.update_self, Option.bind_some, hmessages₁, Function.update_self]
  · intro m hm
    dsimp only at hm ⊢
    rw [hmessages₁] at hm
    by_cases hnew : m = kl.blocks
    · exact ⟨(kl.tail, mdata), List.mem_append_right _ List.mem_cons_self, by rw [hnew, Function.update_self]⟩
    · rw [Function.update_of_ne hnew] at hm
      obtain ⟨q, hq, hqm⟩ := h.owned m hm
      exact ⟨q, List.mem_append_left _ hq, (hdata (List.mem_map_of_mem hq)).trans hqm⟩
  · intro q hq q' hq' heq
    dsimp only at heq
    rcases List.mem_append.mp hq with hq | hq <;> rcases List.mem_append.mp hq' with hq' | hq'
    · rw [hdata (List.mem_map_of_mem hq), hdata (List.mem_map_of_mem hq')] at heq
      exact h.apart q hq q' hq' heq
    · obtain rfl := List.mem_singleton.mp hq'
      obtain ⟨m, hm, hlive⟩ := hsome hq
      rw [hdata (List.mem_map_of_mem hq), Function.update_self, hm, Option.some.injEq] at heq
      exact absurd heq (h.fresh m hlive).ne
    · obtain rfl := List.mem_singleton.mp hq
      obtain ⟨m, hm, hlive⟩ := hsome hq'
      rw [hdata (List.mem_map_of_mem hq'), Function.update_self, hm, Option.some.injEq] at heq
      exact absurd heq.symm (h.fresh m hlive).ne
    · rw [List.mem_singleton.mp hq, List.mem_singleton.mp hq']
  · intro m hm
    have hblocks₁ : kl₁.blocks = kl.blocks + 1 := hblocks
    dsimp only at hm ⊢
    rw [hmessages₁] at hm
    rw [hblocks₁]
    by_cases hnew : m = kl.blocks
    · exact hnew ▸ Nat.lt_succ_self m
    · rw [Function.update_of_ne hnew] at hm
      exact Nat.lt_succ_of_lt (h.fresh m hm)
  · have hsize₁ : kl₁.size = kl.size := hsize
    rw [List.length_append, List.length_singleton]
    dsimp only
    rw [hsize₁, h.size]
    rfl
  · have hcnt₁ : kl₁.cnt = kl.cnt + 1 := hcnt
    rw [List.length_append, List.length_singleton]
    dsimp only
    rw [hcnt₁, h.cnt]
    rfl
  · rw [List.map_append, List.map_singleton]
    exact seg_concat.mpr ⟨hhead ▸ h.seg.congr fun n hn => hnext hn, hlast⟩
  · exact (Function.update_of_ne hptail.symm _ _).trans (Function.update_self _ _ _)

private theorem lastFrom_eq {kl : MessageList} {l : List Nat} {n : Nat} {it : Nat} (h : Seg kl.next it (l ++ [n]) kl.tail)
    (htail : kl.tail ∉ l ++ [n]) {rounds : Nat} (hrounds : l.length < rounds) : kl.lastFrom rounds it = some n := by
  induction l generalizing it rounds with
  | nil =>
    obtain ⟨r, rfl⟩ := Nat.exists_eq_add_of_lt hrounds
    obtain ⟨rfl, c, hc, rfl⟩ := h
    rw [MessageList.lastFrom, hc]
    exact if_pos rfl
  | cons x l ih =>
    obtain ⟨r, rfl⟩ := Nat.exists_eq_succ_of_ne_zero (Nat.ne_of_gt (Nat.zero_lt_of_lt hrounds))
    obtain ⟨rfl, c, hc, hl⟩ := h
    have htail' : kl.tail ∉ l ++ [n] := fun hm => htail (List.mem_cons_of_mem _ hm)
    have hne : c ≠ kl.tail := by
      rintro rfl
      exact htail' (hl.head_mem (by simp))
    rw [MessageList.lastFrom, hc]
    exact (if_neg hne).trans (ih hl htail' (Nat.lt_of_succ_lt_succ hrounds))

theorem MessageList.Has.getLastMessage_eq {kl : MessageList} {l : List (Nat × Bytes)} {p : Nat × Bytes} (h : kl.Has (l ++ [p])) :
    kl.getLastMessage = some p.1 := by
  have hseg := h.seg
  have htail := h.tail_not_mem
  have hlt := h.length_lt
  rw [List.map_append, List.map_singleton] at hseg htail
  rw [List.length_append, List.length_singleton] at hlt
  exact lastFrom_eq hseg htail (by rw [List.length_map]; omega)

/-- What the freeing of some messages leaves: their nodes go to the pool and their bytes are gone. -/
structure MessageList.Freed (kl kl' : MessageList) (l : List (Nat × Bytes)) : Prop where
  head : kl'.head = kl.head
  tail : kl'.tail = kl.tail
  next : kl'.next = kl.next
  data : kl'.data = kl.data
  nodes : kl'.nodes = kl.nodes
  blocks : kl'.blocks = kl.blocks
  buf : kl'.buf = (l.map Prod.fst).reverse ++ kl.buf
  size : kl'.size = kl.size - l.length
  cnt : kl'.cnt = kl.cnt - l.length
  gone : ∀ p ∈ l, ∀ m, kl.data p.1 = some m → kl'.messages m = none
  kept : ∀ m, (∀ p ∈ l, kl.data p.1 ≠ some m) → kl'.messages m = kl.messages m

theorem freeUntil_freed {l : List (Nat × Bytes)} (hl : l ≠ []) {kl : MessageList} {cur stop : Nat}
    (hseg : Seg kl.next cur (l.map Prod.fst) stop) (hstop : stop ∉ l.map Prod.fst)
    (htexts : ∀ p ∈ l, kl.text p.1 = some p.2) (hapart : ∀ p ∈ l, ∀ p' ∈ l, kl.data p.1 = kl.data p'.1 → p.1 = p'.1)
    (hnodup : (l.map Prod.fst).Nodup) {rounds : Nat} (hrounds : l.length ≤ rounds) :
    ∃ kl', MessageList.freeUntil stop rounds kl cur (kl.next cur) = some kl' ∧ kl.Freed kl' l := by
  induction l generalizing kl cur rounds with
  | nil => exact absurd rfl hl
  | cons p l ih =>
    obtain ⟨r, rfl⟩ := Nat.exists_eq_succ_of_ne_zero (Nat.ne_of_gt (Nat.lt_of_lt_of_le (Nat.succ_pos _) hrounds))
    obtain ⟨rfl, c, hc, hrest⟩ := hseg
    obtain ⟨m, hm, ht⟩ := Option.bind_eq_some_iff.mp (htexts p List.mem_cons_self)
    rw [List.map_cons, List.nodup_cons] at hnodup
    obtain ⟨kl₁, hkl₁⟩ : ∃ kl₁, kl₁ = { kl with
      messages := Function.update kl.messages m none
      cnt := kl.cnt - 1
      buf := p.1 :: kl.buf
      size := kl.size - 1 } := ⟨_, rfl⟩
    have hround : MessageList.freeUntil stop (r + 1) kl p.1 (kl.next p.1) =
        if c = stop then some kl₁ else MessageList.freeUntil stop r kl₁ c (kl₁.next c) := by
      rw [MessageList.freeUntil, hm, hc, hkl₁]
      simp only [Option.bind_eq_bind, Option.bind_some, MessageList.freeMessage, ht, Option.map_some]
      rfl
    -- no other node of the list has this message
    have hother (q : Nat × Bytes) (hq : q ∈ l) : kl.data q.1 ≠ some m := by
      intro h
      have := hapart q (List.mem_cons_of_mem p hq) p List.mem_cons_self (h.trans hm.symm)
      exact hnodup.1 (this ▸ List.mem_map_of_mem hq)
    have hmessages : kl₁.messages = Function.update kl.messages m none := by rw [hkl₁]
    rw [hround]
    cases l with
    | nil =>
      refine ⟨kl₁, if_pos hrest, ?_⟩
      subst hkl₁
      refine ⟨rfl, rfl, rfl, rfl, rfl, rfl, rfl, rfl, rfl, ?_, ?_⟩
      · intro q hq m' hm'
        obtain rfl := List.mem_singleton.mp hq
        obtain rfl : m = m' := Option.some.inj (hm.symm.trans hm')
        exact Function.update_self _ _ _
      · intro m' hm'
        have hne : m' ≠ m := fun h => hm' p List.mem_cons_self (h ▸ hm)
        exact Function.update_of_ne hne _ _
    | cons q l =>
      have hne : c ≠ stop := by
        rintro rfl
        exact hstop (List.mem_cons_of_mem _ (hrest.head_mem (by simp)))
      have hdata₁ : kl₁.data = kl.data := by rw [hkl₁]
      have hnext₁ : kl₁.next = kl.next := by rw [hkl₁]
      have htexts₁ (q' : Nat × Bytes) (hq' : q' ∈ q :: l) : kl₁.text q'.1 = some q'.2 := by
        obtain ⟨m', hm', ht'⟩ := Option.bind_eq_some_iff.mp (htexts q' (List.mem_cons_of_mem p hq'))
        have hne' : m' ≠ m := fun h => hother q' hq' (h ▸ hm')
        rw [MessageList.text, hdata₁, hm', Option.bind_some, hmessages, Function.update_of_ne hne', ht']
      obtain ⟨kl', hrun, hfreed⟩ := @ih (List.cons_ne_nil q l) kl₁ c (by rwa [hnext₁])
        (fun h => hstop (List.mem_cons_of_mem _ h)) htexts₁
        (fun p₁ h₁ p₂ h₂ h => hapart p₁ (List.mem_cons_of_mem p h₁) p₂ (List.mem_cons_of_mem p h₂) (by rwa [hdata₁] at h))
        hnodup.2 r (Nat.le_of_succ_le_succ hrounds)
      refine ⟨kl', (if_neg hne).trans hrun, ?_⟩
      have hbuf₁ : kl₁.buf = p.1 :: kl.buf := by rw [hkl₁]
      have hsize₁ : kl₁.size = kl.size - 1 := by rw [hkl₁]
      have hcnt₁ : kl₁.cnt = kl.cnt - 1 := by rw [hkl₁]
      refine ⟨hfreed.head.trans (by rw [hkl₁]), hfreed.tail.trans (by rw [hkl₁]), hfreed.next.trans hnext₁,
        hfreed.data.trans hdata₁, hfreed.nodes.trans (by rw [hkl₁]), hfreed.blocks.trans (by rw [hkl₁]), ?_, ?_, ?_, ?_, ?_⟩
      · rw [hfreed.buf, hbuf₁]
        simp
      · rw [hfreed.size, hsize₁, List.length_cons (a := p)]
        push_cast
        omega
      · rw [hfreed.cnt, hcnt₁, List.length_cons (a := p)]
        push_cast
        omega
      · intro q' hq' m' hm'
        rcases List.mem_cons.mp hq' with rfl | hq'
        · obtain rfl : m = m' := Option.some.inj (hm.symm.trans hm')
          rw [hfreed.kept m fun q' hq' => by rw [hdata₁]; exact hother q' hq', hmessages, Function.update_self]
        · exact hfreed.gone q' hq' m' (by rw [hdata₁]; exact hm')
      · intro m' hm'
        have hne' : m' ≠ m := fun h => hm' p List.mem_cons_self (h ▸ hm)
        rw [hfreed.kept m' fun q' hq' => by rw [hdata₁]; exact hm' q' (List.mem_cons_of_mem p hq'), hmessages,
          Function.update_of_ne hne']

/-- The nodes may stand in another order, and the pointers do not matter. -/
theorem MessageList.Stores.relinked {kl : MessageList} {l l' : List (Nat × Bytes)} (h : kl.Stores l) (hl : l'.Perm l) (head : Nat)
    (next : Nat → Option Nat) : MessageList.Stores { kl with head := head, next := next } l' where
  all := ((hl.map Prod.fst).append_right _).trans h.all
  texts := fun p hp => h.texts p (hl.mem_iff.mp hp)
  owned := fun m hm => (h.owned m hm).imp fun _ hp => ⟨hl.mem_iff.mpr hp.1, hp.2⟩
  apart := fun p hp p' hp' => h.apart p (hl.mem_iff.mp hp) p' (hl.mem_iff.mp hp')
  fresh := h.fresh
  size := h.size.trans (by rw [hl.length_eq])
  cnt := h.cnt.trans (by rw [hl.length_eq])

/-- What is left of a list when some of its messages were freed. -/
theorem MessageList.Freed.stores {kl kl' : MessageList} {rest gone : List (Nat × Bytes)} (h : kl.Freed kl' gone)
    (hall : kl.Stores (rest ++ gone)) : kl'.Stores rest := by
  have hnodup : (rest.map Prod.fst ++ gone.map Prod.fst).Nodup := by
    have := (List.nodup_append.mp (hall.all.nodup_iff.mpr List.nodup_range)).1
    rwa [List.map_append] at this
  have hdisjoint := (List.nodup_append.mp hnodup).2.2
  have hrest {p : Nat × Bytes} (hp : p ∈ rest) : p ∈ rest ++ gone := List.mem_append_left _ hp
  have hkept {p : Nat × Bytes} (hp : p ∈ rest) {m : Nat} (hm : kl.data p.1 = some m) : kl'.messages m = kl.messages m :=
    h.kept m fun q hq hqm => hdisjoint p.1 (List.mem_map_of_mem hp) q.1 (List.mem_map_of_mem hq)
      (hall.apart p (hrest hp) q (List.mem_append_right _ hq) (hm.trans hqm.symm))
  have hlive {m : Nat} (hm : kl'.messages m ≠ none) : kl.messages m ≠ none := by
    rwa [h.kept m fun q hq hqm => hm (h.gone q hq m hqm)] at hm
  have hlength : (rest ++ gone).length = rest.length + gone.length := List.length_append
  refine ⟨?_, fun p hp => ?_, fun m hm => ?_, fun p hp p' hp' heq => ?_, fun m hm => ?_, ?_, ?_⟩
  · rw [h.tail, h.buf, h.nodes]
    have hpool : ((gone.map Prod.fst).reverse ++ kl.buf).Perm (gone.map Prod.fst ++ kl.buf) :=
      (List.reverse_perm _).append_right _
    have hmoved : (rest.map Prod.fst ++ kl.tail :: (gone.map Prod.fst ++ kl.buf)).Perm
        (rest.map Prod.fst ++ (gone.map Prod.fst ++ kl.tail :: kl.buf)) := List.perm_middle.symm.append_left _
    rw [← List.append_assoc, ← List.map_append] at hmoved
    exact (((hpool.cons _).append_left _).trans hmoved).trans hall.all
  · obtain ⟨m, hm, ht⟩ := Option.bind_eq_some_iff.mp (hall.texts p (hrest hp))
    rw [MessageList.text, h.data, hm, Option.bind_some, hkept hp hm, ht]
  · obtain ⟨p, hp, hpm⟩ := hall.owned m (hlive hm)
    rcases List.mem_append.mp hp with hp | hp
    · exact ⟨p, hp, h.data ▸ hpm⟩
    · exact absurd (h.gone p hp m hpm) hm
  · rw [h.data] at heq
    exact hall.apart p (hrest hp) p' (hrest hp') heq
  · rw [h.blocks]
    exact hall.fresh m (hlive hm)
  · rw [h.size, hall.size]
    omega
  · rw [h.cnt, hall.cnt]
    omega

theorem textsFrom_eq {kl : MessageList} {l : List (Nat × Bytes)} {it stop : Nat} (hseg : Seg kl.next it (l.map Prod.fst) stop)
    (hstop : stop ∉ l.map Prod.fst) (htexts : ∀ p ∈ l, kl.text p.1 = some p.2) {rounds : Nat} (hrounds : l.length < rounds) :
    kl.textsFrom stop rounds it = some (l.map Prod.snd) := by
  induction l generalizing it rounds with
  | nil =>
    obtain ⟨r, rfl⟩ := Nat.exists_eq_succ_of_ne_zero (Nat.ne_of_gt hrounds)
    exact if_pos hseg
  | cons p l ih =>
    obtain ⟨r, rfl⟩ := Nat.exists_eq_succ_of_ne_zero (Nat.ne_of_gt (Nat.zero_lt_of_lt hrounds))
    obtain ⟨rfl, c, hc, hrest⟩ := hseg
    obtain ⟨m, hm, ht⟩ := Option.bind_eq_some_iff.mp (htexts p List.mem_cons_self)
    have hne : p.1 ≠ stop := fun h => hstop (h ▸ List.mem_cons_self)
    have hwalk := ih hrest (fun h => hstop (List.mem_cons_of_mem _ h)) (fun q hq => htexts q (List.mem_cons_of_mem p hq))
      (Nat.lt_of_succ_lt_succ hrounds)
    rw [MessageList.textsFrom, if_neg hne, hm, hc]
    simp only [Option.bind_eq_bind, Option.bind_some, ht, hwalk, List.map_cons]
    rfl

theorem MessageList.Has.texts_eq {kl : MessageList} {l : List (Nat × Bytes)} (h : kl.Has l) : kl.texts = some (l.map Prod.snd) :=
  textsFrom_eq h.seg h.tail_not_mem h.texts h.length_lt

theorem construct_has (texts : List Bytes) : ∃ l, (MessageList.construct texts).Has l ∧ l.map Prod.snd = texts := by
  refine foldl_history (fun texts kl => ∃ l, MessageList.Has kl l ∧ l.map Prod.snd = texts) ⟨[], klInit_has, rfl⟩ ?_ texts
  rintro past kl mdata ⟨l, hl, rfl⟩
  exact ⟨l ++ [(kl.tail, mdata)], (push_has hl mdata).1, List.map_append⟩

/-- One round of the deletion. -/
private theorem shift_has {kl : MessageList} {p : Nat × Bytes} {l : List (Nat × Bytes)} (h : kl.Has (p :: l)) :
    ∃ m kl₁ kl', kl.klShift = some (some m, kl₁) ∧ kl₁.freeMessage m = some kl' ∧ kl'.Has l ∧ kl'.nodes = kl.nodes := by
  obtain ⟨hhead, c, hc, hrest⟩ := h.seg
  obtain ⟨m, hm, ht⟩ := Option.bind_eq_some_iff.mp (h.texts p List.mem_cons_self)
  rw [← hhead] at hc hm
  have hfreed : MessageList.Freed { kl with head := c, next := kl.next } { kl with
      head := c
      messages := Function.update kl.messages m none
      cnt := kl.cnt - 1
      buf := kl.head :: kl.buf
      size := kl.size - 1 } [p] := by
    refine ⟨rfl, rfl, rfl, rfl, rfl, rfl, by rw [hhead]; rfl, rfl, rfl, fun q hq m' hm' => ?_, fun m' hm' => ?_⟩
    · rw [List.mem_singleton.mp hq, ← hhead] at hm'
      obtain rfl : m = m' := Option.some.inj (hm.symm.trans hm')
      exact Function.update_self _ _ _
    · have hne : m' ≠ m := fun he => hm' p List.mem_cons_self (by rw [← hhead, he]; exact hm)
      exact Function.update_of_ne hne _ _
  have hstores := h.toStores.relinked (List.perm_append_singleton p l) c kl.next
  refine ⟨m, _, _, by rw [MessageList.klShift, hc, hm]; rfl, ?_, ⟨hfreed.stores hstores, hrest, h.ends⟩, rfl⟩
  exact congrArg (Option.map _) ht

private theorem shiftAll_has {kl : MessageList} {l : List (Nat × Bytes)} (h : kl.Has l) {rounds : Nat} (hrounds : l.length < rounds) :
    ∃ kl', MessageList.shiftAll rounds kl = some kl' ∧ kl'.Has [] ∧ kl'.nodes = kl.nodes := by
  induction l generalizing kl rounds with
  | nil =>
    obtain ⟨r, rfl⟩ := Nat.exists_eq_succ_of_ne_zero (Nat.ne_of_gt hrounds)
    have hnone : kl.klShift = none := by
      rw [MessageList.klShift, show kl.head = kl.tail from h.seg, h.ends]
      rfl
    exact ⟨kl, by rw [MessageList.shiftAll, hnone], h, rfl⟩
  | cons p l ih =>
    obtain ⟨r, rfl⟩ := Nat.exists_eq_succ_of_ne_zero (Nat.ne_of_gt (Nat.zero_lt_of_lt hrounds))
    obtain ⟨m, kl₁, kl₂, hshift, hfree, hhas, hnodes⟩ := shift_has h
    obtain ⟨kl', hrun, hempty, hnodes'⟩ := ih hhas (Nat.lt_of_succ_lt_succ hrounds)
    refine ⟨kl', ?_, hempty, hnodes'.trans hnodes⟩
    rw [MessageList.shiftAll, hshift]
    simp only [hfree, Option.bind_eq_bind, Option.bind_some, hrun]

/-- The deletion frees all that was allocated for the list, and nothing twice. -/
theorem MessageList.Has.delete {kl : MessageList} {l : List (Nat × Bytes)} (h : kl.Has l) :
    ∃ kl', kl.deleteKlMessages = some kl' ∧ kl'.Released := by
  obtain ⟨kl₁, hrun, hempty, hnodes⟩ := shiftAll_has h h.length_lt
  have hend : kl₁.head = kl₁.tail := hempty.seg
  obtain ⟨r, hr⟩ := Nat.exists_eq_succ_of_ne_zero (Nat.ne_of_gt (Nat.zero_lt_of_lt h.length_lt))
  refine ⟨kl₁.kmpFree kl₁.head, ?_, ?_, ?_⟩
  · rw [MessageList.deleteKlMessages, hrun, Option.bind_eq_bind, Option.bind_some, hnodes, hr, MessageList.klDestroy]
    exact if_pos hend
  · funext m
    by_contra hm
    obtain ⟨p, hp, -⟩ := hempty.owned m hm
    cases hp
  · rw [MessageList.kmpFree, hend]
    exact hempty.all

end LtlFuzzer.Aflgo
