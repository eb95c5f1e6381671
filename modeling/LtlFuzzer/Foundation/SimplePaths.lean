import Mathlib.Data.List.Chain
import Mathlib.Data.List.Nodup
import Mathlib.Tactic.Common

/-! Searching a graph from a node on, along ways that meet no node twice. -/
namespace LtlFuzzer.Foundation.SimplePaths
variable {α : Type} [DecidableEq α]

/-- A way on from a node: along edges, past nodes that do not stop it, none of them blocked
and none met twice. -/
structure Way (succ : α → List α) (stops blocked : α → Bool) (q : α) (l : List α) : Prop where
  chain : (q :: l).IsChain fun a b => b ∈ succ a
  passes : ∀ x ∈ l, stops x = false
  free : ∀ x ∈ l, blocked x = false
  nodup : (q :: l).Nodup

/-- One node more is blocked. -/
def block (blocked : α → Bool) (q x : α) : Bool := x = q || blocked x

/-- The edges that a depth-first search looks at, each as the way to it and its end. The
search goes on from an end that neither stops it nor is blocked. -/
def trail (succ : α → List α) (stops : α → Bool) : Nat → (α → Bool) → α → List (List α × α)
  | 0, _, _ => []
  | n + 1, blocked, q => (succ q).flatMap fun r =>
    ([], r) :: if stops r || block blocked q r then []
      else (trail succ stops n (block blocked q) r).map fun e => (r :: e.1, e.2)

variable {succ : α → List α} {stops blocked : α → Bool} {q r : α} {l : List α}

omit [DecidableEq α] in
theorem way_nil : Way succ stops blocked q [] := ⟨by simp, by simp, by simp, by simp⟩

/-- A way goes over an edge and on from its end, without the node it comes from. -/
theorem way_cons : Way succ stops blocked q (r :: l) ↔
    r ∈ succ q ∧ stops r = false ∧ block blocked q r = false ∧ Way succ stops (block blocked q) r l := by
  constructor
  · rintro ⟨hchain, hpasses, hfree, hnodup⟩
    obtain ⟨hedge, hrest⟩ := List.isChain_cons_cons.mp hchain
    obtain ⟨hq, hnodup⟩ := List.nodup_cons.mp hnodup
    obtain ⟨hpass, hpasses⟩ := List.forall_mem_cons.mp hpasses
    obtain ⟨hr, hfree⟩ := List.forall_mem_cons.mp hfree
    have hblock (x : α) (hx : x ∈ r :: l) (hb : blocked x = false) : block blocked q x = false := by
      have hne : x ≠ q := fun he => hq (he ▸ hx)
      simp [block, hne, hb]
    exact ⟨hedge, hpass, hblock r List.mem_cons_self hr, hrest, hpasses,
      fun x hx => hblock x (List.mem_cons_of_mem r hx) (hfree x hx), hnodup⟩
  · rintro ⟨hedge, hpass, hr, hchain, hpasses, hfree, hnodup⟩
    have hblock {x : α} (hx : block blocked q x = false) : x ≠ q ∧ blocked x = false := by
      simpa [block] using hx
    refine ⟨List.isChain_cons_cons.mpr ⟨hedge, hchain⟩, List.forall_mem_cons.mpr ⟨hpass, hpasses⟩,
      List.forall_mem_cons.mpr ⟨(hblock hr).2, fun x hx => (hblock (hfree x hx)).2⟩, List.nodup_cons.mpr ⟨?_, hnodup⟩⟩
    intro hq
    rcases List.mem_cons.mp hq with he | hl
    · exact (hblock hr).1 he.symm
    · exact (hblock (hfree q hl)).1 rfl

omit [DecidableEq α] in
theorem isChain_concat {R : α → α → Prop} {x : α} :
    (q :: (l ++ [x])).IsChain R ↔ (q :: l).IsChain R ∧ R (l.getLastD q) x := by
  rw [← List.cons_append, List.isChain_append, List.getLast?_cons]
  simp

omit [DecidableEq α] in
/-- It also ends with an edge, to a node that is not on it before. -/
theorem way_concat {x : α} : Way succ stops blocked q (l ++ [x]) ↔ Way succ stops blocked q l ∧
    x ∈ succ (l.getLastD q) ∧ stops x = false ∧ blocked x = false ∧ x ∉ q :: l := by
  constructor
  · rintro ⟨hchain, hpasses, hfree, hnodup⟩
    obtain ⟨hbefore, hedge⟩ := isChain_concat.mp hchain
    obtain ⟨hpasses, hpass⟩ := List.forall_mem_append.mp hpasses
    obtain ⟨hfree, hx⟩ := List.forall_mem_append.mp hfree
    rw [← List.cons_append, ← List.concat_eq_append, List.nodup_concat] at hnodup
    exact ⟨⟨hbefore, hpasses, hfree, hnodup.2⟩, hedge, hpass x (by simp), hx x (by simp), hnodup.1⟩
  · rintro ⟨⟨hchain, hpasses, hfree, hnodup⟩, hedge, hpass, hx, hnew⟩
    refine ⟨isChain_concat.mpr ⟨hchain, hedge⟩, ?_, ?_, ?_⟩
    · exact List.forall_mem_append.mpr ⟨hpasses, by simpa using hpass⟩
    · exact List.forall_mem_append.mpr ⟨hfree, by simpa using hx⟩
    · rw [← List.cons_append, ← List.concat_eq_append, List.nodup_concat]
      exact ⟨hnew, hnodup⟩

/-- The search looks at the edges that go out from its ways, up to a length. -/
theorem mem_trail {n : Nat} {x : α} : (l, x) ∈ trail succ stops n blocked q ↔
    Way succ stops blocked q l ∧ x ∈ succ (l.getLastD q) ∧ l.length < n := by
  induction n generalizing blocked q l with
  | zero => simp [trail]
  | succ n ih =>
    rw [trail, List.mem_flatMap]
    constructor
    · rintro ⟨r, hr, h⟩
      rcases List.mem_cons.mp h with he | h
      · cases he
        exact ⟨way_nil, hr, Nat.succ_pos n⟩
      · split_ifs at h with hstop
        · cases h
        · obtain ⟨hpass, hfree⟩ : stops r = false ∧ block blocked q r = false := by simpa using hstop
          obtain ⟨⟨l', x'⟩, he', he⟩ := List.mem_map.mp h
          cases he
          obtain ⟨hway, hx, hlen⟩ := ih.mp he'
          refine ⟨way_cons.mpr ⟨hr, hpass, hfree, hway⟩, ?_, Nat.succ_lt_succ hlen⟩
          rwa [List.getLastD_cons]
    · rintro ⟨hway, hx, hlen⟩
      cases l with
      | nil => exact ⟨x, hx, List.mem_cons_self⟩
      | cons r l =>
        obtain ⟨hr, hpass, hfree, hway⟩ := way_cons.mp hway
        rw [List.getLastD_cons] at hx
        refine ⟨r, hr, List.mem_cons_of_mem _ ?_⟩
        rw [if_neg (by simp [hpass, hfree])]
        exact List.mem_map_of_mem (f := fun e => (r :: e.1, e.2)) (ih.mpr ⟨hway, hx, Nat.lt_of_succ_lt_succ hlen⟩)

/-- It looks at none twice. -/
theorem nodup_trail (hsucc : ∀ q, (succ q).Nodup) (n : Nat) (blocked : α → Bool) (q : α) :
    (trail succ stops n blocked q).Nodup := by
  induction n generalizing blocked q with
  | zero => exact List.nodup_nil
  | succ n ih =>
    have hhead {r : α} {e : List α × α} (he : e ∈ ([], r) :: if stops r || block blocked q r then []
        else (trail succ stops n (block blocked q) r).map fun e => (r :: e.1, e.2)) : (e.1 ++ [e.2]).head? = some r := by
      rcases List.mem_cons.mp he with rfl | he
      · rfl
      · split_ifs at he
        · cases he
        · obtain ⟨e', -, rfl⟩ := List.mem_map.mp he
          rfl
    rw [trail, List.nodup_flatMap]
    refine ⟨fun r _ => List.nodup_cons.mpr ⟨fun hr => ?_, ?_⟩, (hsucc q).imp fun hne e he he' => hne ?_⟩
    · split_ifs at hr
      · cases hr
      · obtain ⟨e', -, he⟩ := List.mem_map.mp hr
        cases he
    · split_ifs
      · exact List.nodup_nil
      · refine (ih _ _).map fun e e' he => ?_
        obtain ⟨hl, hx⟩ := Prod.mk.inj he
        exact Prod.ext (List.tail_eq_of_cons_eq hl) hx
    · exact Option.some.inj ((hhead he).symm.trans (hhead he'))

end LtlFuzzer.Foundation.SimplePaths
