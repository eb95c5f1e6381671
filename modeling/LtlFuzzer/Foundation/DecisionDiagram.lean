import Mathlib.Data.List.Basic
import Mathlib.Data.List.Nodup
import Mathlib.Data.List.Pairwise

/-! Binary decision diagrams, unfolded to trees, and their paths to the leaf one. -/
namespace LtlFuzzer.Foundation

inductive Bdd (α : Type) where
  | zero : Bdd α
  | one : Bdd α
  | node (v : α) (low high : Bdd α) : Bdd α
  deriving DecidableEq, Repr

namespace Bdd
variable {α : Type}

def eval (ν : α → Bool) : Bdd α → Bool
  | .zero => false
  | .one => true
  | .node v low high => if ν v then high.eval ν else low.eval ν

/-- The branches taken on each path to one, low branches first. -/
def paths : Bdd α → List (List (α × Bool))
  | .zero => []
  | .one => [[]]
  | .node v low high => low.paths.map ((v, false) :: ·) ++ high.paths.map ((v, true) :: ·)

def vars : Bdd α → List α
  | .zero => []
  | .one => []
  | .node v low high => v :: (low.vars ++ high.vars)

/-- Levels grow strictly along every branch, starting from a bound. -/
def OrderedFrom (level : α → Nat) : Nat → Bdd α → Prop
  | _, .zero => True
  | _, .one => True
  | n, .node v low high => n ≤ level v ∧ OrderedFrom level (level v + 1) low ∧
      OrderedFrom level (level v + 1) high

/-- No node has two equal branches. -/
def Reduced : Bdd α → Prop
  | .zero => True
  | .one => True
  | .node _ low high => low ≠ high ∧ low.Reduced ∧ high.Reduced

/-- A valuation takes the recorded branch at every test of the path. -/
def Agrees (ν : α → Bool) (p : List (α × Bool)) : Prop := ∀ t ∈ p, ν t.1 = t.2

instance (ν : α → Bool) (p : List (α × Bool)) : Decidable (Agrees ν p) :=
  inferInstanceAs (Decidable (∀ t ∈ p, ν t.1 = t.2))

@[simp] theorem agrees_nil (ν : α → Bool) : Agrees ν [] := by simp [Agrees]

@[simp] theorem agrees_cons (ν : α → Bool) (t : α × Bool) (p : List (α × Bool)) :
    Agrees ν (t :: p) ↔ ν t.1 = t.2 ∧ Agrees ν p := by
  simp [Agrees]

/-- The diagram is the disjunction of its paths; no order on variables is needed. -/
theorem eval_iff_exists_path (ν : α → Bool) (d : Bdd α) :
    d.eval ν = true ↔ ∃ p ∈ d.paths, Agrees ν p := by
  induction d with
  | zero => simp [eval, paths]
  | one => simp [eval, paths]
  | node v low high ihl ihh =>
    cases hv : ν v with
    | false => simp [eval, paths, hv, ihl, or_and_right, exists_or]
    | true => simp [eval, paths, hv, ihh, or_and_right, exists_or]

theorem eval_of_path {ν : α → Bool} {d : Bdd α} {p : List (α × Bool)} (hp : p ∈ d.paths)
    (h : Agrees ν p) : d.eval ν = true :=
  (eval_iff_exists_path ν d).mpr ⟨p, hp, h⟩

theorem nil_mem_paths_iff (d : Bdd α) : [] ∈ d.paths ↔ d = .one := by
  cases d <;> simp [paths]

theorem mem_vars_of_path {d : Bdd α} {p : List (α × Bool)} (hp : p ∈ d.paths)
    {t : α × Bool} (ht : t ∈ p) : t.1 ∈ d.vars := by
  induction d generalizing p with
  | zero => simp [paths] at hp
  | one => simp_all [paths]
  | node v low high ihl ihh =>
    simp only [paths, List.mem_append, List.mem_map] at hp
    rcases hp with ⟨q, hq, rfl⟩ | ⟨q, hq, rfl⟩
    · rcases List.mem_cons.mp ht with rfl | ht
      · simp [vars]
      · simp [vars, ihl hq ht]
    · rcases List.mem_cons.mp ht with rfl | ht
      · simp [vars]
      · simp [vars, ihh hq ht]

private theorem level_of_path {level : α → Nat} {n : Nat} {d : Bdd α} (h : OrderedFrom level n d)
    {p : List (α × Bool)} (hp : p ∈ d.paths) {t : α × Bool} (ht : t ∈ p) : n ≤ level t.1 := by
  induction d generalizing n p with
  | zero => simp [paths] at hp
  | one => simp_all [paths]
  | node v low high ihl ihh =>
    obtain ⟨hv, hl, hh⟩ := h
    simp only [paths, List.mem_append, List.mem_map] at hp
    rcases hp with ⟨q, hq, rfl⟩ | ⟨q, hq, rfl⟩
    · rcases List.mem_cons.mp ht with rfl | ht
      · exact hv
      · have := ihl hl hq ht
        omega
    · rcases List.mem_cons.mp ht with rfl | ht
      · exact hv
      · have := ihh hh hq ht
        omega

/-- An ordered diagram tests each variable at most once on a path. -/
theorem path_vars_nodup {level : α → Nat} {n : Nat} {d : Bdd α} (h : OrderedFrom level n d)
    {p : List (α × Bool)} (hp : p ∈ d.paths) : (p.map Prod.fst).Nodup := by
  induction d generalizing n p with
  | zero => simp [paths] at hp
  | one => simp_all [paths]
  | node v low high ihl ihh =>
    obtain ⟨_, hl, hh⟩ := h
    have fresh {d : Bdd α} (hd : OrderedFrom level (level v + 1) d) {q : List (α × Bool)}
        (hq : q ∈ d.paths) : v ∉ q.map Prod.fst := by
      intro hv
      obtain ⟨t, ht, rfl⟩ := List.mem_map.mp hv
      have := level_of_path hd hq ht
      omega
    simp only [paths, List.mem_append, List.mem_map] at hp
    rcases hp with ⟨q, hq, rfl⟩ | ⟨q, hq, rfl⟩
    · exact List.nodup_cons.mpr ⟨fresh hl hq, ihl hl hq⟩
    · exact List.nodup_cons.mpr ⟨fresh hh hq, ihh hh hq⟩

/-- A reduced diagram without a path to one is the leaf zero. -/
theorem paths_ne_nil {d : Bdd α} (hr : d.Reduced) (h : d ≠ .zero) : d.paths ≠ [] := by
  induction d with
  | zero => exact absurd rfl h
  | one => simp [paths]
  | node v low high ihl ihh =>
    obtain ⟨hne, hl, hh⟩ := hr
    intro hp
    simp only [paths, List.append_eq_nil_iff, List.map_eq_nil_iff] at hp
    by_cases hz : low = .zero
    · subst hz
      exact ihh hh (fun hz => hne hz.symm) hp.2
    · exact ihl hl hz hp.1

/-- Only the levels that the diagram starts from matter. -/
theorem eval_congr {level : α → Nat} {n : Nat} {d : Bdd α} (h : OrderedFrom level n d) {ν ν' : α → Bool}
    (hν : ∀ v, n ≤ level v → ν v = ν' v) : d.eval ν = d.eval ν' := by
  induction d generalizing n with
  | zero => rfl
  | one => rfl
  | node v low high ihl ihh =>
    obtain ⟨hv, hl, hh⟩ := h
    have hbelow : ∀ w, level v + 1 ≤ level w → ν w = ν' w := fun w hw => hν w (by omega)
    rw [eval, eval, hν v hv, ihl hl hbelow, ihh hh hbelow]

/-- A reduced ordered diagram that always holds is the leaf one. -/
theorem eq_one_of_eval {level : α → Nat} {n : Nat} {d : Bdd α} (ho : OrderedFrom level n d) (hr : d.Reduced)
    (h : ∀ ν, d.eval ν = true) : d = .one := by
  induction d generalizing n with
  | zero => cases h fun _ => false
  | one => rfl
  | node v low high ihl ihh =>
    obtain ⟨-, hl, hh⟩ := ho
    obtain ⟨hne, hrl, hrh⟩ := hr
    -- the branches test later variables only, so the test of v can be made to go either way
    have hsteer (b : Bool) (ν : α → Bool) : ∃ ν' : α → Bool, ν' v = b ∧ ∀ w, level v + 1 ≤ level w → ν' w = ν w :=
      ⟨fun w => if level w ≤ level v then b else ν w, if_pos (Nat.le_refl _), fun w hw => if_neg (by omega)⟩
    have hlow : low = .one := by
      apply ihl hl hrl
      intro ν
      obtain ⟨ν', hv, hsame⟩ := hsteer false ν
      rw [← eval_congr hl hsame, ← h ν', eval, hv, if_neg Bool.false_ne_true]
    have hhigh : high = .one := by
      apply ihh hh hrh
      intro ν
      obtain ⟨ν', hv, hsame⟩ := hsteer true ν
      rw [← eval_congr hh hsame, ← h ν', eval, hv, if_pos rfl]
    exact absurd (hlow.trans hhigh.symm) hne

/-- Two paths part at a test. -/
theorem paths_contradict (d : Bdd α) : d.paths.Pairwise fun p p' => ∃ v b, (v, b) ∈ p ∧ (v, !b) ∈ p' := by
  induction d with
  | zero => exact List.Pairwise.nil
  | one => simp [paths]
  | node v low high ihl ihh =>
    have hbranch {b : Bool} {ps : List (List (α × Bool))} (h : ps.Pairwise fun p p' => ∃ v b, (v, b) ∈ p ∧ (v, !b) ∈ p') :
        (ps.map ((v, b) :: ·)).Pairwise fun p p' => ∃ v b, (v, b) ∈ p ∧ (v, !b) ∈ p' := by
      rw [List.pairwise_map]
      refine h.imp ?_
      rintro p p' ⟨w, b', hp, hp'⟩
      exact ⟨w, b', List.mem_cons_of_mem _ hp, List.mem_cons_of_mem _ hp'⟩
    rw [paths, List.pairwise_append]
    refine ⟨hbranch ihl, hbranch ihh, ?_⟩
    intro p hp p' hp'
    obtain ⟨r, _, rfl⟩ := List.mem_map.mp hp
    obtain ⟨r', _, rfl⟩ := List.mem_map.mp hp'
    exact ⟨v, false, List.mem_cons_self, List.mem_cons_self⟩

/-- No valuation agrees with two of the paths. -/
theorem paths_disjoint (ν : α → Bool) (d : Bdd α) :
    d.paths.Pairwise fun p p' => Agrees ν p → ¬ Agrees ν p' := by
  apply (paths_contradict d).imp
  intro p p' hpart h h'
  obtain ⟨v, b, hp, hp'⟩ := hpart
  have hsame : b = !b := (h _ hp).symm.trans (h' _ hp')
  cases b <;> cases hsame

end Bdd

/-- Reduced ordered diagrams, each under some variable order. -/
structure Robdd (α : Type) where
  diagram : Bdd α
  ordered : ∃ level : α → Nat, diagram.OrderedFrom level 0
  reduced : diagram.Reduced

namespace Robdd
variable {α : Type}

def zero : Robdd α := ⟨.zero, ⟨fun _ => 0, trivial⟩, trivial⟩
def one : Robdd α := ⟨.one, ⟨fun _ => 0, trivial⟩, trivial⟩

/-- The diagram of a single variable. -/
def var (v : α) : Robdd α :=
  ⟨.node v .zero .one, ⟨fun _ => 0, by simp [Bdd.OrderedFrom]⟩, by simp [Bdd.Reduced]⟩

/-- The diagram of a negated variable. -/
def negVar (v : α) : Robdd α :=
  ⟨.node v .one .zero, ⟨fun _ => 0, by simp [Bdd.OrderedFrom]⟩, by simp [Bdd.Reduced]⟩

theorem path_vars_nodup (g : Robdd α) {p : List (α × Bool)} (hp : p ∈ g.diagram.paths) :
    (p.map Prod.fst).Nodup :=
  let ⟨_, h⟩ := g.ordered
  Bdd.path_vars_nodup h hp

/-- A path takes a variable one way only. -/
theorem literal_unique (g : Robdd α) {p : List (α × Bool)} (hp : p ∈ g.diagram.paths) {v : α} {b b' : Bool}
    (h : (v, b) ∈ p) (h' : (v, b') ∈ p) : b = b' :=
  congrArg Prod.snd (List.inj_on_of_nodup_map (g.path_vars_nodup hp) h h' rfl)

/-- Of the diagrams only the leaf one always holds. -/
theorem eq_one_iff (g : Robdd α) : g.diagram = .one ↔ ∀ ν, g.diagram.eval ν = true := by
  constructor
  · intro h ν
    rw [h]
    rfl
  · obtain ⟨level, ho⟩ := g.ordered
    exact Bdd.eq_one_of_eval ho g.reduced

theorem paths_ne_nil (g : Robdd α) (h : g.diagram ≠ .zero) : g.diagram.paths ≠ [] :=
  Bdd.paths_ne_nil g.reduced h

end Robdd
end LtlFuzzer.Foundation
