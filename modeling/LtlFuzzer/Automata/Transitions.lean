import LtlFuzzer.Automata.ModelChecker

/-! The transition table of a state: destinations with their guards as cubes of names. -/
namespace LtlFuzzer.Automata
open Foundation

/-- The literals that get_cond_helper pushes for one path. -/
def getCondHelper (cond : List Int) : List (Nat × Bool) :=
  cond.zipIdx.filterMap fun (c, i) =>
    if c = 0 then some (i, false) else if c = 1 then some (i, true) else none

/-- A literal's text: the name, after an exclamation mark when negated. -/
def literalText (bddMap : Dict) (t : Nat × Bool) : Str :=
  let name := (bddMap.nameOf t.1).getD []
  if t.2 then name else '!' :: name

/-- The cubes of a guard as sets of literal texts. The file-scope list they pass
through is cleared first. -/
def getCond (size : Nat) (bddMap : Dict) (cond : Robdd Nat) : List (StrSet) :=
  (bddAllsat size cond.diagram (fun acc c => acc ++ [getCondHelper c]) []).map fun sat =>
    Std.TreeSet.ofList (sat.map (literalText bddMap))

abbrev Transitions := List (List (StrSet) × Int)

namespace TwaGraph

def getStateTransitions (A : TwaGraph) (q : Fin A.numStates) : Transitions :=
  (A.out q).map fun t => (getCond A.bddvarnum A.dict t.cond, (t.dst.val : Int))

/-- The state with a given number. -/
def stateFromNumber (A : TwaGraph) (n : Int) : Option (Fin A.numStates) :=
  if h : 0 ≤ n ∧ n < A.numStates then some ⟨n.toNat, by omega⟩ else none

@[simp] theorem stateFromNumber_val (A : TwaGraph) (q : Fin A.numStates) :
    A.stateFromNumber (q.val : Int) = some q := by
  unfold stateFromNumber
  rw [dif_pos ⟨by omega, by have := q.isLt; omega⟩]
  rfl

end TwaGraph

/-- The callbacks collect the literals path by path. -/
theorem bddAllsat_getCondHelper (size : Nat) (r : Bdd Nat) :
    bddAllsat size r (fun acc c => acc ++ [getCondHelper c]) [] =
      r.paths.map fun p => getCondHelper (profile size p) := by
  have key (l : List (List Int)) (ls : List (List (Nat × Bool))) :
      l.foldl (fun acc c => acc ++ [getCondHelper c]) ls = ls ++ l.map getCondHelper := by
    induction l generalizing ls with
    | nil => simp
    | cons c l ih => simp [ih]
  rw [bddAllsat, key, List.nil_append, List.map_map]
  rfl

theorem getCond_eq (size : Nat) (d : Dict) (g : Robdd Nat) :
    getCond size d g = g.diagram.paths.map fun p =>
      Std.TreeSet.ofList ((getCondHelper (profile size p)).map (literalText d)) := by
  rw [getCond, bddAllsat_getCondHelper, List.map_map]
  rfl

/-- On its path a variable is written once, so the array gives the literals back. -/
theorem mem_getCondHelper {size : Nat} {p : List (Nat × Bool)} (hn : (p.map Prod.fst).Nodup)
    (hp : ∀ t ∈ p, t.1 < size) {l : Nat × Bool} : l ∈ getCondHelper (profile size p) ↔ l ∈ p := by
  obtain ⟨v, b⟩ := l
  simp only [getCondHelper, List.mem_filterMap, Prod.exists, List.mem_zipIdx_iff_getElem?]
  constructor
  · rintro ⟨c, i, hi, he⟩
    split_ifs at he with h0 h1
    · cases he
      subst h0
      exact (lookup_eq_some_iff_mem hn).mp (profile_get_zero.mp hi).2
    · cases he
      subst h1
      exact (lookup_eq_some_iff_mem hn).mp (profile_get_one.mp hi).2
  · intro h
    have hl := (lookup_eq_some_iff_mem hn).mpr h
    cases b with
    | false => exact ⟨0, v, profile_get_zero.mpr ⟨hp _ h, hl⟩, by simp⟩
    | true => exact ⟨1, v, profile_get_one.mpr ⟨hp _ h, hl⟩, by simp⟩

namespace TwaGraph
variable {A : TwaGraph} {q : Fin A.numStates} {t : Edge A.numStates}

/-- The set made of a path holds the texts of its literals. -/
theorem mem_pathTexts (ht : t ∈ A.out q) {p : List (Nat × Bool)} (hp : p ∈ t.cond.diagram.paths) (x : Str) :
    x ∈ Std.TreeSet.ofList ((getCondHelper (profile A.bddvarnum p)).map (literalText A.dict)) ↔
      ∃ l ∈ p, literalText A.dict l = x := by
  simp [mem_getCondHelper (t.cond.path_vars_nodup hp) (path_allocated ht hp)]

/-- A cube of an edge's guard holds the texts of one path's literals. -/
theorem mem_getCond (ht : t ∈ A.out q) {c : StrSet} (hc : c ∈ getCond A.bddvarnum A.dict t.cond) :
    ∃ p ∈ t.cond.diagram.paths, ∀ x, x ∈ c ↔ ∃ l ∈ p, literalText A.dict l = x := by
  rw [getCond_eq, List.mem_map] at hc
  obtain ⟨p, hp, rfl⟩ := hc
  exact ⟨p, hp, mem_pathTexts ht hp⟩

/-- A literal on a path has a registered name, which its text shows. -/
theorem exists_name_of_mem (ht : t ∈ A.out q) {p : List (Nat × Bool)} (hp : p ∈ t.cond.diagram.paths)
    {v : Nat} {value : Bool} (hl : (v, value) ∈ p) :
    ∃ a, (a, v) ∈ A.dict.varMap ∧ literalText A.dict (v, value) = if value then a else '!' :: a := by
  obtain ⟨⟨a, w⟩, hm, hv⟩ := List.mem_map.mp (path_registered ht hp _ hl)
  have hv : w = v := hv
  subst hv
  exact ⟨a, hm, by simp [literalText, Dict.nameOf_eq_some.mpr hm]⟩

theorem getCond_ne_nil {size : Nat} {d : Dict} {g : Robdd Nat} (h : g.diagram ≠ .zero) :
    getCond size d g ≠ [] := by
  rw [getCond_eq]
  exact mt List.map_eq_nil_iff.mp (g.paths_ne_nil h)

/-- No proposition is spelled like a negated literal. -/
def PlainNames (A : TwaGraph) : Prop := ∀ a ∈ A.dict.varMap.map Prod.fst, a.head? ≠ some '!'

end TwaGraph

end LtlFuzzer.Automata
