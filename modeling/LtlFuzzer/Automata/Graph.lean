import LtlFuzzer.Foundation.Association
import LtlFuzzer.Foundation.DecisionDiagram
import Mathlib.Computability.NFA
import Std.Data.TreeSet.Lemmas

/-! State-based Büchi graphs over named propositions, as the translator hands them out. -/
namespace LtlFuzzer
open Foundation

/-- A C++ string as its characters. -/
abbrev Str := List Char

/-- A set of strings in lexicographic order. -/
abbrev StrSet := Std.TreeSet Str

@[simp high] theorem mem_insert_iff {s : StrSet} {a x : Str} : x ∈ Std.TreeSet.insert s a ↔ a = x ∨ x ∈ s := by
  rw [Std.TreeSet.mem_insert, Std.LawfulEqCmp.compare_eq_iff_eq]

namespace Automata

/-- The registered propositions and their BDD variables, one for one. -/
structure Dict where
  varMap : List (Str × Nat)
  names_nodup : (varMap.map Prod.fst).Nodup := by decide
  vars_nodup : (varMap.map Prod.snd).Nodup := by decide

namespace Dict

def varOf (d : Dict) (a : Str) : Option Nat := d.varMap.lookup a
def nameOf (d : Dict) (v : Nat) : Option Str := (d.varMap.map Prod.swap).lookup v

/-- A valuation of propositions read on variables. -/
def valuation (d : Dict) (ν : Str → Bool) (v : Nat) : Bool :=
  match d.nameOf v with
  | some a => ν a
  | none => false

end Dict

def noNames : Dict := { varMap := [] }

structure Edge (n : Nat) where
  dst : Fin n
  cond : Robdd Nat

/-- Guards test registered variables only. State numbers fit the int that reports them. -/
structure TwaGraph where
  numStates : Nat
  initState : Fin numStates
  out : Fin numStates → List (Edge numStates)
  accepting : Fin numStates → Bool
  dict : Dict
  bddvarnum : Nat
  int_states : numStates ≤ 2 ^ 31 := by decide
  registered : ∀ q, ∀ t ∈ out q, ∀ v ∈ t.cond.diagram.vars, v ∈ dict.varMap.map Prod.snd := by decide
  allocated : ∀ v ∈ dict.varMap.map Prod.snd, v < bddvarnum := by decide

theorem stateNumber_range {A : TwaGraph} (q : Fin A.numStates) : -2 ^ 31 ≤ (q.val : Int) ∧ (q.val : Int) < 2 ^ 31 := by
  have := q.isLt
  have := A.int_states
  omega

/-- The valuation that makes one proposition true. -/
def exactly (e : Str) (a : Str) : Bool := a = e

namespace TwaGraph

/-- No edge is labelled by the BDD false. -/
def NonFalse (A : TwaGraph) : Prop := ∀ q, ∀ t ∈ A.out q, t.cond.diagram ≠ .zero

def Sat (A : TwaGraph) (cond : Robdd Nat) (ν : Str → Bool) : Prop :=
  cond.diagram.eval (A.dict.valuation ν) = true

instance (A : TwaGraph) (cond : Robdd Nat) (ν : Str → Bool) : Decidable (A.Sat cond ν) :=
  inferInstanceAs (Decidable (_ = true))

/-- The finite-word automaton that reads one event per step. -/
def nfa (A : TwaGraph) : NFA Str (Fin A.numStates) where
  step q e := {q' | ∃ t ∈ A.out q, t.dst = q' ∧ A.Sat t.cond (exactly e)}
  start := {A.initState}
  accept := {q | A.accepting q = true}

/-- Some path over the events ends in an accepting state. -/
def Accepts (A : TwaGraph) (q : Fin A.numStates) (es : List Str) : Prop :=
  es ∈ A.nfa.acceptsFrom {q}

theorem accepts_nil {A : TwaGraph} {q : Fin A.numStates} : A.Accepts q [] ↔ A.accepting q = true := by
  simp [Accepts, nfa]

theorem accepts_cons {A : TwaGraph} {q : Fin A.numStates} {e : Str} {es : List Str} :
    A.Accepts q (e :: es) ↔ ∃ q' ∈ A.nfa.step q e, A.Accepts q' es := by
  rw [Accepts, NFA.cons_mem_acceptsFrom, NFA.stepSet_singleton]
  simp only [Accepts, NFA.mem_acceptsFrom]
  constructor
  · rintro ⟨s, hs, h⟩
    obtain ⟨t, ht, hst⟩ := NFA.mem_evalFrom_iff_exists.mp h
    exact ⟨t, ht, s, hs, hst⟩
  · rintro ⟨t, ht, s, hs, h⟩
    exact ⟨s, hs, NFA.mem_evalFrom_iff_exists.mpr ⟨t, ht, h⟩⟩

/-- The states visited, one after each event. -/
def Visits (A : TwaGraph) : Fin A.numStates → List Str → List (Fin A.numStates) → Prop
  | _, [], [] => True
  | q, e :: es, s :: ss => s ∈ A.nfa.step q e ∧ A.Visits s es ss
  | _, _, _ => False

end TwaGraph

theorem Dict.nameOf_eq_some {d : Dict} {a : Str} {v : Nat} : d.nameOf v = some a ↔ (a, v) ∈ d.varMap := by
  have hn : ((d.varMap.map Prod.swap).map Prod.fst).Nodup := by
    rw [List.map_map, show Prod.fst ∘ Prod.swap = (Prod.snd : Str × Nat → Nat) from rfl]
    exact d.vars_nodup
  rw [Dict.nameOf, lookup_eq_some_iff_mem hn, List.mem_map]
  constructor
  · rintro ⟨⟨b, w⟩, hm, he⟩
    cases he
    exact hm
  · exact fun h => ⟨(a, v), h, rfl⟩

theorem Dict.varOf_eq_some {d : Dict} {a : Str} {v : Nat} : d.varOf a = some v ↔ (a, v) ∈ d.varMap :=
  lookup_eq_some_iff_mem d.names_nodup

theorem Dict.name_unique {d : Dict} {a a' : Str} {v : Nat} (h : (a, v) ∈ d.varMap) (h' : (a', v) ∈ d.varMap) : a = a' :=
  congrArg Prod.fst (List.inj_on_of_nodup_map d.vars_nodup h h' rfl)

theorem Dict.var_unique {d : Dict} {a : Str} {v v' : Nat} (h : (a, v) ∈ d.varMap) (h' : (a, v') ∈ d.varMap) : v = v' :=
  congrArg Prod.snd (List.inj_on_of_nodup_map d.names_nodup h h' rfl)

/-- On a registered variable, its name's value. -/
theorem Dict.valuation_of_mem {d : Dict} {a : Str} {v : Nat} (h : (a, v) ∈ d.varMap) (ν : Str → Bool) :
    d.valuation ν v = ν a := by
  simp [Dict.valuation, Dict.nameOf_eq_some.mpr h]

end Automata
end LtlFuzzer
