import LtlFuzzer.Automata.Graph
import Mathlib.Data.Finset.Card

/-! The guard tests of an edge iterator. Each runs a callback over the BDD paths
and reads a file-scope result that every callback overwrites. -/
namespace LtlFuzzer.Automata
open Foundation

/-- The array handed to a bdd_allsat callback: 0 or 1 on the path, -1 off it. -/
def profile (size : Nat) (p : List (Nat × Bool)) : List Int :=
  (List.range size).map fun v => match p.lookup v with
    | none => -1
    | some false => 0
    | some true => 1

/-- One callback per path to one, low branch first. -/
def bddAllsat {σ : Type} (size : Nat) (r : Bdd Nat) (handler : σ → List Int → σ) (s : σ) : σ :=
  (r.paths.map (profile size)).foldl handler s

/-- The file-scope result cells. -/
structure Statics where
  checkCondRes : Bool := false
  isTrueCondRes : Bool := false
  checkCondEvents : Std.TreeSet Nat := ∅

/-- What is_true_cond_helper stores. -/
def isTrueCondHelper (cond : List Int) : Bool := cond.all (· < 0)

/-- The loop over the events; none is the early return on a negative literal. -/
def countMatches (cond : List Int) : List Nat → Nat → Option Nat
  | [], nMatch => some nMatch
  | index :: rest, nMatch =>
    if cond[index]? = some 0 then none
    else countMatches cond rest (if cond[index]? = some 1 then nMatch + 1 else nMatch)

/-- What check_cond_helper stores. -/
def checkCondHelper (events : Std.TreeSet Nat) (cond : List Int) : Bool :=
  match countMatches cond events.toList 0 with
  | none => false
  | some nMatch => nMatch == cond.count 1

def isTrueCond (size : Nat) (cond : Robdd Nat) (st : Statics) : Bool × Statics :=
  let st := bddAllsat size cond.diagram (fun st c => { st with isTrueCondRes := isTrueCondHelper c }) st
  (st.isTrueCondRes, st)

def eventIndices (d : Dict) (events : StrSet) : Std.TreeSet Nat :=
  events.toList.foldl (fun s e => match d.varOf e with | some i => s.insert i | none => s) ∅

def checkCond (size : Nat) (d : Dict) (cond : Robdd Nat) (events : StrSet) (st : Statics) :
    Bool × Statics :=
  let st := { st with checkCondEvents := eventIndices d events }
  let st := bddAllsat size cond.diagram
    (fun st c => { st with checkCondRes := checkCondHelper st.checkCondEvents c }) st
  (st.checkCondRes, st)

private theorem profile_get {size : Nat} (p : List (Nat × Bool)) {v : Nat} (hv : v < size) :
    (profile size p)[v]? = some (match p.lookup v with | none => -1 | some false => 0 | some true => 1) := by
  simp [profile, hv]

private theorem profile_get_literal {size : Nat} {p : List (Nat × Bool)} {v : Nat} (c : Bool) :
    (profile size p)[v]? = some (if c then 1 else 0) ↔ v < size ∧ p.lookup v = some c := by
  by_cases hv : v < size
  · rw [profile_get p hv]
    cases hl : p.lookup v with
    | none => cases c <;> simp
    | some b => cases b <;> cases c <;> simp [hv]
  · simp [profile, hv]

theorem profile_get_zero {size : Nat} {p : List (Nat × Bool)} {v : Nat} :
    (profile size p)[v]? = some 0 ↔ v < size ∧ p.lookup v = some false := profile_get_literal false

theorem profile_get_one {size : Nat} {p : List (Nat × Bool)} {v : Nat} :
    (profile size p)[v]? = some 1 ↔ v < size ∧ p.lookup v = some true := profile_get_literal true

/-- The TRUE callback accepts exactly the path without literals. -/
theorem isTrueCondHelper_profile {size : Nat} {p : List (Nat × Bool)} (hp : ∀ t ∈ p, t.1 < size) :
    isTrueCondHelper (profile size p) = true ↔ p = [] := by
  constructor
  · intro h
    by_contra hne
    obtain ⟨t, l, rfl⟩ := List.exists_cons_of_ne_nil hne
    have hc := List.all_eq_true.mp h
    have hm : (match t.2 with | false => (0 : Int) | true => 1) ∈ profile size (t :: l) := by
      refine List.mem_map.mpr ⟨t.1, by simpa using hp t (by simp), ?_⟩
      obtain ⟨v, b⟩ := t
      cases b <;> simp
    have := hc _ hm
    cases hb : t.2 <;> simp [hb] at this
  · rintro rfl
    simp [isTrueCondHelper, profile]

private theorem countMatches_eq (cond : List Int) (is : List Nat) (n : Nat) :
    countMatches cond is n = if ∃ i ∈ is, cond[i]? = some 0 then none
      else some (n + is.countP (fun i => cond[i]? = some 1)) := by
  induction is generalizing n with
  | nil => simp [countMatches]
  | cons i is ih =>
    unfold countMatches
    by_cases h0 : cond[i]? = some 0
    · simp [h0]
    · rw [if_neg h0, ih]
      by_cases h1 : cond[i]? = some 1
      · simp [h1, Nat.add_assoc, Nat.add_comm]
      · simp [h0, h1]

private theorem countP_eq_iff {l m : List Nat} (hl : l.Nodup) (hm : m.Nodup) (P : Nat → Bool)
    (hsub : ∀ v ∈ l, P v = true → v ∈ m) :
    l.countP P = m.countP P ↔ ∀ v ∈ m, P v = true → v ∈ l := by
  have hs : l.filter P ⊆ m.filter P := fun v hv => by
    obtain ⟨hv, hp⟩ := List.mem_filter.mp hv
    exact List.mem_filter.mpr ⟨hsub v hv hp, hp⟩
  rw [List.countP_eq_length_filter, List.countP_eq_length_filter]
  constructor
  · intro he v hv hp
    have hperm := ((hl.filter P).subperm hs).perm_of_length_le he.ge
    exact (List.mem_filter.mp (hperm.mem_iff.mpr (List.mem_filter.mpr ⟨hv, hp⟩))).1
  · intro h
    refine List.Perm.length_eq ((List.perm_ext_iff_of_nodup (hl.filter P) (hm.filter P)).mpr fun v => ?_)
    exact ⟨fun hv => hs hv, fun hv => List.mem_filter.mpr
      ⟨h v (List.mem_filter.mp hv).1 (List.mem_filter.mp hv).2, (List.mem_filter.mp hv).2⟩⟩

private theorem count_profile (size : Nat) (p : List (Nat × Bool)) :
    (profile size p).count 1 = (List.range size).countP (fun v => p.lookup v = some true) := by
  rw [profile, List.count, List.countP_map]
  congr 1
  funext v
  cases hl : p.lookup v with
  | none => simp [hl]
  | some b => cases b <;> simp [hl]

private theorem toList_nodup (s : Std.TreeSet Nat) : s.toList.Nodup := by
  refine List.Pairwise.imp ?_ s.ordered_toList
  intro a b h he
  subst he
  simp at h

/-- As many events are raised in the profile as it has ones, exactly when every positive literal is an event. -/
private theorem countP_profile_eq_iff {size : Nat} {p : List (Nat × Bool)} (hn : (p.map Prod.fst).Nodup)
    (hp : ∀ t ∈ p, t.1 < size) (events : Std.TreeSet Nat) :
    (events.toList.countP fun i => (profile size p)[i]? = some 1) = (profile size p).count 1 ↔
      ∀ v, (v, true) ∈ p → v ∈ events := by
  have hcount : (events.toList.countP fun i => (profile size p)[i]? = some 1) =
      (events.toList.filter (· < size)).countP fun v => p.lookup v = some true := by
    rw [List.countP_filter]
    congr 1
    funext v
    simp [profile_get_one, Bool.and_comm]
  rw [hcount, count_profile, countP_eq_iff ((toList_nodup events).filter _) List.nodup_range _
    (by intro v hv _; simpa using (List.mem_filter.mp hv).2)]
  constructor
  · intro h v hv
    have := h v (by simpa using hp _ hv) (by simpa using (lookup_eq_some_iff_mem hn).mpr hv)
    exact Std.TreeSet.mem_toList.mp (List.mem_filter.mp this).1
  · intro h v hv hl
    have hm := (lookup_eq_some_iff_mem hn).mp (by simpa using hl)
    exact List.mem_filter.mpr ⟨Std.TreeSet.mem_toList.mpr (h v hm), by simpa using hv⟩

/-- One callback decides its path: the early return covers the negative literals,
the two counts the positive ones. -/
theorem checkCondHelper_profile {size : Nat} {p : List (Nat × Bool)} (hn : (p.map Prod.fst).Nodup)
    (hp : ∀ t ∈ p, t.1 < size) (events : Std.TreeSet Nat) :
    checkCondHelper events (profile size p) = true ↔ Bdd.Agrees (fun v => decide (v ∈ events)) p := by
  rw [checkCondHelper, countMatches_eq]
  by_cases h0 : ∃ i ∈ events.toList, (profile size p)[i]? = some 0
  · obtain ⟨i, hi, hz⟩ := h0
    have hmem := (lookup_eq_some_iff_mem hn).mp (profile_get_zero.mp hz).2
    rw [if_pos ⟨i, hi, hz⟩]
    refine iff_of_false (by simp) fun h => ?_
    have := h _ hmem
    simp [Std.TreeSet.mem_toList.mp hi] at this
  · rw [if_neg h0]
    simp only [Nat.zero_add, beq_iff_eq, countP_profile_eq_iff hn hp]
    constructor
    · rintro h ⟨v, b⟩ ht
      cases b with
      | true => simpa using h v ht
      | false =>
        refine decide_eq_false fun hv => h0 ⟨v, Std.TreeSet.mem_toList.mpr hv, ?_⟩
        exact profile_get_zero.mpr ⟨hp _ ht, (lookup_eq_some_iff_mem hn).mpr ht⟩
    · intro h v hv
      simpa using h _ hv

private theorem foldl_isTrueCond (l : List (List Int)) (st : Statics) :
    (l.foldl (fun st c => { st with isTrueCondRes := isTrueCondHelper c }) st).isTrueCondRes =
      match l.getLast? with | none => st.isTrueCondRes | some c => isTrueCondHelper c := by
  induction l using List.reverseRecOn with
  | nil => rfl
  | append_singleton l c _ => simp

private theorem foldl_checkCond (l : List (List Int)) (st : Statics) :
    (l.foldl (fun st c => { st with checkCondRes := checkCondHelper st.checkCondEvents c }) st).checkCondEvents =
      st.checkCondEvents ∧
    (l.foldl (fun st c => { st with checkCondRes := checkCondHelper st.checkCondEvents c }) st).checkCondRes =
      match l.getLast? with | none => st.checkCondRes | some c => checkCondHelper st.checkCondEvents c := by
  induction l using List.reverseRecOn with
  | nil => exact ⟨rfl, rfl⟩
  | append_singleton l c ih =>
    rw [List.foldl_append]
    exact ⟨ih.1, by simp [ih.1]⟩

/-- The path whose callback runs last decides what a test reads. -/
def lastPath (g : Robdd Nat) : Option (List (Nat × Bool)) := g.diagram.paths.getLast?

theorem exists_lastPath {g : Robdd Nat} (h : g.diagram ≠ .zero) : ∃ p, lastPath g = some p :=
  ⟨_, List.getLast?_eq_getLast_of_ne_nil (g.paths_ne_nil h)⟩

theorem mem_paths_of_lastPath {g : Robdd Nat} {p : List (Nat × Bool)} (h : lastPath g = some p) :
    p ∈ g.diagram.paths := List.mem_of_getLast? h

theorem isTrueCond_fst (size : Nat) (g : Robdd Nat) (st : Statics) :
    (isTrueCond size g st).1 = match lastPath g with
      | none => st.isTrueCondRes
      | some p => isTrueCondHelper (profile size p) := by
  rw [isTrueCond, bddAllsat, lastPath]
  simp only [foldl_isTrueCond, List.getLast?_map]
  cases g.diagram.paths.getLast? <;> rfl

/-- The last path of a guard other than false is without literals only for the leaf one. -/
theorem isTrueCond_iff_one {size : Nat} {g : Robdd Nat} (h0 : g.diagram ≠ .zero) (hsize : ∀ v ∈ g.diagram.vars, v < size)
    (st : Statics) : (isTrueCond size g st).1 = true ↔ g.diagram = .one := by
  obtain ⟨p, hp⟩ := exists_lastPath h0
  have hm := mem_paths_of_lastPath hp
  rw [isTrueCond_fst, hp]
  refine (isTrueCondHelper_profile fun t ht => hsize _ (Bdd.mem_vars_of_path hm ht)).trans ?_
  constructor
  · rintro rfl
    exact (Bdd.nil_mem_paths_iff _).mp hm
  · intro h1
    simpa [h1, Bdd.paths] using hm

/-- The TRUE test is right about every guard other than false, whatever a test before it left. -/
theorem is_true_cond_exact {size : Nat} {g : Robdd Nat} (h0 : g.diagram ≠ .zero) (hsize : ∀ v ∈ g.diagram.vars, v < size)
    (st : Statics) : (isTrueCond size g st).1 = true ↔ ∀ ν, g.diagram.eval ν = true := by
  rw [isTrueCond_iff_one h0 hsize, g.eq_one_iff]

theorem is_true_cond_exact_one :
    (isTrueCond 1 (.negVar 0) { isTrueCondRes := true }).1 = true ↔ ∀ ν, (Robdd.negVar 0).diagram.eval ν = true :=
  is_true_cond_exact (by decide) (by decide) { isTrueCondRes := true }

theorem checkCond_fst (size : Nat) (d : Dict) (g : Robdd Nat) (events : StrSet) (st : Statics) :
    (checkCond size d g events st).1 = match lastPath g with
      | none => st.checkCondRes
      | some p => checkCondHelper (eventIndices d events) (profile size p) := by
  rw [checkCond, bddAllsat, lastPath]
  simp only [(foldl_checkCond _ _).2, List.getLast?_map]
  cases g.diagram.paths.getLast? <;> rfl

theorem mem_eventIndices {d : Dict} {events : StrSet} {v : Nat} :
    v ∈ eventIndices d events ↔ ∃ a ∈ events, (a, v) ∈ d.varMap := by
  have key (l : List Str) (s : Std.TreeSet Nat) :
      v ∈ l.foldl (fun s e => match d.varOf e with | some i => s.insert i | none => s) s ↔
        v ∈ s ∨ ∃ a ∈ l, (a, v) ∈ d.varMap := by
    induction l generalizing s with
    | nil => simp
    | cons e l ih =>
      rw [List.foldl_cons, ih]
      cases hv : d.varOf e with
      | none =>
        have hne : (e, v) ∉ d.varMap := fun h => by simp [Dict.varOf_eq_some.mpr h] at hv
        simp [hne]
      | some i =>
        have he : (e, v) ∈ d.varMap ↔ i = v := by
          rw [← Dict.varOf_eq_some, hv, Option.some_inj]
        simp [Std.TreeSet.mem_insert, he, or_assoc, or_left_comm]
  simp [eventIndices, key, Std.TreeSet.mem_toList]

/-- On registered variables the index set is the valuation that makes the events true. -/
theorem agrees_eventIndices {d : Dict} {events : StrSet} {p : List (Nat × Bool)}
    (hp : ∀ t ∈ p, t.1 ∈ d.varMap.map Prod.snd) :
    Bdd.Agrees (fun v => decide (v ∈ eventIndices d events)) p ↔
      Bdd.Agrees (d.valuation fun a => decide (a ∈ events)) p := by
  have heq : ∀ t ∈ p, (decide (t.1 ∈ eventIndices d events)) = d.valuation (fun a => decide (a ∈ events)) t.1 := by
    intro t ht
    obtain ⟨⟨a, v⟩, hm, hv⟩ := List.mem_map.mp (hp t ht)
    rw [← hv, Dict.valuation_of_mem hm, decide_eq_decide, mem_eventIndices]
    constructor
    · rintro ⟨b, hb, hbv⟩
      exact Dict.name_unique hbv hm ▸ hb
    · exact fun ha => ⟨a, ha, hm⟩
  exact forall₂_congr fun t ht => by simp only [heq t ht]

namespace TwaGraph
variable {A : TwaGraph} {q : Fin A.numStates} {t : Edge A.numStates}

theorem path_registered (ht : t ∈ A.out q) {p : List (Nat × Bool)} (hp : p ∈ t.cond.diagram.paths) :
    ∀ l ∈ p, l.1 ∈ A.dict.varMap.map Prod.snd :=
  fun _ hl => A.registered q t ht _ (Bdd.mem_vars_of_path hp hl)

theorem path_allocated (ht : t ∈ A.out q) {p : List (Nat × Bool)} (hp : p ∈ t.cond.diagram.paths) :
    ∀ l ∈ p, l.1 < A.bddvarnum :=
  fun l hl => A.allocated _ (path_registered ht hp l hl)

/-- The last cube of a guard holds under a valuation of the propositions. -/
def LastCubeSat (A : TwaGraph) (g : Robdd Nat) (ν : Str → Bool) : Prop :=
  ∃ p ∈ lastPath g, Bdd.Agrees (A.dict.valuation ν) p

instance (A : TwaGraph) (g : Robdd Nat) (ν : Str → Bool) : Decidable (A.LastCubeSat g ν) :=
  match h : lastPath g with
  | none => isFalse (by simp [LastCubeSat, h])
  | some p => decidable_of_iff (Bdd.Agrees (A.dict.valuation ν) p) (by simp [LastCubeSat, h])

theorem LastCubeSat.sat {g : Robdd Nat} {ν : Str → Bool} (h : A.LastCubeSat g ν) : A.Sat g ν :=
  let ⟨_, hp, ha⟩ := h
  Bdd.eval_of_path (mem_paths_of_lastPath hp) ha

/-- On a guard other than false the TRUE test is exact. -/
theorem isTrueCond_iff (ht : t ∈ A.out q) (h0 : t.cond.diagram ≠ .zero) (st : Statics) :
    (isTrueCond A.bddvarnum t.cond st).1 = true ↔ t.cond.diagram = .one :=
  isTrueCond_iff_one h0 (fun v hv => A.allocated v (A.registered q t ht v hv)) st

/-- On a guard other than false the event test reads its last cube. -/
theorem checkCond_iff (ht : t ∈ A.out q) (h0 : t.cond.diagram ≠ .zero) (events : StrSet)
    (st : Statics) :
    (checkCond A.bddvarnum A.dict t.cond events st).1 = true ↔
      A.LastCubeSat t.cond fun a => decide (a ∈ events) := by
  obtain ⟨p, hp⟩ := exists_lastPath h0
  have hm := mem_paths_of_lastPath hp
  rw [checkCond_fst, hp]
  refine (checkCondHelper_profile (t.cond.path_vars_nodup hm) (path_allocated ht hm) _).trans ?_
  rw [agrees_eventIndices (path_registered ht hm)]
  simp [LastCubeSat, hp]

end TwaGraph
end LtlFuzzer.Automata
