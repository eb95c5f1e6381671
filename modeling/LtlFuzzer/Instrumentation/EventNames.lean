import LtlFuzzer.Fuzzer.TargetsStore
import LtlFuzzer.Instrumentation.CodeBean

/-! The names of numbers, as the recorder and the fuzzer read them from one file. -/
namespace LtlFuzzer.Instrumentation
open Foundation Delimiters Numerals Fuzzer

/-- None is the exception for a text that is no number. -/
def CodeBean.loadEventReverseMap (b : CodeBean) (content : Str) : Option CodeBean :=
  (((getlines '\n' content).map readPair).foldlM (fun reverseMap e =>
    (stoi e.2).map fun key => reverseMap.insert key e.1) b.eventReverseMap).map fun reverseMap =>
      { b with eventReverseMap := reverseMap }

def Listed (content : Str) (n : Int) : Prop := ∃ line ∈ getlines '\n' content, stoi (readPair line).2 = some n

/-- The name on the last line with a number. -/
def lastName (content : Str) (n : Int) : Option Str :=
  (((getlines '\n' content).map readPair).reverse.find? fun e => stoi e.2 = some n).map Prod.fst

/-- The text after a name on its last line. -/
def lastText (content name : Str) : Option Str := ((getlines '\n' content).map readPair).reverse.lookup name

private theorem listed_iff {content : Str} {n : Int} : Listed content n ↔ ∃ name, lastName content n = some name := by
  rw [← Option.isSome_iff_exists, lastName, Option.isSome_map, List.find?_isSome]
  simp [Listed]

private theorem foldlM_entry (l : List (Str × Str)) {m : Std.TreeMap Int Str} (n : Int)
    (h : l.foldlM (fun reverseMap e => (stoi e.2).map fun key => reverseMap.insert key e.1) (∅ : Std.TreeMap Int Str) =
      some m) : m[n]? = (l.reverse.find? fun e => stoi e.2 = some n).map Prod.fst := by
  induction l using List.reverseRecOn generalizing m with
  | nil =>
    cases h
    exact Std.TreeMap.getElem?_emptyc
  | append_singleton l e ih =>
    rw [List.foldlM_append] at h
    obtain ⟨m₁, hl, hm⟩ := Option.bind_eq_some_iff.mp h
    rw [List.foldlM_cons] at hm
    obtain ⟨m₂, hkey, hm⟩ := Option.bind_eq_some_iff.mp hm
    obtain rfl : m₂ = m := Option.some.inj hm
    obtain ⟨key, hk, rfl⟩ := Option.map_eq_some_iff.mp hkey
    rw [List.reverse_append, List.reverse_singleton, List.singleton_append, List.find?_cons,
      Std.TreeMap.getElem?_insert, ih hl]
    by_cases h : key = n
    · simp [hk, h]
    · simp [hk, h]

/-- After loading, each number has the name on its last line. -/
private theorem load_entry {b b' : CodeBean} {content : Str} (hb : b.eventReverseMap = ∅)
    (hload : b.loadEventReverseMap content = some b') (n : Int) : b'.eventReverseMap[n]? = lastName content n := by
  obtain ⟨m, hm, rfl⟩ := Option.map_eq_some_iff.mp hload
  rw [hb] at hm
  exact foldlM_entry _ n hm

private theorem coding_eq_some {content name value : Str} :
    coding (loadEvents content) value = some name ↔
      lastText content name = some value ∧ ∀ name', compare name' name = .lt → lastText content name' ≠ some value := by
  rw [coding, find?_value_eq_some, loadEvents]
  simp only [getElem?_foldl_insert, lastText]

/-- A number has one name in both processes exactly when the name on its last line has, on
its own last line, that number in decimal, and no name before it in order has that. -/
theorem event_names_agree_iff {b b' : CodeBean} {content : Str} (hb : b.eventReverseMap = ∅)
    (hload : b.loadEventReverseMap content = some b') :
    (∀ n, Listed content n → ∀ i, coding (loadEvents content) (showInt n) = some (b'.eventText i n).tail) ↔
      ∀ n name, lastName content n = some name → lastText content name = some (showInt n) ∧
        ∀ name', compare name' name = .lt → lastText content name' ≠ some (showInt n) := by
  have hname (n : Int) (name : Str) (h : lastName content n = some name) (i : Nat) : (b'.eventText i n).tail = name := by
    rw [CodeBean.eventText, List.tail_cons, load_entry hb hload, h, Option.getD_some]
  constructor
  · intro h n name hlast
    have hcoding := h n (listed_iff.mpr ⟨name, hlast⟩) 0
    rw [hname n name hlast] at hcoding
    exact coding_eq_some.mp hcoding
  · intro h n hlisted i
    obtain ⟨name, hlast⟩ := listed_iff.mp hlisted
    rw [hname n name hlast]
    exact coding_eq_some.mpr (h n name hlast)

/-- Of two names for 2 the fuzzer takes the first in order, the recorder the last in the file. -/
theorem event_names_differ :
    ∃ b, ({} : CodeBean).loadEventReverseMap "A 2\nB 2\n".toList = some b ∧ Listed "A 2\nB 2\n".toList 2 ∧
      b.eventText 1 2 = "oB".toList ∧ coding (loadEvents "A 2\nB 2\n".toList) (showInt 2) = some ['A'] := by
  refine ⟨_, rfl, ⟨"A 2".toList, ?_, ?_⟩, ?_, ?_⟩
  · decide
  · decide
  · decide
  · decide

theorem event_names_agree_two :
    ∃ b, ({} : CodeBean).loadEventReverseMap "B 1\nA   2\n".toList = some b ∧
      ((∀ n, Listed "B 1\nA   2\n".toList n →
          ∀ i, coding (loadEvents "B 1\nA   2\n".toList) (showInt n) = some (b.eventText i n).tail) ↔
        ∀ n name, lastName "B 1\nA   2\n".toList n = some name →
          lastText "B 1\nA   2\n".toList name = some (showInt n) ∧
            ∀ name', compare name' name = .lt → lastText "B 1\nA   2\n".toList name' ≠ some (showInt n)) :=
  ⟨_, rfl, event_names_agree_iff rfl rfl⟩

end LtlFuzzer.Instrumentation
