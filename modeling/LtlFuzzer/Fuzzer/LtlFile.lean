import LtlFuzzer.Automata.Graph
import LtlFuzzer.Foundation.Delimiters
import LtlFuzzer.Foundation.Streams
import Mathlib.Data.List.SplitBy

/-! The formula and the exclusive events, handed to the instrumented program in a file. -/
namespace LtlFuzzer.Fuzzer
open Foundation Delimiters Streams

def loadAllEvents (content : Str) : StrSet :=
  (getlines '\n' content).foldl (fun allEvents line => allEvents.insert (nextToken [] line).1) ∅

def setToString (aSet : StrSet) : Str := (terminated [','] aSet.toList).dropLast

/-- The text that the fuzzer gives to the script between single quotes. -/
def ltlText (formula exclusiveEvents : Str) : Str := formula ++ [':'] ++ exclusiveEvents

/-- What the instrumented program takes from the file. Where there is no colon, find gives
npos: the formula is the whole text, and so is the text from npos + 1 on. -/
def ltlInputs (content : Str) : Str × Str :=
  if ':' ∈ content then (content.takeWhile (· ≠ ':'), (content.dropWhile (· ≠ ':')).tail)
  else (content, content)

/-- The pieces that set_formula parses as propositions. -/
def exclusiveTexts (exclusive : Str) : List Str := getlines ',' exclusive

/-- Text that a command can carry between single quotes. -/
def Quotable (t : Str) : Prop := '\'' ∉ t ∧ '\x00' ∉ t

instance (t : Str) : Decidable (Quotable t) := inferInstanceAs (Decidable (_ ∧ _))

/-- The event names of a file: the first words of its lines. -/
def IsName (file x : Str) : Prop := x ≠ [] ∧ ∃ line ∈ getlines '\n' file, (nextToken [] line).1 = x

/-- The inputs that the instrumented program takes from the file the script writes. -/
def evaluateInputs (script : Str → Str) (formula file : Str) : Str × Str :=
  ltlInputs (script (ltlText formula (setToString (loadAllEvents file))))

/-- Both processes give set_formula the same formula and the same list, and its pieces are the names. -/
structure HandsOver (script : Str → Str) (formula file : Str) : Prop where
  formula_eq : trimmed (evaluateInputs script formula file).1 = trimmed formula
  list_eq : trimmed (evaluateInputs script formula file).2 = trimmed (setToString (loadAllEvents file))
  own_names : ∀ x, x ∈ (exclusiveTexts (setToString (loadAllEvents file))).map trimmed ↔ IsName file x
  names : ∀ x, x ∈ (exclusiveTexts (evaluateInputs script formula file).2).map trimmed ↔ IsName file x

/-- A name that keeps its place between the delimiters. -/
def PlainName (x : Str) : Prop := x ≠ [] ∧ ',' ∉ x ∧ Quotable x

private theorem mem_loadAllEvents {file x : Str} :
    x ∈ loadAllEvents file ↔ ∃ line ∈ getlines '\n' file, (nextToken [] line).1 = x := by
  rw [loadAllEvents]
  induction getlines '\n' file using List.reverseRecOn with
  | nil => simp
  | append_singleton lines line ih => simp [ih, or_comm, or_and_right, exists_or]

private theorem not_isSpace_of_mem {file x : Str} (h : x ∈ loadAllEvents file) : ∀ c ∈ x, Numerals.isSpace c = false := by
  obtain ⟨line, -, rfl⟩ := mem_loadAllEvents.mp h
  exact fun c hc => not_isSpace_of_mem_nextToken hc

private theorem joined_concat (rs : List Str) (r : Str) :
    (terminated [','] (rs ++ [r])).dropLast = terminated [','] rs ++ r := by
  simp

private theorem mem_joined {rs : List Str} {x : Str} {c : Char} (hx : x ∈ rs) (hc : c ∈ x) :
    c ∈ (terminated [','] rs).dropLast := by
  obtain rfl | ⟨init, r, rfl⟩ := List.eq_nil_or_concat rs
  · cases hx
  · rw [List.concat_eq_append] at hx ⊢
    rw [joined_concat, List.mem_append]
    rcases List.mem_append.mp hx with hx | hx
    · exact .inl (List.mem_flatMap.mpr ⟨x, hx, List.mem_append_left _ hc⟩)
    · obtain rfl := List.mem_singleton.mp hx
      exact .inr hc

/-- The joined text has no characters of its own but the commas. -/
private theorem not_mem_joined {rs : List Str} {c : Char} (hc : c ≠ ',') (h : ∀ x ∈ rs, c ∉ x) :
    c ∉ (terminated [','] rs).dropLast := by
  intro hmem
  obtain ⟨x, hx, hin⟩ := List.mem_flatMap.mp (List.mem_of_mem_dropLast hmem)
  rcases List.mem_append.mp hin with hin | hin
  · exact h x hx hin
  · exact hc (List.mem_singleton.mp hin)

/-- Names have no blanks to trim. -/
private theorem map_trimmed_names {file : Str} {rs : List Str} (h : ∀ x ∈ rs, x ∈ loadAllEvents file) :
    rs.map trimmed = rs :=
  (List.map_congr_left fun x hx => trimmed_eq_self (not_isSpace_of_mem (h x hx))).trans (List.map_id rs)

/-- Joining the names and splitting the list gives them back. -/
private theorem exclusiveTexts_joined {rs : List Str} {r : Str} (hcomma : ∀ x ∈ rs ++ [r], ',' ∉ x) (hr : r ≠ []) :
    exclusiveTexts (terminated [','] rs ++ r) = rs ++ [r] := by
  have hsplit : (terminated [','] rs ++ r).splitOn ',' = rs ++ [r] := by
    rw [← joined_concat, splitOn_terminated (by simp) hcomma]
  rw [exclusiveTexts, getlines, hsplit, if_neg (by simp [hr])]

private theorem comma_not_mem {exclusive x : Str} (h : x ∈ (exclusiveTexts exclusive).map trimmed) : ',' ∉ x := by
  obtain ⟨piece, hp, rfl⟩ := List.mem_map.mp h
  exact fun hc => not_mem_of_mem_getlines hp (mem_of_mem_trimmed hc)

/-- The last piece ends with the script's newline, which trimming removes. -/
private theorem trimmed_exclusiveTexts {file : Str} (hcomma : ∀ x ∈ loadAllEvents file, ',' ∉ x) {rs : List Str} {r : Str}
    (hl : (loadAllEvents file).toList = rs ++ [r]) :
    (exclusiveTexts (setToString (loadAllEvents file) ++ ['\n'])).map trimmed = rs ++ [r] := by
  have hmem (x : Str) (hx : x ∈ rs ++ [r]) : x ∈ loadAllEvents file := Std.TreeSet.mem_toList.mp (hl ▸ hx)
  have hpieces : ∀ x ∈ rs ++ [r ++ ['\n']], ',' ∉ x := by
    intro x hx
    rcases List.mem_append.mp hx with hx | hx
    · exact hcomma x (hmem x (List.mem_append_left _ hx))
    · obtain rfl := List.mem_singleton.mp hx
      simpa using hcomma r (hmem r (by simp))
  have hnames := map_trimmed_names hmem
  rw [List.map_append, List.map_singleton] at hnames
  rw [setToString, hl, joined_concat, List.append_assoc, exclusiveTexts_joined hpieces (by simp), List.map_append,
    List.map_singleton, trimmed_concat r (by decide), hnames]

private theorem quotable_ltlText {formula list : Str} (hf : Quotable formula) :
    Quotable (ltlText formula list) ↔ Quotable list := by
  simp [Quotable, ltlText, hf.1, hf.2]

/-- What the file gives back, where the colon after the formula is its first. -/
private theorem evaluateInputs_eq {script : Str → Str} {formula file : Str}
    (hs : script (ltlText formula (setToString (loadAllEvents file))) =
      ltlText formula (setToString (loadAllEvents file)) ++ ['\n']) (hcolon : ':' ∉ formula) :
    evaluateInputs script formula file = (formula, setToString (loadAllEvents file) ++ ['\n']) := by
  have hf : ∀ c ∈ formula, decide (c ≠ ':') = true := fun c hc => decide_eq_true fun he => hcolon (he ▸ hc)
  rw [evaluateInputs, hs, ltlInputs, ltlText, if_pos (by simp)]
  simp only [List.append_assoc, List.takeWhile_append_of_pos hf, List.dropWhile_append_of_pos hf]
  simp

/-- Files whose lines begin with plain names are handed over. -/
private theorem handsOver_of_plain {script : Str → Str} {formula file : Str} (hf : Quotable formula)
    (hs : ∀ t, Quotable t → script t = t ++ ['\n']) (hcolon : ':' ∉ formula) (hlines : getlines '\n' file ≠ [])
    (hplain : ∀ line ∈ getlines '\n' file, PlainName (nextToken [] line).1) : HandsOver script formula file := by
  have hnames (x : Str) (hx : x ∈ loadAllEvents file) : PlainName x := by
    obtain ⟨line, hl, rfl⟩ := mem_loadAllEvents.mp hx
    exact hplain line hl
  have hne : (loadAllEvents file).toList ≠ [] := by
    obtain ⟨line, hl⟩ := List.exists_mem_of_ne_nil _ hlines
    exact List.ne_nil_of_mem (Std.TreeSet.mem_toList.mpr (mem_loadAllEvents.mpr ⟨line, hl, rfl⟩))
  have hisName (x : Str) : x ∈ (loadAllEvents file).toList ↔ IsName file x := by
    rw [Std.TreeSet.mem_toList]
    exact ⟨fun hx => ⟨(hnames x hx).1, mem_loadAllEvents.mp hx⟩, fun hx => mem_loadAllEvents.mpr hx.2⟩
  have hquote : Quotable (setToString (loadAllEvents file)) := by
    constructor
    · exact not_mem_joined (by decide) fun x hx => (hnames x (Std.TreeSet.mem_toList.mp hx)).2.2.1
    · exact not_mem_joined (by decide) fun x hx => (hnames x (Std.TreeSet.mem_toList.mp hx)).2.2.2
  have heval := evaluateInputs_eq (hs _ ((quotable_ltlText hf).mpr hquote)) hcolon
  obtain hnil | ⟨rs, r, hl⟩ := List.eq_nil_or_concat (loadAllEvents file).toList
  · exact absurd hnil hne
  · rw [List.concat_eq_append] at hl
    have hmem (x : Str) (hx : x ∈ rs ++ [r]) : x ∈ loadAllEvents file := Std.TreeSet.mem_toList.mp (hl ▸ hx)
    refine ⟨by rw [heval], by rw [heval, trimmed_concat _ (by decide)], fun x => ?_, fun x => ?_⟩
    · rw [setToString, hl, joined_concat, exclusiveTexts_joined (fun x hx => (hnames x (hmem x hx)).2.1)
        (hnames r (hmem r (by simp))).1, map_trimmed_names hmem, ← hisName, hl]
    · rw [heval, trimmed_exclusiveTexts (fun x hx => (hnames x hx).2.1) hl, ← hisName, hl]

/-- A script that writes nothing for text that quotes cannot carry. -/
private def strictScript (t : Str) : Str := if Quotable t then t ++ ['\n'] else []

/-- Where nothing is written the list would have to be blank. -/
private theorem quotable_of_handsOver {formula file : Str} (hf : Quotable formula)
    (h : HandsOver strictScript formula file) : Quotable (setToString (loadAllEvents file)) := by
  by_contra hq
  have hempty : evaluateInputs strictScript formula file = ([], []) := by
    rw [evaluateInputs, strictScript, if_neg (fun hc => hq ((quotable_ltlText hf).mp hc))]
    rfl
  have hlist := h.list_eq
  rw [hempty] at hlist
  have hnone (c : Char) (hc : Numerals.isSpace c = false) : c ∉ setToString (loadAllEvents file) := by
    rw [← mem_trimmed_iff hc, ← hlist]
    exact List.not_mem_nil
  exact hq ⟨hnone _ (by decide), hnone _ (by decide)⟩

private theorem plain_of_handsOver {formula file : Str} (hf : Quotable formula)
    (h : HandsOver strictScript formula file) :
    ':' ∉ formula ∧ getlines '\n' file ≠ [] ∧ ∀ line ∈ getlines '\n' file, PlainName (nextToken [] line).1 := by
  have hquote := quotable_of_handsOver hf h
  have hscript : strictScript (ltlText formula (setToString (loadAllEvents file))) =
      ltlText formula (setToString (loadAllEvents file)) ++ ['\n'] := if_pos ((quotable_ltlText hf).mpr hquote)
  have hcolon : ':' ∉ formula := by
    rw [← mem_trimmed_iff (by decide), ← h.formula_eq, evaluateInputs, hscript, ltlInputs, if_pos (by simp [ltlText])]
    intro hc
    simpa using List.mem_takeWhile_imp (mem_of_mem_trimmed hc)
  have heval := evaluateInputs_eq hscript hcolon
  have hcomma : ∀ x ∈ loadAllEvents file, ',' ∉ x := by
    intro x hx hc
    exact comma_not_mem ((h.own_names x).mpr ⟨List.ne_nil_of_mem hc, mem_loadAllEvents.mp hx⟩) hc
  have hpieces := h.names
  rw [heval] at hpieces
  obtain hnil | ⟨rs, r, hl⟩ := List.eq_nil_or_concat (loadAllEvents file).toList
  · -- The empty list reaches the other process as a newline, one piece that is no name.
    have hin : [] ∈ (exclusiveTexts ((terminated [','] []).dropLast ++ ['\n'])).map trimmed := by decide
    have hbad := (hpieces []).mp (by rw [setToString, hnil]; exact hin)
    exact absurd rfl hbad.1
  · rw [List.concat_eq_append] at hl
    have hname (x : Str) (hx : x ∈ loadAllEvents file) : x ≠ [] := by
      have hmem : x ∈ rs ++ [r] := hl ▸ Std.TreeSet.mem_toList.mpr hx
      rw [← trimmed_exclusiveTexts hcomma hl] at hmem
      exact ((hpieces x).mp hmem).1
    refine ⟨hcolon, fun hlines => ?_, fun line hline => ?_⟩
    · have hr : r ∈ loadAllEvents file := Std.TreeSet.mem_toList.mp (by rw [hl]; simp)
      obtain ⟨line, hline, -⟩ := mem_loadAllEvents.mp hr
      rw [hlines] at hline
      cases hline
    · have hx : (nextToken [] line).1 ∈ loadAllEvents file := mem_loadAllEvents.mpr ⟨line, hline, rfl⟩
      have hin := Std.TreeSet.mem_toList.mpr hx
      exact ⟨hname _ hx, hcomma _ hx, fun hc => hquote.1 (mem_joined hin hc), fun hc => hquote.2 (mem_joined hin hc)⟩

/-- The two processes agree, under any script that writes what it is given, exactly for
formulas without a colon and files with a line in which every line begins with a plain name. -/
theorem hands_over_iff {formula file : Str} (hf : Quotable formula) :
    (∀ script, (∀ t, Quotable t → script t = t ++ ['\n']) → HandsOver script formula file) ↔
      ':' ∉ formula ∧ getlines '\n' file ≠ [] ∧
        ∀ line ∈ getlines '\n' file, PlainName (nextToken [] line).1 := by
  constructor
  · intro h
    exact plain_of_handsOver hf (h strictScript fun t ht => if_pos ht)
  · rintro ⟨hcolon, hlines, hplain⟩ script hs
    exact handsOver_of_plain hf hs hcolon hlines hplain

/-- A blank line becomes an empty proposition. -/
theorem hands_over_blank_line :
    ¬ HandsOver (fun t => t ++ ['\n']) "Ga".toList "A\n\nB\n".toList := by
  intro h
  have hbad := (h.own_names []).mp (by decide)
  exact hbad.1 rfl

theorem hands_over_iff_two_names :
    (∀ script, (∀ t, Quotable t → script t = t ++ ['\n']) → HandsOver script "G(A -> F B)".toList "A\nB 2\n".toList) ↔
      ':' ∉ "G(A -> F B)".toList ∧ getlines '\n' "A\nB 2\n".toList ≠ [] ∧
        ∀ line ∈ getlines '\n' "A\nB 2\n".toList, PlainName (nextToken [] line).1 :=
  hands_over_iff (by decide)

end LtlFuzzer.Fuzzer
