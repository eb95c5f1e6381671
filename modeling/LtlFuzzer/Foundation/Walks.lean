import LtlFuzzer.Foundation.RandomPrograms

/-! Programs that make one thing after the other until something stops them: what they have made, and where they end. -/
namespace LtlFuzzer.Foundation
variable {α β σ : Type}

structure Walk (σ β : Type) where
  state : σ
  made : List β
  stopped : Bool

namespace Walk
open Draws

/-- The next part, unless the walk was stopped. -/
def andThen (f : Walk σ β → Draws (Walk σ β)) (w : Walk σ β) : Draws (Walk σ β) := if w.stopped then pure w else f w

/-- One part and then the next. -/
def seq (f g : Walk σ β → Draws (Walk σ β)) (w : Walk σ β) : Draws (Walk σ β) := do
  let w ← f w
  andThen g w

def each (body : α → Walk σ β → Draws (Walk σ β)) : List α → Walk σ β → Draws (Walk σ β)
  | [], w => pure w
  | a :: l, w =>
    if w.stopped then pure w
    else do
      let w ← body a w
      each body l w

/-- A step that makes nothing. -/
def change (f : σ → Draws σ) (w : Walk σ β) : Draws (Walk σ β) := do
  let s ← f w.state
  pure { w with state := s }

def make (stops : List β → Bool) (f : σ → Draws β) (w : Walk σ β) : Draws (Walk σ β) := do
  let b ← f w.state
  pure ⟨w.state, w.made ++ [b], stops (w.made ++ [b])⟩

/-- A walk beside something that it leaves alone. -/
def onFirst {τ : Type} (f : Walk σ β → Draws (Walk σ β)) (w : Walk (σ × τ) β) : Draws (Walk (σ × τ) β) := do
  let v ← f ⟨w.state.1, w.made, w.stopped⟩
  pure ⟨(v.state, w.state.2), v.made, v.stopped⟩

theorem safe_onFirst {τ : Type} {f : Walk σ β → Draws (Walk σ β)} {s : σ} {t : τ} {made : List β} {stopped : Bool}
    {Q : Walk σ β → Prop} (hf : Safe (f ⟨s, made, stopped⟩) Q) :
    Safe (onFirst f ⟨(s, t), made, stopped⟩) fun w => Q ⟨w.state.1, w.made, w.stopped⟩ ∧ w.state.2 = t :=
  hf.bind fun _ hv => Safe.pure ⟨hv, rfl⟩

/-- What a round keeps while it is not stopped holds after the last one, and a stop leaves what the round that is stopped
leaves. -/
theorem safe_each {body : α → Walk σ β → Draws (Walk σ β)} (I : List α → Walk σ β → Prop) {T : List α → Walk σ β → Prop} {l : List α}
    (hbody : ∀ past a w, past ++ [a] <+: l → w.stopped = false → I past w → Safe (body a w) fun w' =>
      (w'.stopped = false → I (past ++ [a]) w') ∧ (w'.stopped = true → T past w'))
    {w : Walk σ β} (hw : w.stopped = false) (hI : I [] w) : Safe (each body l w) fun w' =>
      (w'.stopped = false → I l w') ∧ (w'.stopped = true → ∃ past, past <+: l ∧ past ≠ l ∧ T past w') := by
  suffices h : ∀ past rest w, past ++ rest = l → w.stopped = false → I past w → Safe (each body rest w) fun w' =>
      (w'.stopped = false → I l w') ∧ (w'.stopped = true → ∃ past, past <+: l ∧ past ≠ l ∧ T past w') from h [] l w rfl hw hI
  clear w hw hI
  intro past rest
  induction rest generalizing past with
  | nil =>
    intro w hl hw hI
    rw [List.append_nil] at hl
    refine Safe.pure ⟨fun _ => hl ▸ hI, fun hstop => ?_⟩
    rw [hw] at hstop
    cases hstop
  | cons a rest ih =>
    intro w hl hw hI
    have hnext : past ++ [a] ++ rest = l := by rw [List.append_assoc, ← hl]; rfl
    rw [each, if_neg (by rw [hw]; exact Bool.false_ne_true)]
    refine (hbody past a w ⟨rest, hnext⟩ hw hI).bind fun w₁ ⟨hgo, hend⟩ => ?_
    cases hstop : w₁.stopped with
    | true =>
      have hpure : each body rest w₁ = Pure.pure w₁ := by
        cases rest with
        | nil => rfl
        | cons b rest => rw [each, if_pos hstop]
      rw [hpure]
      refine Safe.pure ⟨fun hno => ?_, fun hyes => ⟨past, ⟨a :: rest, hl⟩, fun he => ?_, hend hyes⟩⟩
      · rw [hstop] at hno
        cases hno
      · exact absurd (List.append_right_eq_self.mp (hl.trans he.symm)) (List.cons_ne_nil a rest)
    | false => exact ih (past ++ [a]) w₁ hnext hstop (hgo hstop)

/-- The same for rounds that are numbered. -/
theorem safe_each_range {body : Nat → Walk σ β → Draws (Walk σ β)} (I : Nat → Walk σ β → Prop) {T : Nat → Walk σ β → Prop} {n : Nat}
    (hbody : ∀ k w, k < n → w.stopped = false → I k w → Safe (body k w) fun w' =>
      (w'.stopped = false → I (k + 1) w') ∧ (w'.stopped = true → T k w'))
    {w : Walk σ β} (hw : w.stopped = false) (hI : I 0 w) : Safe (each body (List.range n) w) fun w' =>
      (w'.stopped = false → I n w') ∧ (w'.stopped = true → ∃ k < n, T k w') := by
  have hround (past : List Nat) (k : Nat) (w : Walk σ β) (hl : past ++ [k] <+: List.range n) (hw : w.stopped = false)
      (h : I past.length w) : Safe (body k w) fun w' =>
        (w'.stopped = false → I (past ++ [k]).length w') ∧ (w'.stopped = true → T past.length w') := by
    have hget := hl.getElem (i := past.length) (by simp)
    rw [List.getElem_concat_length rfl, List.getElem_range] at hget
    rw [List.length_append, List.length_singleton, ← hget]
    exact hbody k w (List.mem_range.mp (hl.mem (by simp))) hw (hget ▸ h)
  refine (safe_each (fun past => I past.length) hround hw hI).mono fun w' ⟨hgo, hend⟩ => ⟨fun h => ?_, fun h => ?_⟩
  · have := hgo h
    rwa [List.length_range] at this
  · obtain ⟨past, hpast, hne, hT⟩ := hend h
    have hle := hpast.length_le
    rw [List.length_range] at hle
    refine ⟨past.length, Nat.lt_of_le_of_ne hle fun he => hne (hpast.eq_of_length ?_), hT⟩
    rw [he, List.length_range]

/-- From a state like this the whole list is made, and the walk ends in one like that; or it is stopped on the way. -/
def Makes (P : σ → Prop) (l : List β) (Q : σ → Prop) (f : Walk σ β → Draws (Walk σ β)) : Prop :=
  ∀ w, w.stopped = false → P w.state → Safe (f w) fun w' =>
    w'.made <+: w.made ++ l ∧ (w'.stopped = false → w'.made = w.made ++ l ∧ Q w'.state)

variable {P Q R : σ → Prop}

theorem Makes.pure : Makes P ([] : List β) P pure := fun _ _ hP =>
  Safe.pure ⟨List.prefix_append _ _, fun _ => ⟨(List.append_nil _).symm, hP⟩⟩

theorem Makes.mono {l : List β} {f : Walk σ β → Draws (Walk σ β)} {P' Q' : σ → Prop} (hf : Makes P l Q f) (hP : ∀ s, P' s → P s)
    (hQ : ∀ s, Q s → Q' s) : Makes P' l Q' f := fun w hw hs =>
  (hf w hw (hP _ hs)).mono fun _ ⟨hmade, hall⟩ => ⟨hmade, fun hgo => ⟨(hall hgo).1, hQ _ (hall hgo).2⟩⟩

theorem Makes.seq {l₁ l₂ : List β} {f g : Walk σ β → Draws (Walk σ β)} (hf : Makes P l₁ Q f) (hg : Makes Q l₂ R g) :
    Makes P (l₁ ++ l₂) R (seq f g) := by
  intro w hw hP
  refine (hf w hw hP).bind fun w₁ ⟨hmade, hall⟩ => ?_
  refine Safe.ite (fun hstop => Safe.pure ⟨?_, fun hgo => ?_⟩) fun hgo => ?_
  · exact hmade.trans ⟨l₂, List.append_assoc _ _ _⟩
  · rw [hstop] at hgo
    cases hgo
  · have hgo : w₁.stopped = false := Bool.eq_false_iff.mpr hgo
    obtain ⟨hmade₁, hQ⟩ := hall hgo
    refine (hg w₁ hgo hQ).mono fun w₂ ⟨hmade₂, hall₂⟩ => ?_
    rw [hmade₁, List.append_assoc] at hmade₂ hall₂
    exact ⟨hmade₂, hall₂⟩

/-- A round for every element, each from where the rounds before it end. -/
theorem Makes.each_history {body : α → Walk σ β → Draws (Walk σ β)} {g : α → List β} (S : List α → σ → Prop) {l : List α}
    (hbody : ∀ past a, past ++ [a] <+: l → Makes (S past) (g a) (S (past ++ [a])) (body a)) :
    Makes (S []) (l.flatMap g) (S l) (each body l) := by
  intro w hw hP
  have hround : ∀ past a v, past ++ [a] <+: l → v.stopped = false → (v.made = w.made ++ past.flatMap g ∧ S past v.state) →
      Safe (body a v) fun v' =>
        (v'.stopped = false → v'.made = w.made ++ (past ++ [a]).flatMap g ∧ S (past ++ [a]) v'.state) ∧
        (v'.stopped = true → v'.made <+: w.made ++ l.flatMap g) := by
    rintro past a v hl hv ⟨hmade, hS⟩
    have hnext : v.made ++ g a = w.made ++ (past ++ [a]).flatMap g := by
      rw [hmade, List.flatMap_append, List.flatMap_singleton, List.append_assoc]
    refine (hbody past a hl v hv hS).mono fun v' ⟨hmade', hall⟩ => ?_
    rw [hnext] at hmade' hall
    obtain ⟨rest, rfl⟩ := hl
    refine ⟨hall, fun _ => hmade'.trans ⟨rest.flatMap g, ?_⟩⟩
    rw [List.append_assoc, ← List.flatMap_append]
  refine (safe_each _ hround hw ⟨(List.append_nil _).symm, hP⟩).mono fun w' ⟨hgo, hend⟩ => ⟨?_, hgo⟩
  cases hstop : w'.stopped with
  | true =>
    obtain ⟨past, -, -, hmade⟩ := hend hstop
    exact hmade
  | false => exact ⟨[], by rw [List.append_nil, (hgo hstop).1]⟩

theorem Makes.each {body : α → Walk σ β → Draws (Walk σ β)} {g : α → List β} {l : List α}
    (hbody : ∀ a ∈ l, Makes P (g a) P (body a)) : Makes P (l.flatMap g) P (each body l) :=
  Makes.each_history (fun _ => P) fun _ a hl => hbody a (hl.mem (by simp))

theorem Makes.change {f : σ → Draws σ} (hf : ∀ s, P s → Safe (f s) Q) : Makes P ([] : List β) Q (change f) := fun _ _ hP =>
  (hf _ hP).bind fun _ hs => Safe.pure ⟨List.prefix_append _ _, fun _ => ⟨(List.append_nil _).symm, hs⟩⟩

theorem Makes.make {f : σ → Draws β} {b : β} {stops : List β → Bool} (hf : ∀ s, P s → Safe (f s) (· = b)) :
    Makes P [b] P (make stops f) := by
  intro w hw hP
  refine (hf _ hP).bind ?_
  rintro _ rfl
  exact Safe.pure ⟨List.prefix_rfl, fun _ => ⟨rfl, hP⟩⟩

/-- What is read first is known. -/
theorem Makes.read {γ : Type} {f : σ → Draws γ} {a : γ} {l : List β} {g : γ → Walk σ β → Draws (Walk σ β)}
    (hf : ∀ s, P s → Safe (f s) (· = a)) (hg : Makes P l Q (g a)) : Makes P l Q fun w => f w.state >>= fun a => g a w := by
  intro w hw hP
  refine (hf _ hP).bind ?_
  rintro _ rfl
  exact hg w hw hP

end Walk

end LtlFuzzer.Foundation
