import LtlFuzzer.Foundation.Runs
import Mathlib.Tactic.Common

/-! A sender and a receiver at the two ends of a bounded channel, in every order of their steps. -/
namespace LtlFuzzer.Foundation.Channels
variable {α σ : Type}

/-- What the two ends can do next. -/
inductive Act where
  | send
  | close
  | receive
  | handle
  | finish
  deriving DecidableEq, Repr

/-- The sender's values still to send, the channel, and the receiver with its result so far. -/
structure Pipe (α σ : Type) where
  unsent : List α
  buffer : List α := []
  closed : Bool := false
  held : Option α := none
  finished : Bool := false
  out : σ

/-- One step of either end; none where it has to wait. The channel is closed after the last
value, and the receiver finishes on a channel that is closed and empty. -/
def step (capacity : Nat) (handle : σ → α → σ) (p : Pipe α σ) : Act → Option (Pipe α σ)
  | .send => match p.unsent with
    | [] => none
    | a :: l => if p.buffer.length < capacity then some { p with unsent := l, buffer := p.buffer ++ [a] } else none
  | .close => if p.unsent = [] && !p.closed then some { p with closed := true } else none
  | .receive => match p.held, p.buffer with
    | none, a :: l => some { p with buffer := l, held := some a }
    | _, _ => none
  | .handle => match p.held with
    | none => none
    | some a => some { p with held := none, out := handle p.out a }
  | .finish =>
    if p.closed && p.buffer = [] && p.held = none && !p.finished then some { p with finished := true } else none

variable {capacity : Nat} {handle : σ → α → σ}

/-- Handled, held, waiting and unsent values are all the values, in order. -/
structure InOrder (handle : σ → α → σ) (values : List α) (out : σ) (p : Pipe α σ) : Prop where
  parts : ∃ done, done ++ p.held.toList ++ p.buffer ++ p.unsent = values ∧ p.out = done.foldl handle out
  closed : p.closed = true → p.unsent = []
  finished : p.finished = true → p.closed = true ∧ p.buffer = [] ∧ p.held = none

private theorem inOrder_step {values : List α} {out : σ} {p p' : Pipe α σ} {a : Act} (h : InOrder handle values out p)
    (hs : step capacity handle p a = some p') : InOrder handle values out p' := by
  obtain ⟨⟨done, hparts, hout⟩, hclosed, hfinished⟩ := h
  cases a with
  | send =>
    cases hu : p.unsent with
    | nil => simp [step, hu] at hs
    | cons v l =>
      simp only [step, hu, Option.ite_none_right_eq_some, Option.some_inj] at hs
      obtain ⟨-, rfl⟩ := hs
      -- values are left to send, so the channel is open
      have hopen : p.closed = false := by simpa [hu] using hclosed
      refine ⟨⟨done, by simpa [hu] using hparts, hout⟩, fun hc => ?_, fun hf => ?_⟩
      · simp [hopen] at hc
      · have := (hfinished hf).1
        simp [hopen] at this
  | close =>
    simp only [step, Option.ite_none_right_eq_some, Option.some_inj, Bool.and_eq_true, decide_eq_true_eq] at hs
    obtain ⟨⟨hu, -⟩, rfl⟩ := hs
    exact ⟨⟨done, hparts, hout⟩, fun _ => hu, fun hf => ⟨rfl, (hfinished hf).2⟩⟩
  | receive =>
    simp only [step] at hs
    split at hs
    · rename_i v l hheld hbuffer
      cases hs
      refine ⟨⟨done, ?_, hout⟩, hclosed, fun hf => ?_⟩
      · simpa [hheld, hbuffer] using hparts
      · have := (hfinished hf).2.1
        simp [hbuffer] at this
    · cases hs
  | handle =>
    cases hh : p.held with
    | none => simp [step, hh] at hs
    | some v =>
      simp only [step, hh, Option.some_inj] at hs
      subst hs
      refine ⟨⟨done ++ [v], ?_, ?_⟩, hclosed, fun hf => ?_⟩
      · simpa [hh] using hparts
      · rw [List.foldl_append, ← hout]
        rfl
      · have := (hfinished hf).2.2
        simp [hh] at this
  | finish =>
    simp only [step, Option.ite_none_right_eq_some, Option.some_inj, Bool.and_eq_true, decide_eq_true_eq] at hs
    obtain ⟨⟨⟨⟨hc, hb⟩, hh⟩, -⟩, rfl⟩ := hs
    exact ⟨⟨done, hparts, hout⟩, hclosed, fun _ => ⟨hc, hb, hh⟩⟩

/-- A run of both ends, from values that are all unsent. -/
def run (capacity : Nat) (handle : σ → α → σ) (values : List α) (out : σ) (acts : List Act) : Option (Pipe α σ) :=
  acts.foldlM (step capacity handle) { unsent := values, out := out }

theorem inOrder_run {values : List α} {out : σ} {acts : List Act} {p : Pipe α σ}
    (h : run capacity handle values out acts = some p) : InOrder handle values out p := by
  refine Runs.foldlM_inv _ (fun _ _ _ hi hs => inOrder_step hi hs) acts ?_ h
  exact ⟨⟨[], rfl, rfl⟩, by simp, by simp⟩

/-- Once the receiver has finished, every value was handled, in the order of sending. -/
theorem out_of_finished {values : List α} {out : σ} {acts : List Act} {p : Pipe α σ}
    (h : run capacity handle values out acts = some p) (hf : p.finished = true) : p.out = values.foldl handle out := by
  obtain ⟨⟨done, hparts, hout⟩, hclosed, hfinished⟩ := inOrder_run h
  obtain ⟨hc, hb, hh⟩ := hfinished hf
  rw [hout, ← hparts, hh, hb, hclosed hc]
  simp

/-- The steps left to both ends. -/
def remaining (p : Pipe α σ) : Nat :=
  3 * p.unsent.length + 2 * p.buffer.length + p.held.toList.length + (!p.closed).toNat + (!p.finished).toNat

/-- Until the receiver has finished, one of the ends can go on, and every step counts. -/
private theorem exists_step (handle : σ → α → σ) (hcap : 0 < capacity) {p : Pipe α σ} (hf : p.finished = false) :
    ∃ a p', step capacity handle p a = some p' ∧ remaining p' < remaining p := by
  cases hh : p.held with
  | some v =>
    refine ⟨.handle, { p with held := none, out := handle p.out v }, by simp only [step, hh], ?_⟩
    simp [remaining, hh]
  | none =>
    cases hb : p.buffer with
    | cons v l =>
      refine ⟨.receive, { p with buffer := l, held := some v }, by simp only [step, hh, hb], ?_⟩
      simp only [remaining, hh, hb, List.length_cons, Option.toList_some, Option.toList_none, List.length_nil]
      omega
    | nil =>
      cases hu : p.unsent with
      | cons v l =>
        refine ⟨.send, { p with unsent := l, buffer := [v] }, by simp [step, hu, hb, hcap], ?_⟩
        simp only [remaining, hb, hu, List.length_cons, List.length_nil]
        omega
      | nil =>
        cases hc : p.closed with
        | false => exact ⟨.close, { p with closed := true }, by simp [step, hu, hc], by simp [remaining, hu, hc]⟩
        | true =>
          refine ⟨.finish, { p with finished := true }, by simp [step, hc, hb, hh, hf], ?_⟩
          simp [remaining, hu, hb, hh, hc, hf]

/-- No order of steps leads into a deadlock: the receiver can still finish. -/
theorem exists_finish (handle : σ → α → σ) (hcap : 0 < capacity) (p : Pipe α σ) :
    ∃ (acts : List Act) (p' : Pipe α σ), acts.foldlM (step capacity handle) p = some p' ∧ p'.finished = true := by
  cases hf : p.finished with
  | true => exact ⟨[], p, rfl, hf⟩
  | false =>
    obtain ⟨a, p₁, hs, hlt⟩ := exists_step handle hcap hf
    obtain ⟨acts, p', hr, hf'⟩ := exists_finish handle hcap p₁
    exact ⟨a :: acts, p', by rw [List.foldlM_cons, hs]; exact hr, hf'⟩
termination_by remaining p

end LtlFuzzer.Foundation.Channels
