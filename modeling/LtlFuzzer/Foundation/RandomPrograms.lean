import LtlFuzzer.Foundation.Draws
import Mathlib.Tactic.Common

/-! Programs that draw numbers and work on blocks of memory: what holds of their results whatever is drawn. -/
namespace LtlFuzzer.Foundation
variable {α β : Type}

/-- A program that draws from a stream of numbers; none is a fault. -/
abbrev Draws := StateT (Nat → Nat) Option

namespace Draws

/-- A number below a limit, by the remainder; a fault for the limit 0. -/
def draw (limit : Nat) : Draws Nat := fun s =>
  if limit = 0 then none else some (s 0 % limit, fun n => s (n + 1))

def pick (l : List α) : Draws α := fun s => (drawn (s 0) l).map fun a => (a, fun n => s (n + 1))

/-- Elements of a block; a fault past its end. -/
def readBlock (m : List β) (pos len : Nat) : Draws (List β) :=
  if pos + len ≤ m.length then pure ((m.drop pos).take len) else fun _ => none

/-- The block with other elements from a place on. -/
def overwrite (m : List β) (pos : Nat) (bs : List β) : List β := m.take pos ++ bs ++ m.drop (pos + bs.length)

def writeBlock (m : List β) (pos : Nat) (bs : List β) : Draws (List β) :=
  if pos + bs.length ≤ m.length then pure (overwrite m pos bs) else fun _ => none

/-- What is there; a fault where it is not. -/
def deref : Option α → Draws α
  | none => fun _ => none
  | some a => pure a

/-- No draw leads to a fault, and every result has the property. -/
def Safe (x : Draws α) (Q : α → Prop) : Prop := ∀ s, ∃ a s', x s = some (a, s') ∧ Q a

theorem Safe.pure {a : α} {Q : α → Prop} (h : Q a) : Safe (pure a) Q := fun s => ⟨a, s, rfl, h⟩

theorem Safe.bind {α' : Type} {x : Draws α} {f : α → Draws α'} {P : α → Prop} {Q : α' → Prop} (hx : Safe x P)
    (hf : ∀ a, P a → Safe (f a) Q) : Safe (x >>= f) Q := by
  intro s
  obtain ⟨a, s₁, hrun, ha⟩ := hx s
  obtain ⟨b, s₂, hrun', hb⟩ := hf a ha s₁
  refine ⟨b, s₂, ?_, hb⟩
  change (x s).bind (fun p => f p.1 p.2) = _
  rw [hrun, Option.bind_some, hrun']

theorem Safe.mono {x : Draws α} {P Q : α → Prop} (hx : Safe x P) (h : ∀ a, P a → Q a) : Safe x Q := by
  intro s
  obtain ⟨a, s', hrun, ha⟩ := hx s
  exact ⟨a, s', hrun, h a ha⟩

theorem Safe.ite {p : Prop} [Decidable p] {x y : Draws α} {Q : α → Prop} (hx : p → Safe x Q) (hy : ¬ p → Safe y Q) :
    Safe (if p then x else y) Q := by
  split_ifs with hp
  · exact hx hp
  · exact hy hp

theorem safe_draw {limit : Nat} (h : 0 < limit) : Safe (draw limit) (· < limit) := by
  intro s
  refine ⟨s 0 % limit, fun n => s (n + 1), ?_, Nat.mod_lt _ h⟩
  rw [draw, if_neg (Nat.ne_of_gt h)]

theorem safe_pick {l : List α} (h : l ≠ []) : Safe (pick l) (· ∈ l) := by
  intro s
  obtain ⟨a, ha, hdraw⟩ := drawn_isSome h (s 0)
  exact ⟨a, fun n => s (n + 1), by rw [pick, hdraw]; rfl, ha⟩

theorem safe_deref {x : Option α} {a : α} (h : x = some a) : Safe (deref x) (· = a) := by
  rw [h]
  exact Safe.pure rfl

theorem safe_readBlock {m : List β} {pos len : Nat} (h : pos + len ≤ m.length) :
    Safe (readBlock m pos len) (· = (m.drop pos).take len) := by
  rw [readBlock, if_pos h]
  exact Safe.pure rfl

theorem safe_writeBlock {m bs : List β} {pos : Nat} (h : pos + bs.length ≤ m.length) :
    Safe (writeBlock m pos bs) (· = overwrite m pos bs) := by
  rw [writeBlock, if_pos h]
  exact Safe.pure rfl

theorem length_overwrite {m bs : List β} {pos : Nat} (h : pos + bs.length ≤ m.length) :
    (overwrite m pos bs).length = m.length := by
  rw [overwrite, List.length_append, List.length_append, List.length_take, List.length_drop]
  omega

/-- A write before a place, up to this place. -/
theorem take_overwrite {m bs : List β} {pos n : Nat} (h : pos + bs.length ≤ n) :
    (overwrite m pos bs).take n = overwrite (m.take n) pos bs := by
  rcases Nat.lt_or_ge m.length pos with hshort | hlong
  · have hall : m.take pos = m := List.take_of_length_le (Nat.le_of_lt hshort)
    have hdrop : m.drop (pos + bs.length) = [] := List.drop_eq_nil_of_le (by omega)
    have hdrop' : (m.take n).drop (pos + bs.length) = [] := List.drop_eq_nil_of_le (by rw [List.length_take]; omega)
    rw [overwrite, overwrite, hdrop, hdrop', List.take_take, Nat.min_eq_left (by omega), hall, List.append_nil,
      List.take_of_length_le (by rw [List.length_append]; omega)]
  · rw [overwrite, overwrite, List.take_append, List.take_of_length_le (by simp; omega), List.take_take, Nat.min_eq_left (by omega),
      List.drop_take]
    congr 2
    rw [List.length_append, List.length_take]
    omega

/-- A write, up to its end. -/
theorem take_overwrite_end {m bs : List β} {pos : Nat} (h : pos ≤ m.length) :
    (overwrite m pos bs).take (pos + bs.length) = m.take pos ++ bs := by
  have hlen : (m.take pos ++ bs).length = pos + bs.length := by rw [List.length_append, List.length_take_of_le h]
  rw [overwrite, ← hlen, List.take_left]

/-- A block of n elements that was filled so far from its start. -/
structure Filled (n : Nat) (done m : List β) : Prop where
  size : m.length = n
  start : m.take done.length = done

/-- The next write. -/
theorem Filled.writeBlock {n pos : Nat} {done m bs : List β} (h : Filled n done m) (hpos : pos = done.length)
    (hn : done.length + bs.length ≤ n) : Safe (writeBlock m pos bs) (Filled n (done ++ bs)) := by
  subst hpos
  refine (safe_writeBlock (h.size ▸ hn)).mono ?_
  rintro _ rfl
  refine ⟨(length_overwrite (h.size ▸ hn)).trans h.size, ?_⟩
  rw [overwrite, h.start, List.take_left']
  rfl

theorem Filled.eq {n : Nat} {done m : List β} (h : Filled n done m) (hn : done.length = n) : m = done := by
  rw [← h.start, List.take_of_length_le (Nat.le_of_eq (h.size.trans hn.symm))]

/-- Steps that keep an invariant. -/
theorem Safe.foldlM {σ : Type} {f : σ → α → Draws σ} {Inv : σ → Prop} (hf : ∀ s a, Inv s → Safe (f s a) Inv) (l : List α)
    {s : σ} (hs : Inv s) : Safe (l.foldlM f s) Inv := by
  induction l generalizing s with
  | nil => exact Safe.pure hs
  | cons a l ih => exact (hf s a hs).bind fun _ h => ih h

theorem Safe.anyM {f : α → Draws Bool} {g : α → Bool} {l : List α} (h : ∀ a ∈ l, Safe (f a) (· = g a)) :
    Safe (l.anyM f) (· = l.any g) := by
  induction l with
  | nil => exact Safe.pure rfl
  | cons a l ih =>
    rw [List.anyM_cons, List.any_cons]
    refine (h a List.mem_cons_self).bind ?_
    rintro _ rfl
    cases g a with
    | true => exact Safe.pure rfl
    | false => exact ih fun b hb => h b (List.mem_cons_of_mem a hb)

theorem overwrite_append {m bs : List β} {pos : Nat} (h : pos + bs.length ≤ m.length) (tail : List β) :
    overwrite (m ++ tail) pos bs = overwrite m pos bs ++ tail := by
  rw [overwrite, overwrite, List.take_append_of_le_length (by omega), List.drop_append_of_le_length h, List.append_assoc,
    List.append_assoc, List.append_assoc]

theorem overwrite_self {m : List β} (pos len : Nat) : overwrite m pos ((m.drop pos).take len) = m := by
  have hdrop : m.drop (pos + ((m.drop pos).take len).length) = (m.drop pos).drop len := by
    rw [← List.drop_drop, List.length_take]
    rcases Nat.le_total len (m.drop pos).length with hle | hle
    · rw [Nat.min_eq_left hle]
    · rw [Nat.min_eq_right hle, List.drop_length, List.drop_eq_nil_of_le hle]
  rw [overwrite, hdrop, List.append_assoc, List.take_append_drop, List.take_append_drop]

theorem overwrite_overwrite {m as bs : List β} {pos : Nat} (h : pos + as.length ≤ m.length) (hlen : bs.length = as.length) :
    overwrite (overwrite m pos as) pos bs = overwrite m pos bs := by
  have hpre : (m.take pos ++ as).length = pos + as.length := by
    rw [List.length_append, List.length_take_of_le (by omega)]
  have htake : (overwrite m pos as).take pos = m.take pos := by
    rw [overwrite, List.append_assoc, List.take_append_of_le_length (by rw [List.length_take]; omega), List.take_take,
      Nat.min_self]
  have hdrop : (overwrite m pos as).drop (pos + bs.length) = m.drop (pos + as.length) := by
    rw [hlen, overwrite, ← hpre, List.drop_left]
  rw [overwrite, htake, hdrop, overwrite, hlen]

end Draws

end LtlFuzzer.Foundation
