import Mathlib.Data.List.TakeDrop
import Mathlib.Tactic.Common

/-! An open file: what it holds, and where the next write goes. -/
namespace LtlFuzzer.Foundation
variable {β : Type}

structure Descriptor (β : Type) where
  data : List β
  position : Nat

namespace Descriptor

def empty : Descriptor β := ⟨[], 0⟩
def rewind (d : Descriptor β) : Descriptor β := { d with position := 0 }

/-- Writing at the position. A gap before it is filled, and what is behind stays. -/
def write (fill : β) (d : Descriptor β) (bs : List β) : Descriptor β :=
  ⟨List.takeD d.position d.data fill ++ bs ++ d.data.drop (d.position + bs.length), d.position + bs.length⟩

def truncate (fill : β) (d : Descriptor β) (n : Nat) : Descriptor β := { d with data := List.takeD n d.data fill }

/-- Since the file held something, a block was written over it from the start on. -/
structure Wrote (old bs : List β) (d : Descriptor β) : Prop where
  data : d.data = bs ++ old.drop bs.length
  position : d.position = bs.length

variable {old bs cs : List β} {d : Descriptor β}

theorem wrote_empty : Wrote ([] : List β) [] empty := ⟨rfl, rfl⟩

theorem wrote_rewind (d : Descriptor β) : Wrote d.data [] d.rewind := ⟨rfl, rfl⟩

/-- A further write goes behind what was written. -/
theorem Wrote.write (fill : β) (h : Wrote old bs d) (cs : List β) : Wrote old (bs ++ cs) (d.write fill cs) := by
  refine ⟨?_, ?_⟩
  · have hfront : List.takeD d.position d.data fill = bs := by
      rw [h.position, h.data, List.takeD_left]
    have hback : d.data.drop (d.position + cs.length) = old.drop (bs ++ cs).length := by
      rw [h.position, h.data, List.drop_append, List.drop_eq_nil_of_le (Nat.le_add_right _ _), List.nil_append,
        List.drop_drop, List.length_append]
      congr 1
      omega
    rw [Descriptor.write, hfront, hback]
  · rw [Descriptor.write, h.position, List.length_append]

/-- Cutting the file where the writes end leaves what they wrote. -/
theorem Wrote.truncate_data (fill : β) (h : Wrote old bs d) : (d.truncate fill bs.length).data = bs := by
  rw [truncate, h.data, List.takeD_left]

/-- So does starting with an empty file. -/
theorem Wrote.data_of_empty (h : Wrote [] bs d) : d.data = bs := by
  rw [h.data, List.drop_nil, List.append_nil]

end Descriptor
end LtlFuzzer.Foundation
