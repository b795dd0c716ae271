import Mathlib.Logic.Function.Basic
import Mathlib.Data.List.Range

/-! Circular buffers: `count` elements that end before the cell at index `w`. The
index of the first one is not kept but follows from these two numbers. -/
namespace Laomb.Circular

variable {α : Type*} {cells : Nat → α} {capacity w count : Nat}

def stored (cells : Nat → α) (capacity w count : Nat) : List α :=
  (List.range count).map fun i => cells ((w + capacity - count + i) % capacity)

@[simp]
theorem stored_length : (stored cells capacity w count).length = count := by
  rw [stored, List.length_map, List.length_range]

@[simp]
theorem stored_zero : stored cells capacity w 0 = [] := rfl

/-- The cells of the stored elements leave out the next one, unless the buffer is full. -/
theorem index_ne {i : Nat} (inside : w < capacity) (room : count < capacity) (old : i < count) :
    (w + capacity - count + i) % capacity ≠ w := by
  intro same
  by_cases wraps : w + capacity - count + i < capacity
  · rw [Nat.mod_eq_of_lt wraps] at same
    omega
  · rw [Nat.mod_eq_sub_mod (by omega), Nat.mod_eq_of_lt (by omega)] at same
    omega

theorem index_next {i : Nat} (inside : w < capacity) (room : count < capacity) :
    ((w + 1) % capacity + capacity - (count + 1) + i) % capacity = (w + capacity - count + i) % capacity := by
  by_cases last : w + 1 = capacity
  · rw [last, Nat.mod_self, show w + capacity - count + i =
      0 + capacity - (count + 1) + i + capacity by omega,
      Nat.add_mod_right]
  · rw [Nat.mod_eq_of_lt (show w + 1 < capacity by omega)]
    congr 1
    omega

/-- An element goes to the end of a buffer with room. -/
theorem stored_push (c : α) (inside : w < capacity) (room : count < capacity) :
    stored (Function.update cells w c) capacity ((w + 1) % capacity) (count + 1) =
      stored cells capacity w count ++ [c] := by
  rw [stored, List.range_succ, List.map_append, List.map_singleton, stored]
  congr 1
  · refine List.map_congr_left fun i member => ?_
    rw [index_next inside room,
      Function.update_of_ne (index_ne inside room (List.mem_range.mp member))]
  · have last : (w + capacity - count + count) % capacity = w := by
      rw [Nat.sub_add_cancel (by omega), Nat.add_mod_right, Nat.mod_eq_of_lt inside]
    rw [index_next inside room, last, Function.update_self]

/-- The first element is the one `count` cells back. -/
theorem stored_pop (some : 0 < count) (fits : count ≤ capacity) :
    stored cells capacity w count =
      cells ((w + capacity - count) % capacity) :: stored cells capacity w (count - 1) := by
  obtain ⟨n, rfl⟩ := Nat.exists_eq_add_one.mpr some
  rw [stored, List.range_succ_eq_map, List.map_cons, List.map_map, Nat.add_zero, Nat.add_sub_cancel, stored]
  congr 1
  refine List.map_congr_left fun i _ => ?_
  rw [Function.comp_apply, show w + capacity - (n + 1) + i.succ = w + capacity - n + i by omega]

end Laomb.Circular
