import Mathlib.Data.List.Basic
import Mathlib.Data.List.Range

/-! Stretches of a sequence, and lists that are put together from blocks of one
length. -/
namespace Laomb.Blocks

variable {α β : Type*} {seq : Nat → α} {f : β → List α} {b : β} {bs : List β} {start size m n k r t : Nat}

/-- The `n` elements from `start` on. -/
def slice (seq : Nat → α) (start n : Nat) : List α := (List.range n).map fun i => seq (start + i)

@[simp]
theorem slice_length : (slice seq start n).length = n := by
  rw [slice, List.length_map, List.length_range]

@[simp]
theorem slice_getElem? (i : Nat) :
    (slice seq start n)[i]? = if i < n then some (seq (start + i)) else none := by
  rw [slice, List.getElem?_map]
  split
  · rw [List.getElem?_range (by assumption), Option.map_some]
  · rw [List.getElem?_eq_none (by simpa using ‹¬ i < n›), Option.map_none]

theorem slice_drop_take (fits : r + t ≤ n) :
    ((slice seq start n).drop r).take t = slice seq (start + r) t := by
  refine List.ext_getElem? fun i => ?_
  rw [List.getElem?_take, List.getElem?_drop, slice_getElem?, slice_getElem?]
  by_cases inside : i < t
  · rw [if_pos inside, if_pos inside, if_pos (by omega), Nat.add_assoc]
  · rw [if_neg inside, if_neg inside]

theorem slice_ofFn : List.ofFn (fun i : Fin n => seq (start + i)) = slice seq start n := by
  refine List.ext_getElem? fun i => ?_
  rw [List.getElem?_ofFn, slice_getElem?]
  rfl

theorem flatMap_length (equal : ∀ b, (f b).length = m) : (bs.flatMap f).length = bs.length * m := by
  induction bs with
  | nil => rw [List.flatMap_nil, List.length_nil, List.length_nil, Nat.zero_mul]
  | cons b bs ih =>
    rw [List.flatMap_cons, List.length_append, ih, equal, List.length_cons, Nat.succ_mul, Nat.add_comm]

/-- Dropping into block `k` leaves the rest of that block and the blocks after it. -/
theorem flatMap_drop (equal : ∀ b, (f b).length = m) (found : bs[k]? = some b) (inside : r ≤ m) :
    (bs.flatMap f).drop (k * m + r) = (f b).drop r ++ (bs.drop (k + 1)).flatMap f := by
  induction bs generalizing k with
  | nil => cases found
  | cons c bs ih =>
    cases k with
    | zero =>
      cases found
      rw [List.flatMap_cons, Nat.zero_mul, Nat.zero_add,
        List.drop_append_of_le_length (inside.trans (equal b).ge),
        List.drop_one, List.tail_cons]
    | succ k =>
      have past : (k + 1) * m + r = (f c).length + (k * m + r) := by
        rw [equal, Nat.succ_mul]
        omega
      rw [List.flatMap_cons, past, List.drop_length_add_append, ih found, List.drop_succ_cons]

theorem flatMap_drop_take (equal : ∀ b, (f b).length = m) (found : bs[k]? = some b) (inside : r + t ≤ m) :
    ((bs.flatMap f).drop (k * m + r)).take t = ((f b).drop r).take t := by
  rw [flatMap_drop equal found (Nat.le_of_add_right_le inside), List.take_append_of_le_length]
  rw [List.length_drop, equal]
  omega

end Laomb.Blocks
