import Mathlib.Data.List.DropRight

/-! Lists padded on the right to a fixed length, and what the padding cannot tell apart. -/
namespace Laomb.Padding

variable {α : Type*} {a : α} {n : ℕ} {l m : List α}

theorem length_rightpad (short : l.length ≤ n) : (l.rightpad n a).length = n := by
  rw [List.rightpad, List.length_append, List.length_replicate]
  omega

theorem getElem?_rightpad {i : ℕ} (inside : i < n) : (l.rightpad n a)[i]? = some (l[i]?.getD a) := by
  rw [List.rightpad]
  by_cases within : i < l.length
  · rw [List.getElem?_append_left within, List.getElem?_eq_getElem within, Option.getD_some]
  · rw [List.getElem?_append_right (by omega), List.getElem?_replicate, if_pos (by omega),
      List.getElem?_eq_none (by omega), Option.getD_none]

variable [DecidableEq α]

/-- The list without what looks like padding. -/
def trimmed (a : α) (l : List α) : List α := l.rdropWhile (· = a)

theorem trimmed_append_replicate (a : α) (l : List α) (k : ℕ) :
    trimmed a (l ++ List.replicate k a) = trimmed a l := by
  induction k with
  | zero => rw [List.replicate_zero, List.append_nil]
  | succ k ih =>
    rw [List.replicate_succ', ← List.append_assoc, trimmed, List.rdropWhile_concat_pos _ _ _ (by simp)]
    exact ih

theorem eq_trimmed_append (a : α) (l : List α) :
    l = trimmed a l ++ List.replicate (l.length - (trimmed a l).length) a := by
  have whole : trimmed a l ++ l.rtakeWhile (· = a) = l := List.rdropWhile_append_rtakeWhile
  have all : l.rtakeWhile (· = a) = List.replicate (l.rtakeWhile (· = a)).length a := by
    refine List.eq_replicate_of_mem fun b member => ?_
    simpa using List.mem_rtakeWhile_imp member
  have lengths := congrArg List.length whole
  rw [List.length_append] at lengths
  rw [show l.length - (trimmed a l).length = (l.rtakeWhile (· = a)).length by omega, ← all]
  exact whole.symm

theorem rightpad_eq (short : l.length ≤ n) :
    l.rightpad n a = trimmed a l ++ List.replicate (n - (trimmed a l).length) a := by
  have whole := eq_trimmed_append a l
  have lengths := congrArg List.length whole
  rw [List.length_append, List.length_replicate] at lengths
  rw [List.rightpad]
  nth_rewrite 1 [whole]
  rw [List.append_assoc, List.replicate_append_replicate]
  congr 2
  omega

/-- Padded lists are the same if the lists are, but for what looks like padding. -/
theorem rightpad_eq_iff (left : l.length ≤ n) (right : m.length ≤ n) :
    l.rightpad n a = m.rightpad n a ↔ trimmed a l = trimmed a m := by
  constructor
  · intro same
    have shorter := congrArg (trimmed a) same
    rwa [List.rightpad, List.rightpad, trimmed_append_replicate, trimmed_append_replicate] at shorter
  · intro same
    rw [rightpad_eq left, rightpad_eq right, same]

end Laomb.Padding
