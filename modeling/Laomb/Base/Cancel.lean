import Mathlib.Data.List.Induction

/-! Lists in which some elements stand for nothing and some cancel the nearest
kept element before them: what is kept, newest first, and which kept element is
the newest, read from the end of the list. -/
namespace Laomb.Cancel

variable {α : Type*} (stay up : α → Bool)

/-- One element on top of those kept so far. -/
def push (kept : List α) (x : α) : List α :=
  if stay x then kept else if up x then kept.tail else x :: kept

/-- The elements kept, newest first. -/
def settle (kept : List α) (xs : List α) : List α := xs.foldl (push stay up) kept

/-- The newest kept element of a list given in reverse, when `skip` elements after
it still wait for one to cancel. -/
def newest : (skip : Nat) → List α → Option α
  | _, [] => none
  | skip, x :: xs =>
    if stay x then newest skip xs
    else if up x then newest (skip + 1) xs
    else if skip = 0 then some x
    else newest (skip - 1) xs

variable {stay up} {kept xs ys : List α} {x : α}

theorem settle_append : settle stay up kept (xs ++ ys) = settle stay up (settle stay up kept xs) ys :=
  List.foldl_append

/-- Elements that stand for nothing may be left out. -/
theorem settle_filter {nothing : α → Bool} (silent : ∀ x, nothing x → stay x) (kept xs : List α) :
    settle stay up kept (xs.filter (!nothing ·)) = settle stay up kept xs := by
  induction xs generalizing kept with
  | nil => rfl
  | cons x xs ih =>
    by_cases empty : nothing x
    · have same : push stay up kept x = kept := if_pos (silent x empty)
      rw [List.filter_cons_of_neg (by simp [empty]), ih, settle, settle, List.foldl_cons, same]
    · rw [List.filter_cons_of_pos (by simp [empty]), settle, List.foldl_cons]
      exact ih _

theorem settle_plain (plain : ∀ x ∈ xs, stay x = false ∧ up x = false) :
    settle stay up kept xs = xs.reverse ++ kept := by
  induction xs generalizing kept with
  | nil => rfl
  | cons x xs ih =>
    obtain ⟨named, down⟩ := plain x List.mem_cons_self
    have pushed : push stay up kept x = x :: kept := by simp [push, named, down]
    rw [settle, List.foldl_cons, pushed, List.reverse_cons, List.append_assoc]
    exact ih fun y member => plain y (List.mem_cons_of_mem x member)

theorem mem_settle (member : x ∈ settle stay up kept xs) :
    x ∈ kept ∨ x ∈ xs ∧ stay x = false ∧ up x = false := by
  induction xs generalizing kept with
  | nil => exact .inl member
  | cons y xs ih =>
    rcases ih member with before | ⟨inside, plain⟩
    · unfold push at before
      split at before
      · exact .inl before
      · split at before
        · exact .inl (List.mem_of_mem_tail before)
        · rcases List.mem_cons.mp before with rfl | older
          · exact .inr ⟨List.mem_cons_self, by simp_all⟩
          · exact .inl older
    · exact .inr ⟨List.mem_cons_of_mem y inside, plain⟩

/-- Below `skip` kept elements stands the newest one that `skip` later elements leave. -/
theorem drop_settle_head (skip : Nat) (xs : List α) :
    ((settle stay up [] xs).drop skip).head? = newest stay up skip xs.reverse := by
  induction xs using List.reverseRecOn generalizing skip with
  | nil => simp [settle, newest]
  | append_singleton xs x ih =>
    rw [settle_append, List.reverse_append]
    change ((push stay up (settle stay up [] xs) x).drop skip).head? = newest stay up skip (x :: xs.reverse)
    rw [push, newest]
    split
    · exact ih skip
    · split
      · rw [List.drop_tail]
        exact ih (skip + 1)
      · cases skip with
        | zero => rfl
        | succ skip =>
          rw [if_neg (Nat.succ_ne_zero skip)]
          exact ih skip

theorem settle_head (xs : List α) : (settle stay up [] xs).head? = newest stay up 0 xs.reverse :=
  drop_settle_head 0 xs

end Laomb.Cancel
