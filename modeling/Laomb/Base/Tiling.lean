import Mathlib.Algebra.BigOperators.Group.List.Basic
import Mathlib.Algebra.Ring.Nat

/-! Things in order along a line, each with a place and a length, and the gaps between them. -/
namespace Laomb.Tiling

variable {ι : Type*} (lo len : ι → Nat)

/-- The things lie between `start` and `stop`, in the order of the list and without an overlap. -/
def Tiled : Nat → List ι → Nat → Prop
  | start, [], stop => start ≤ stop
  | start, a :: l, stop => start ≤ lo a ∧ Tiled (lo a + len a) l stop

/-- Where the last thing ends. -/
def reach : Nat → List ι → Nat
  | start, [] => start
  | _, a :: l => reach (lo a + len a) l

/-- Where the first thing begins. -/
def ahead : List ι → Nat → Nat
  | [], stop => stop
  | a :: _, _ => lo a

variable {lo len} {start stop : Nat} {l xs ys : List ι} {a b : ι}

namespace Tiled

theorem start_le (tiled : Tiled lo len start l stop) : start ≤ stop := by
  induction l generalizing start with
  | nil => exact tiled
  | cons a l ih =>
    have rest := ih tiled.2
    have first := tiled.1
    omega

theorem weaken (tiled : Tiled lo len start l stop) {start' : Nat} (less : start' ≤ start) :
    Tiled lo len start' l stop := by
  cases l with
  | nil => exact Nat.le_trans less tiled
  | cons a l => exact ⟨Nat.le_trans less tiled.1, tiled.2⟩

theorem inside (tiled : Tiled lo len start l stop) (member : a ∈ l) :
    start ≤ lo a ∧ lo a + len a ≤ stop := by
  induction l generalizing start with
  | nil => exact absurd member List.not_mem_nil
  | cons b l ih =>
    rcases List.mem_cons.mp member with rfl | member
    · exact ⟨tiled.1, tiled.2.start_le⟩
    · have rest := ih tiled.2 member
      have first := tiled.1
      omega

/-- The things behind a place lie behind all before it. -/
theorem suffix (tiled : Tiled lo len start (xs ++ ys) stop) : Tiled lo len (reach lo len start xs) ys stop := by
  induction xs generalizing start with
  | nil => exact tiled
  | cons b xs ih => exact ih tiled.2

theorem reach_le (tiled : Tiled lo len start (xs ++ ys) stop) :
    start ≤ reach lo len start xs ∧ reach lo len start xs ≤ ahead lo ys stop := by
  induction xs generalizing start with
  | nil =>
    cases ys with
    | nil => exact ⟨Nat.le_refl _, tiled⟩
    | cons c ys => exact ⟨Nat.le_refl _, tiled.1⟩
  | cons b xs ih =>
    have rest := ih tiled.2
    have first := tiled.1
    exact ⟨by simp only [reach]; omega, rest.2⟩

theorem le_reach (tiled : Tiled lo len start (xs ++ ys) stop) (member : b ∈ xs) :
    lo b + len b ≤ reach lo len start xs := by
  induction xs generalizing start with
  | nil => exact absurd member List.not_mem_nil
  | cons c xs ih =>
    rcases List.mem_cons.mp member with rfl | member
    · exact (reach_le tiled.2).1
    · exact ih tiled.2 member

theorem ahead_le (tiled : Tiled lo len start (xs ++ ys) stop) (member : b ∈ ys) : ahead lo ys stop ≤ lo b := by
  cases ys with
  | nil => exact absurd member List.not_mem_nil
  | cons c ys =>
    rcases List.mem_cons.mp member with rfl | member
    · exact Nat.le_refl _
    · have later := (suffix tiled).2.inside member
      change lo c ≤ lo b
      omega

/-- A thing that fits into the gap between `xs` and `ys` can be put there. -/
theorem insert (tiled : Tiled lo len start (xs ++ ys) stop) (low : reach lo len start xs ≤ lo a)
    (high : lo a + len a ≤ ahead lo ys stop) : Tiled lo len start (xs ++ a :: ys) stop := by
  induction xs generalizing start with
  | nil =>
    refine ⟨low, ?_⟩
    cases ys with
    | nil => exact high
    | cons c ys => exact ⟨high, tiled.2⟩
  | cons b xs ih => exact ⟨tiled.1, ih tiled.2 low⟩

theorem erase (tiled : Tiled lo len start (xs ++ a :: ys) stop) : Tiled lo len start (xs ++ ys) stop := by
  induction xs generalizing start with
  | nil =>
    obtain ⟨first, rest⟩ := tiled
    exact rest.weaken (by omega)
  | cons b xs ih => exact ⟨tiled.1, ih tiled.2⟩

/-- All lengths together are at most the space. -/
theorem sum_le (tiled : Tiled lo len start l stop) : start + (l.map len).sum ≤ stop := by
  induction l generalizing start with
  | nil => exact tiled
  | cons a l ih =>
    have rest := ih tiled.2
    have first := tiled.1
    rw [List.map_cons, List.sum_cons]
    omega

theorem pairwise (tiled : Tiled lo len start l stop) : l.Pairwise fun a b => lo a + len a ≤ lo b := by
  induction l generalizing start with
  | nil => exact .nil
  | cons a l ih => exact .cons (fun b member => (tiled.2.inside member).1) (ih tiled.2)

end Tiled
end Laomb.Tiling
