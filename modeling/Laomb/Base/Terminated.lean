import Mathlib.Data.List.Basic
import Mathlib.Logic.Function.Basic

/-! Sequences that end at the first of their elements to be a given one. -/
namespace Laomb.Terminated

variable {α : Type*} {zero : α} {f g : ℕ → α} {l : List α} {n : ℕ}

/-- The elements up to the first `zero`, of which one is looked for among `n`. -/
def stringOf [DecidableEq α] (zero : α) (f : ℕ → α) (n : ℕ) : List α :=
  ((List.range n).map f).takeWhile (· ≠ zero)

/-- The elements of `l` and then `zero` stand from the start on. -/
structure Holds (zero : α) (f : ℕ → α) (l : List α) : Prop where
  elements : ∀ i (h : i < l.length), f i = l[i]
  nonzero : ∀ c ∈ l, c ≠ zero
  ended : f l.length = zero

theorem Holds.stringOf_eq [DecidableEq α] (holds : Holds zero f l) (room : l.length < n) :
    stringOf zero f n = l := by
  obtain ⟨k, rfl⟩ := Nat.exists_eq_add_of_lt room
  have front : (List.range l.length).map f = l := by
    refine List.ext_getElem (by simp) fun i _ inside => ?_
    rw [List.getElem_map, List.getElem_range]
    exact holds.elements i inside
  have stop : ([f l.length] ++ (List.range k).map fun i => f (l.length + 1 + i)).takeWhile
      (· ≠ zero) = [] := by
    rw [holds.ended]
    exact List.takeWhile_cons_of_neg (by simp)
  rw [stringOf, Nat.add_right_comm, List.range_add, List.range_succ, List.map_append, List.map_append, front,
    List.append_assoc, List.takeWhile_append_of_pos fun c member => by simpa using holds.nonzero c member,
    List.map_map]
  exact (congrArg (l ++ ·) stop).trans (List.append_nil l)

theorem Holds.congr (holds : Holds zero f l) (same : ∀ i ≤ l.length, g i = f i) : Holds zero g l where
  elements i inside := (same i (Nat.le_of_lt inside)).trans (holds.elements i inside)
  nonzero := holds.nonzero
  ended := (same _ (Nat.le_refl _)).trans holds.ended

/-- Cut at one of its elements, the string is in two. -/
theorem Holds.front {front rest : List α} {c : α} (holds : Holds zero f (front ++ c :: rest))
    (kept : ∀ i < front.length, g i = f i) (cut : g front.length = zero) : Holds zero g front := by
  constructor
  · intro i inside
    rw [kept i inside, holds.elements i (by rw [List.length_append]; omega), List.getElem_append_left inside]
  · exact fun c member => holds.nonzero c (List.mem_append_left _ member)
  · exact cut

theorem Holds.back {front rest : List α} {c : α} (holds : Holds zero f (front ++ c :: rest))
    (kept : ∀ i ≤ rest.length, g i = f (front.length + 1 + i)) : Holds zero g rest := by
  constructor
  · intro i inside
    have place : front.length + 1 + i - front.length = i + 1 := by omega
    rw [kept i (Nat.le_of_lt inside), holds.elements _ (by rw [List.length_append, List.length_cons]; omega),
      List.getElem_append_right (by omega)]
    simp only [place, List.getElem_cons_succ]
  · exact fun c member => holds.nonzero c (List.mem_append_right _ (List.mem_cons_of_mem _ member))
  · have ended := holds.ended
    rw [List.length_append, List.length_cons] at ended
    rw [kept _ (Nat.le_refl _), Nat.add_right_comm, Nat.add_assoc]
    exact ended

theorem Holds.tail {rest : List α} {c : α} (holds : Holds zero f (c :: rest))
    (kept : ∀ i ≤ rest.length, g i = f (i + 1)) : Holds zero g rest := by
  have whole : Holds zero f ([] ++ c :: rest) := holds
  refine whole.back fun i inside => ?_
  rw [kept i inside, List.length_nil, Nat.zero_add, Nat.add_comm]

theorem Holds.suffix {front rest : List α} (holds : Holds zero f (front ++ rest)) :
    Holds zero (fun i => f (front.length + i)) rest := by
  constructor
  · intro i inside
    have place : front.length + i - front.length = i := by omega
    rw [holds.elements _ (by rw [List.length_append]; omega), List.getElem_append_right (by omega)]
    simp only [place]
  · exact fun c member => holds.nonzero c (List.mem_append_right front member)
  · have ended := holds.ended
    rwa [List.length_append] at ended

/-- `f` where `l` has been written from `p` on. -/
def overlay (f : ℕ → α) (p : ℕ) : List α → ℕ → α
  | [] => f
  | c :: l => overlay (Function.update f p c) (p + 1) l

theorem overlay_concat (f : ℕ → α) (p : ℕ) (l : List α) (c : α) :
    overlay f p (l ++ [c]) = Function.update (overlay f p l) (p + l.length) c := by
  induction l generalizing f p with
  | nil => rfl
  | cons a l ih =>
    rw [List.cons_append, overlay, ih, overlay, List.length_cons, Nat.add_right_comm, Nat.add_assoc]

theorem overlay_of_lt (f : ℕ → α) (p : ℕ) (l : List α) {a : ℕ} (before : a < p) : overlay f p l a = f a := by
  induction l generalizing f p with
  | nil => rfl
  | cons c l ih =>
    rw [overlay, ih _ _ (Nat.lt_succ_of_lt before), Function.update_of_ne (Nat.ne_of_lt before)]

theorem overlay_getElem (f : ℕ → α) (p : ℕ) (l : List α) {i : ℕ} (inside : i < l.length) :
    overlay f p l (p + i) = l[i] := by
  induction l generalizing f p i with
  | nil => exact absurd inside (Nat.not_lt_zero i)
  | cons c l ih =>
    rw [overlay]
    cases i with
    | zero => exact (overlay_of_lt _ _ _ (Nat.lt_succ_self p)).trans (Function.update_self p c f)
    | succ i =>
      have rest := ih (Function.update f p c) (p + 1) (Nat.lt_of_succ_lt_succ inside)
      rw [List.getElem_cons_succ, ← rest, Nat.add_right_comm, Nat.add_assoc]

end Laomb.Terminated
