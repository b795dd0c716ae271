import Mathlib.Data.Nat.Count

/-! The elements of a decidable set of numbers by rank: how many smaller elements it has
tells an element from every other, and taking the least element left takes them in order. -/
namespace Laomb.Rank

variable {P : ℕ → Prop} [DecidablePred P] {i k n rank : ℕ}

/-- `i` is the element with `rank` elements below it. -/
structure Ranked (P : ℕ → Prop) [DecidablePred P] (rank i : ℕ) : Prop where
  member : P i
  count : Nat.count P i = rank

theorem Ranked.unique (left : Ranked P rank i) (right : Ranked P rank k) : i = k :=
  Nat.count_injective left.member right.member (left.count.trans right.count.symm)

theorem Ranked.pos (ranked : Ranked P rank i) (positive : 0 < rank) : i ≠ 0 := by
  rintro rfl
  have zero := ranked.count
  rw [Nat.count_zero] at zero
  omega

theorem exists_ranked (below : rank < Nat.count P n) : ∃ i < n, Ranked P rank i := by
  induction n with
  | zero => exact absurd below (Nat.not_lt_zero _)
  | succ n ih =>
    by_cases earlier : rank < Nat.count P n
    · obtain ⟨i, less, ranked⟩ := ih earlier
      exact ⟨i, Nat.lt_succ_of_lt less, ranked⟩
    · rw [Nat.count_succ] at below
      split at below
      · rename_i member
        exact ⟨n, Nat.lt_succ_self n, member, by omega⟩
      · omega

/-- The least element that is not among the first `rank` has that rank. -/
theorem ranked_least (member : P i) (fresh : rank ≤ Nat.count P i)
    (least : ∀ k < i, P k → Nat.count P k < rank) : Ranked P rank i := by
  refine ⟨member, ?_⟩
  by_contra other
  obtain ⟨k, less, ranked⟩ := exists_ranked (Nat.lt_of_le_of_ne fresh (Ne.symm other))
  have early := least k less ranked.member
  rw [ranked.count] at early
  exact Nat.lt_irrefl _ early

end Laomb.Rank
