import Laomb.PMM.AllocatorProofs

/-! Both allocation routines are exact first fit: they fail only when no run of
the wanted length exists, and otherwise take the lowest one and nothing else. -/
namespace Laomb.PMM
open FirstFit Word

/-- What an allocation of `n` pages answers, and what it does to the bitmap. -/
structure FitsExactly (p : Pmm) (n : Nat) (answer : Nat × Pmm) : Prop where
  refuses : answer.1 = null ∧ answer.2.bitmap = p.bitmap ↔
    ∀ start, ¬ RunAt p.Free p.totalPages n start
  takesLowest : (∃ start, RunAt p.Free p.totalPages n start) →
    ∃ start, First p.Free p.totalPages n start ∧ answer.1 = start * pageSize ∧
      ∀ page, answer.2.Used page ↔ (start ≤ page ∧ page < start + n) ∨ p.Used page
  sizes : answer.2.totalPages = p.totalPages ∧ answer.2.bitmapSize = p.bitmapSize
  inside : ∀ bit ∈ answer.2.touched, bit ∈ p.touched ∨ bit < 8 * p.bitmapSize

theorem Outcome.fitsExactly {p : Pmm} {n : Nat} {answer : Nat × Pmm} (outcome : Outcome p n answer)
    (positive : 0 < n) (covered : p.totalPages ≤ 8 * p.bitmapSize)
    (fits : p.totalPages ≤ 2 ^ 20) (zero : p.Used 0) : FitsExactly p n answer := by
  cases outcome with
  | found start q first viewed =>
    have run := first.fits
    have top := run.1
    have nonzero : start ≠ 0 := by
      rintro rfl
      exact run.2 0 (Nat.le_refl 0) (by omega) zero
    have address : pageAddress start = start * pageSize :=
      u32_of_lt (by unfold pageSize; omega)
    refine ⟨?_, ?_, ?_, ?_⟩
    · constructor
      · rintro ⟨isNull, -⟩
        exact absurd ((pageAddress_null (by omega)).mp isNull) nonzero
      · intro none
        exact absurd run (none start)
    · intro _
      refine ⟨start, first, address, ?_⟩
      intro page
      rw [setPages_used q (by omega), viewed.used]
    · exact ⟨(setPages_totalPages _ _ _).trans viewed.totalPages,
        (setPages_bitmapSize _ _ _).trans viewed.bitmapSize⟩
    · intro bit member
      rcases (setPages_touched _ _ _ _).mp member with seen | ⟨j, below, rfl⟩
      · rcases viewed.logged bit seen with before | low
        · exact Or.inl before
        · exact Or.inr (by omega)
      · rw [u32_of_lt (by omega)]
        exact Or.inr (by omega)
  | exhausted q none viewed _ =>
    refine ⟨iff_of_true ⟨rfl, viewed.bitmap⟩ none, ?_, ⟨viewed.totalPages, viewed.bitmapSize⟩, ?_⟩
    · rintro ⟨start, run⟩
      exact absurd run (none start)
    · intro bit member
      rcases viewed.logged bit member with before | low
      · exact Or.inl before
      · exact Or.inr (by omega)

theorem pmmAllocLoop_eq (q : Pmm) (start i left : Nat) (word : i + left ≤ 2 ^ 32) :
    pmmAllocLoop q i left = pmmAllocPagesLoop q 1 start 0 i left := by
  induction left generalizing q start i with
  | zero => rfl
  | succ left ih =>
    rw [pmmAllocLoop, pmmAllocPagesLoop]
    by_cases used : q.testBit i = true
    · rw [if_pos used, if_pos used]
      exact ih _ _ _ (by omega)
    · have here : u32 (i + 0) = i := by rw [Nat.add_zero, u32_of_lt (by omega)]
      rw [if_neg used, if_neg used]
      simp only [if_true, Nat.zero_add, setPages, here]

/-- One page at a time is the run of length one. -/
theorem pmmAlloc_eq (p : Pmm) (fits : p.totalPages ≤ 2 ^ 20) : pmmAlloc p = pmmAllocPages p 1 :=
  pmmAllocLoop_eq p 0 0 p.totalPages (by omega)

/-- Contiguous allocation is exact first fit, from any bitmap that covers its
pages and whose bit zero is set. -/
theorem pmmAllocPages_exact (p : Pmm) (n : Nat) (positive : 1 ≤ n)
    (covered : p.totalPages ≤ 8 * p.bitmapSize) (fits : p.totalPages ≤ 2 ^ 20) (zero : p.Used 0) :
    FitsExactly p n (pmmAllocPages p n) ∧ pmmAlloc p = pmmAllocPages p 1 :=
  ⟨(pmmAllocPages_outcome p positive).fitsExactly positive covered fits zero, pmmAlloc_eq p fits⟩

/-- Pages 0 to 3 and 6 in use: the first run of three starts at page 7. -/
def gapAtFour : Pmm := ⟨fun i => if i = 0 then 0x4F#8 else 0#8, 16, 2, []⟩

theorem pmmAllocPages_exact_gap :
    (pmmAllocPages gapAtFour 3).1 = 7 * pageSize ∧
      FitsExactly gapAtFour 3 (pmmAllocPages gapAtFour 3) ∧
      pmmAlloc gapAtFour = pmmAllocPages gapAtFour 1 :=
  ⟨by decide, pmmAllocPages_exact gapAtFour 3 (by decide) (by decide) (by decide) (by decide)⟩

end Laomb.PMM
