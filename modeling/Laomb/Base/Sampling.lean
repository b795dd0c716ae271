import Mathlib.Order.PiLex

/-! A value of several digits that grows while its digits are read one after another, the most
significant first. What has been read never exceeds the value at the end, but may be less than
that at the beginning. -/
namespace Laomb.Sampling

variable {ι T α : Type*} [LinearOrder ι] [WellFoundedLT ι] [Preorder T] [LinearOrder α]
  {clock : T → ι → α} {moments : ι → T} {x y : ι → α} {i : ι} {s t : T}

/-- Each digit as it is at its own moment. -/
def sampled (clock : T → ι → α) (moments : ι → T) : ι → α := fun i => clock (moments i) i

/-- Where a digit is less, one before it has to be more. -/
theorem toLex_le_iff : toLex x ≤ toLex y ↔ ∀ j, y j < x j → ∃ i < j, x i < y i := by
  constructor
  · intro order j less
    by_contra! none
    have same : ∀ i < j, x i = y i := fun i before => by
      induction i using WellFoundedLT.induction with
      | _ i ih =>
        have upper := Pi.apply_le_of_toLex order fun k lower => ih k lower (lower.trans before)
        exact le_antisymm upper (none i before)
    exact absurd (Pi.apply_le_of_toLex order same) (not_le.mpr less)
  · intro digits
    by_contra beyond
    obtain ⟨j, same, less⟩ := not_le.mp beyond
    obtain ⟨i, before, more⟩ := digits j less
    exact absurd (same i before) more.ne'

/-- While the digits before it agree with those that have been read, a digit has not become less. -/
theorem sampled_le_apply (grows : Monotone fun t => toLex (clock t)) (order : Monotone moments)
    (later : moments i ≤ t) (same : ∀ j < i, clock t j = sampled clock moments j) :
    sampled clock moments i ≤ clock t i := by
  induction i using WellFoundedLT.induction generalizing t with
  | _ i ih =>
    have between : toLex (clock (moments i)) ≤ toLex (clock t) := grows later
    have agreed : ∀ j < i, clock (moments i) j = clock t j := fun j before => by
      induction j using WellFoundedLT.induction with
      | _ j inner =>
        have upper := Pi.apply_le_of_toLex between fun k lower => inner k lower (lower.trans before)
        have lower := ih j before (order before.le) fun k less => by
          rw [inner k less (less.trans before), same k (less.trans before)]
        rw [← same j before] at lower
        exact le_antisymm upper lower
    exact Pi.apply_le_of_toLex (x := clock (moments i)) between agreed

theorem sampled_le (grows : Monotone fun t => toLex (clock t)) (order : Monotone moments)
    (after : ∀ i, moments i ≤ t) : toLex (sampled clock moments) ≤ toLex (clock t) := by
  by_contra beyond
  obtain ⟨i, same, less⟩ := not_le.mp beyond
  exact absurd (sampled_le_apply grows order (after i) same) (not_le.mpr less)

/-- A digit is read set back by a carry only behind one that is read advanced. -/
def Untorn (clock : T → ι → α) (moments : ι → T) (s : T) : Prop :=
  ∀ j, clock (moments j) j < clock s j → ∃ i < j, clock s i < clock (moments i) i

omit [Preorder T] in
theorem le_sampled_iff : toLex (clock s) ≤ toLex (sampled clock moments) ↔ Untorn clock moments s :=
  toLex_le_iff

end Laomb.Sampling
