import Mathlib.Algebra.GroupWithZero.Nat
import Mathlib.Order.Interval.Finset.Nat
import Mathlib.Algebra.Order.BigOperators.Group.List

/-! Disjoint half-open intervals of natural numbers, indexed by an arbitrary
list: their lengths add up to at most the space they live in. -/
namespace Laomb.Intervals

variable {ι : Type*} (lo len : ι → Nat)

/-- The number lies in the interval of `a`. -/
def Covers (a : ι) (x : Nat) : Prop := lo a ≤ x ∧ x < lo a + len a

def Separated (l : List ι) : Prop :=
  l.Pairwise (fun a b => ∀ x, Covers lo len a x → ¬ Covers lo len b x)

variable {lo len}

theorem covered_card {l : List ι} (disjoint : Separated lo len l) :
    ∃ covered : Finset Nat, covered.card = (l.map len).sum ∧
      ∀ x, x ∈ covered ↔ ∃ a ∈ l, Covers lo len a x := by
  induction l with
  | nil => exact ⟨∅, rfl, by simp⟩
  | cons a rest ih =>
    obtain ⟨apart, restDisjoint⟩ := List.pairwise_cons.mp disjoint
    obtain ⟨covered, size, spec⟩ := ih restDisjoint
    have separate : Disjoint (Finset.Ico (lo a) (lo a + len a)) covered := by
      rw [Finset.disjoint_left]
      intro x own other
      obtain ⟨b, member, covers⟩ := (spec x).mp other
      exact apart b member x (Finset.mem_Ico.mp own) covers
    refine ⟨Finset.Ico (lo a) (lo a + len a) ∪ covered, ?_, ?_⟩
    · rw [Finset.card_union_of_disjoint separate, size, Nat.card_Ico, List.map_cons, List.sum_cons]
      omega
    · intro x
      simp only [Finset.mem_union, Finset.mem_Ico, spec, List.mem_cons, exists_eq_or_imp, Covers]

theorem sum_lengths_le {l : List ι} {bound : Nat} (disjoint : Separated lo len l)
    (inside : ∀ a ∈ l, lo a + len a ≤ bound) : (l.map len).sum ≤ bound := by
  obtain ⟨covered, size, spec⟩ := covered_card disjoint
  have subset : covered ⊆ Finset.range bound := by
    intro x member
    obtain ⟨a, inList, _, high⟩ := (spec x).mp member
    exact Finset.mem_range.mpr (Nat.lt_of_lt_of_le high (inside a inList))
  rw [← size, ← Finset.card_range bound]
  exact Finset.card_le_card subset

theorem Separated.sublist {l l' : List ι} (sub : l'.Sublist l) (disjoint : Separated lo len l) :
    Separated lo len l' := List.Pairwise.sublist sub disjoint

theorem Separated.apart {l : List ι} (disjoint : Separated lo len l) {a b : ι} (ha : a ∈ l) (hb : b ∈ l)
    (distinct : a ≠ b) {x : Nat} (covers : Covers lo len a x) : ¬ Covers lo len b x := by
  have symmetric : Std.Symm (fun a b : ι => ∀ x, Covers lo len a x → ¬ Covers lo len b x) :=
    ⟨fun _ _ apart x right left => apart x left right⟩
  exact List.Pairwise.forall disjoint ha hb distinct x covers

end Laomb.Intervals
