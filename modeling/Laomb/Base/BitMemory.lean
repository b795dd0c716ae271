import Mathlib.Logic.Function.Basic
import Mathlib.Data.BitVec

/-! Bits packed into an unbounded memory of machine words. The word width is
arbitrary; bit `i` lives in word `i / w` at position `i % w`. -/
namespace Laomb.BitMemory

/-- Word contents by index. Bounds are a separate obligation of the client. -/
abbrev Words (w : Nat) := Nat → BitVec w

variable {w : Nat}

def bitAt (m : Words w) (i : Nat) : Bool := (m (i / w)).getLsbD (i % w)

/-- The single-bit mask of position `i` inside its word. -/
def mask (w i : Nat) : BitVec w := 1#w <<< (i % w)

def orMask (m : Words w) (i : Nat) : Words w :=
  Function.update m (i / w) (m (i / w) ||| mask w i)

def clearMask (m : Words w) (i : Nat) : Words w :=
  Function.update m (i / w) (m (i / w) &&& ~~~ mask w i)

/-- Store one word at indices `0..count`. -/
def fill (m : Words w) (count : Nat) (word : BitVec w) : Words w :=
  fun index => if index < count then word else m index

theorem getLsbD_mask (i j : Nat) (bound : j < w) :
    (mask w i).getLsbD j = decide (j = i % w) := by
  simp only [mask, BitVec.getLsbD_shiftLeft, BitVec.getLsbD_one, bound, decide_true, Bool.true_and]
  by_cases same : j = i % w
  · subst same
    simp
    omega
  · by_cases lower : j < i % w
    · simp [lower, same]
    · have distinct : j - i % w ≠ 0 := by omega
      simp [lower, same, distinct]

theorem same_bit_iff (i j : Nat) :
    j / w = i / w ∧ j % w = i % w ↔ j = i := by
  constructor
  · rintro ⟨word, position⟩
    rw [← Nat.div_add_mod j w, ← Nat.div_add_mod i w, word, position]
  · rintro rfl
    exact ⟨rfl, rfl⟩

theorem bitAt_orMask (positive : 0 < w) (m : Words w) (i j : Nat) :
    bitAt (orMask m i) j = (decide (j = i) || bitAt m j) := by
  have bound : j % w < w := Nat.mod_lt j positive
  by_cases word : j / w = i / w
  · have same := same_bit_iff (w := w) i j
    simp only [word, true_and] at same
    simp only [bitAt, orMask, word, Function.update_self, BitVec.getLsbD_or,
      getLsbD_mask i _ bound, same, Bool.or_comm]
  · have different : j ≠ i := fun same => word (same ▸ rfl)
    simp only [bitAt, orMask, Function.update_of_ne word, different, decide_false, Bool.false_or]

theorem bitAt_clearMask (positive : 0 < w) (m : Words w) (i j : Nat) :
    bitAt (clearMask m i) j = (!decide (j = i) && bitAt m j) := by
  have bound : j % w < w := Nat.mod_lt j positive
  by_cases word : j / w = i / w
  · have same := same_bit_iff (w := w) i j
    simp only [word, true_and] at same
    simp only [bitAt, clearMask, word, Function.update_self, BitVec.getLsbD_and,
      BitVec.getLsbD_not, bound, decide_true, Bool.true_and, getLsbD_mask i _ bound, same,
      Bool.and_comm]
  · have different : j ≠ i := fun same => word (same ▸ rfl)
    simp only [bitAt, clearMask, Function.update_of_ne word, different, decide_false,
      Bool.not_false, Bool.true_and]

/-- Masking a word and comparing with zero reads exactly the addressed bit. -/
theorem and_mask_ne_zero (positive : 0 < w) (m : Words w) (i : Nat) :
    (m (i / w) &&& mask w i != 0#w) = bitAt m i := by
  have bound : i % w < w := Nat.mod_lt i positive
  rw [Bool.eq_iff_iff, bne_iff_ne]
  constructor
  · intro nonzero
    by_contra clear
    apply nonzero
    apply BitVec.eq_of_getLsbD_eq
    intro j hj
    rw [BitVec.getLsbD_and, getLsbD_mask i j hj, BitVec.getLsbD_zero]
    by_cases same : j = i % w
    · subst same
      simpa only [bitAt, Bool.not_eq_true, Bool.and_eq_false_imp, decide_true, Bool.and_true]
        using clear
    · simp only [same, decide_false, Bool.and_false]
  · intro set zero
    have position := congrArg (fun word => word.getLsbD (i % w)) zero
    simp only [BitVec.getLsbD_and, getLsbD_mask i _ bound, decide_true, Bool.and_true,
      BitVec.getLsbD_zero] at position
    simp only [bitAt, position, Bool.false_eq_true] at set

theorem bitAt_fill_ones (positive : 0 < w) (m : Words w) (count i : Nat) :
    bitAt (fill m count (BitVec.allOnes w)) i = (decide (i < count * w) || bitAt m i) := by
  have bound : i % w < w := Nat.mod_lt i positive
  have inside : i / w < count ↔ i < count * w := Nat.div_lt_iff_lt_mul positive
  by_cases low : i / w < count
  · simp [bitAt, fill, low, inside.mp low, bound]
  · have high : ¬ i < count * w := fun h => low (inside.mpr h)
    simp [bitAt, fill, low, high]

end Laomb.BitMemory
