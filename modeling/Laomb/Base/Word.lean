import Mathlib.Data.Nat.Bitwise

/-! Unsigned machine arithmetic on natural numbers: truncation to 32 bits and
alignment to a power of two by masking. -/
namespace Laomb.Word

/-- Truncation to an unsigned 32-bit word. -/
def u32 (x : Nat) : Nat := x % 2 ^ 32

theorem u32_lt (x : Nat) : u32 x < 2 ^ 32 := Nat.mod_lt x (by decide)

theorem u32_of_lt {x : Nat} (h : x < 2 ^ 32) : u32 x = x := Nat.mod_eq_of_lt h

/-- Unsigned 32-bit subtraction. -/
def sub32 (x y : Nat) : Nat := u32 (u32 x + 2 ^ 32 - u32 y)

/-- `x & ~(align - 1)` in a `w`-bit type. -/
def alignDown (w x align : Nat) : Nat := x &&& (2 ^ w - align)

/-- `(x + align - 1) & ~(align - 1)` in a `w`-bit type. -/
def alignUp (w x align : Nat) : Nat := alignDown w ((x + align - 1) % 2 ^ w) align

theorem testBit_complement_mask {w k : Nat} (order : k ≤ w) (i : Nat) :
    (2 ^ w - 2 ^ k).testBit i = (decide (k ≤ i) && decide (i < w)) := by
  have factored : 2 ^ w - 2 ^ k = 2 ^ k * (2 ^ (w - k) - 1) := by
    rw [Nat.mul_sub, ← Nat.pow_add, Nat.add_sub_cancel' order, Nat.mul_one]
  rw [factored, Nat.testBit_two_pow_mul, Nat.testBit_two_pow_sub_one]
  by_cases low : k ≤ i
  · simp only [low, decide_true, Bool.true_and, decide_eq_decide]
    omega
  · simp only [low, decide_false, Bool.false_and]

theorem alignDown_pow {w k x : Nat} (order : k ≤ w) (bound : x < 2 ^ w) :
    alignDown w x (2 ^ k) = x / 2 ^ k * 2 ^ k := by
  apply Nat.eq_of_testBit_eq
  intro i
  rw [alignDown, Nat.testBit_and, testBit_complement_mask order, Nat.testBit_mul_two_pow,
    Nat.testBit_div_two_pow]
  by_cases low : k ≤ i
  · simp only [low, decide_true, Bool.true_and, Nat.sub_add_cancel low]
    by_cases high : i < w
    · simp only [high, decide_true, Bool.and_true]
    · have clear : x.testBit i = false :=
        Nat.testBit_lt_two_pow (Nat.lt_of_lt_of_le bound (Nat.pow_le_pow_right (by decide) (by omega)))
      simp only [clear, Bool.false_and]
  · simp only [low, decide_false, Bool.false_and, Bool.and_false]

theorem alignUp_pow {w k x : Nat} (order : k ≤ w) :
    alignUp w x (2 ^ k) = (x + 2 ^ k - 1) % 2 ^ w / 2 ^ k * 2 ^ k := by
  rw [alignUp, alignDown_pow order (Nat.mod_lt _ (Nat.two_pow_pos w))]

end Laomb.Word
