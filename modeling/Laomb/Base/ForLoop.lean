import Mathlib.Data.Nat.Notation

/-! A loop that counts from zero to a bound. -/
namespace Laomb.ForLoop

variable {S : Type*} {n : ℕ} {f : ℕ → S → S} {s : S}

/-- `for (i = 0; i < n; i++)`, with `f i` for its body. -/
def forRange : (n : ℕ) → (f : ℕ → S → S) → S → S
  | 0, _, s => s
  | n + 1, f, s => f n (forRange n f s)

/-- The rule for loops: `P i` holds when the body has run `i` times. -/
theorem forRange_rule {P : ℕ → S → Prop} (start : P 0 s) (step : ∀ i < n, ∀ s, P i s → P (i + 1) (f i s)) :
    P n (forRange n f s) := by
  induction n with
  | zero => exact start
  | succ n ih =>
    refine step n (Nat.lt_succ_self n) _ (ih fun i less => ?_)
    exact step i (Nat.lt_succ_of_lt less)

/-- What the body keeps, the loop keeps. -/
theorem forRange_keeps {P : S → Prop} (start : P s) (step : ∀ i < n, ∀ s, P s → P (f i s)) :
    P (forRange n f s) :=
  forRange_rule (P := fun _ => P) start step

end Laomb.ForLoop
