import Mathlib.Data.Nat.Digits.Lemmas

/-! Numbers in positional notation, read from the highest digit on. -/
namespace Laomb.Positional

variable {b n v d : ℕ} {ds es : List ℕ}

/-- The number that the digits `ds` make of `v`. -/
def extend (b v : ℕ) (ds : List ℕ) : ℕ := ds.foldl (fun v d => v * b + d) v

def value (b : ℕ) (ds : List ℕ) : ℕ := extend b 0 ds

theorem extend_nil (b v : ℕ) : extend b v [] = v := rfl

theorem extend_cons (b v d : ℕ) (ds : List ℕ) : extend b v (d :: ds) = extend b (v * b + d) ds := rfl

theorem le_extend (pos : 0 < b) (v : ℕ) (ds : List ℕ) : v ≤ extend b v ds := by
  induction ds generalizing v with
  | nil => exact Nat.le_refl v
  | cons d ds ih =>
    calc v ≤ v * b := Nat.le_mul_of_pos_right v pos
      _ ≤ v * b + d := Nat.le_add_right _ d
      _ ≤ extend b v (d :: ds) := ih (v * b + d)

theorem value_reverse (b : ℕ) (ds : List ℕ) : value b ds.reverse = Nat.ofDigits b ds := by
  induction ds with
  | nil => rfl
  | cons d ds ih =>
    rw [value, extend] at ih
    rw [value, extend, List.reverse_cons, List.foldl_append, ih, Nat.ofDigits_cons, Nat.mul_comm,
      Nat.add_comm]
    rfl

/-- Digits of the base, and no zero in front of others. -/
structure Canonical (b : ℕ) (ds : List ℕ) : Prop where
  digits : ∀ d ∈ ds, d < b
  nonempty : ds ≠ []
  leading : ds.head? = some 0 → ds = [0]

/-- The digits of `n`, of which zero has one as well. -/
def numeral (b n : ℕ) : List ℕ := if n = 0 then [0] else (b.digits n).reverse

theorem numeral_zero (b : ℕ) : numeral b 0 = [0] := if_pos rfl

theorem numeral_pos (pos : n ≠ 0) : numeral b n = (b.digits n).reverse := if_neg pos

theorem value_numeral (b n : ℕ) : value b (numeral b n) = n := by
  by_cases zero : n = 0
  · rw [zero, numeral_zero]
    exact Nat.zero_mul b
  · rw [numeral_pos zero, value_reverse, Nat.ofDigits_digits]

theorem canonical_numeral (base : 1 < b) (n : ℕ) : Canonical b (numeral b n) := by
  by_cases zero : n = 0
  · rw [zero, numeral_zero]
    constructor
    · intro d member
      rw [List.mem_singleton.mp member]
      exact Nat.zero_lt_of_lt base
    · exact List.cons_ne_nil 0 []
    · exact fun _ => rfl
  · rw [numeral_pos zero]
    have some_digit : b.digits n ≠ [] := Nat.digits_ne_nil_iff_ne_zero.mpr zero
    constructor
    · exact fun d member => Nat.digits_lt_base base (List.mem_reverse.mp member)
    · exact fun empty => some_digit (List.reverse_eq_nil_iff.mp empty)
    · intro first
      rw [List.head?_reverse, List.getLast?_eq_some_getLast some_digit, Option.some.injEq] at first
      exact absurd first (Nat.getLast_digit_ne_zero b zero)

end Laomb.Positional
