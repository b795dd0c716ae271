import Laomb.Libc.Numbers

/-! `strtol` and `strtoll`. The threshold that foretells an overflow is compared the wrong way
round: a number without a minus is the limit from its first digit on, and one with a minus is
never stopped at it. -/
namespace Laomb.Libc
open Positional

/-- The digit that a character stands for, a letter counting from ten on. -/
def digitOf (c : Byte) : Option Int :=
  if isdigit c.toInt then some (c.toInt - 0x30)
  else if isalpha c.toInt then some (tolower c.toInt - 0x61 + 10)
  else none

/-- `while (*str)`: `result`, `valid` and `str` behind it. What `result` becomes at an overflow is
`limit` itself. -/
def convertLoop (bits : Nat) (base limit overflowThreshold result : Int) (valid : Bool) :
    (str : List Byte) → Option (Int × Bool × List Byte)
  | [] => some (result, valid, [])
  | c :: rest =>
    match digitOf c with
    | none => some (result, valid, c :: rest)
    | some digit =>
      if digit ≥ base then some (result, valid, c :: rest)
      else if result < overflowThreshold ∨ (result = overflowThreshold ∧ digit > limit.tmod base) then
        some (limit, true, c :: rest)
      else do
        let product ← checked bits (result * base)
        let result ← checked bits (product + digit)
        convertLoop bits base limit overflowThreshold result true rest

/-- What `strtol` and `strtoll` do in the bits of their types: the value, and what is stored at
`endptr` if that is no null pointer. -/
def convert (bits : Nat) (str : List Byte) (endptr : Bool) (base : Int) : Option (Int × Option (List Byte)) :=
  if base < 0 ∨ base = 1 ∨ base > 36 then some (0, none)
  else
    let start := str
    let (sign, str) := readSign (skipSpaces str)
    let limit := if sign = -1 then intMin bits else intMax bits
    -- `limit / base`
    if base = 0 then none
    else do
      let (result, valid, str) ← convertLoop bits base limit (limit.tdiv base) 0 false str
      let (result, str) := if valid then (result, str) else (0, start)
      let value ← checked bits (sign * result)
      some (value, if endptr then some str else none)

def strtol (str : List Byte) (endptr : Bool) (base : Int) : Option (Int × Option (List Byte)) :=
  convert 32 str endptr base

def strtoll (str : List Byte) (endptr : Bool) (base : Int) : Option (Int × Option (List Byte)) :=
  convert 64 str endptr base

/-- A digit of the base. -/
def isDigitOf (base : Int) (c : Byte) : Bool := (digitOf c).any (· < base)

/-- The digits of the base with which `str` begins. -/
def digitsOf (base : Int) (str : List Byte) : List Nat :=
  (str.takeWhile (isDigitOf base)).map fun c => ((digitOf c).getD 0).toNat

def sign (str : List Byte) : Int := (readSign (skipSpaces str)).1

/-- What follows the sign. -/
def body (str : List Byte) : List Byte := (readSign (skipSpaces str)).2

/-- The number of which the digits follow the sign. -/
def magnitude (base : Int) (str : List Byte) : Nat := value base.toNat (digitsOf base (body str))

def saturate (bits : Nat) (v : Int) : Int := max (intMin bits) (min (intMax bits) v)

/-- The standard conversion: the value of the longest prefix that is a number, and its end. -/
def standard (bits : Nat) (str : List Byte) (base : Int) : Int × List Byte :=
  if digitsOf base (body str) = [] then (0, str)
  else (saturate bits (sign str * magnitude base str), (body str).dropWhile (isDigitOf base))

def Standard (convert : List Byte → Bool → Int → Option (Int × Option (List Byte))) (bits : Nat)
    (str : List Byte) (endptr : Bool) (base : Int) : Prop :=
  convert str endptr base =
    some ((standard bits str base).1, if endptr then some (standard bits str base).2 else none)

/-- The strings and bases for which the threshold does no harm. -/
def Harmless (bits : Nat) (str : List Byte) (endptr : Bool) (base : Int) : Prop :=
  base ≠ 0 ∧ (digitsOf base (body str) = [] ∨
    sign str = -1 ∧ magnitude base str ≤ intMax bits ∨
    sign str = 1 ∧ endptr = false ∧ intMax bits ≤ magnitude base str)

variable {bits b v : Nat} {base limit overflowThreshold result : Int} {valid endptr : Bool} {c : Byte}
  {str rest : List Byte}

theorem digitOf_nonneg {digit : Int} (read : digitOf c = some digit) : 0 ≤ digit := by
  rw [digitOf, isdigit, isalpha, tolower, isupper] at read
  simp only [decide_eq_true_eq] at read
  split at read
  · obtain rfl := Option.some.inj read
    omega
  · split at read
    · obtain rfl := Option.some.inj read
      split <;> omega
    · exact absurd read (Option.some_ne_none digit).symm

theorem isDigitOf_iff :
    isDigitOf base c = true ↔ ∃ digit : Nat, digitOf c = some (digit : Int) ∧ digit < base := by
  rw [isDigitOf, Option.any_eq_true]
  constructor
  · rintro ⟨digit, read, small⟩
    have nonneg := digitOf_nonneg read
    refine ⟨digit.toNat, ?_, ?_⟩
    · rw [Int.toNat_of_nonneg nonneg]
      exact read
    · rw [Int.toNat_of_nonneg nonneg]
      exact of_decide_eq_true small
  · rintro ⟨digit, read, small⟩
    exact ⟨digit, read, decide_eq_true small⟩

theorem digitsOf_nil : digitsOf base [] = [] := rfl

theorem digitsOf_cons {digit : Nat} (read : digitOf c = some (digit : Int)) (small : digit < base) :
    digitsOf base (c :: rest) = digit :: digitsOf base rest := by
  have inside : isDigitOf base c = true := isDigitOf_iff.mpr ⟨digit, read, small⟩
  rw [digitsOf, List.takeWhile_cons_of_pos inside, List.map_cons, read]
  rfl

theorem digitsOf_cons_of_not (other : isDigitOf base c = false) : digitsOf base (c :: rest) = [] := by
  rw [digitsOf, List.takeWhile_cons_of_neg (by rw [other]; exact Bool.false_ne_true), List.map_nil]

/-- No digit, no change. -/
theorem convertLoop_other (other : isDigitOf base c = false) :
    convertLoop bits base limit overflowThreshold result valid (c :: rest) =
      some (result, valid, c :: rest) := by
  rw [convertLoop]
  cases read : digitOf c with
  | none => rfl
  | some digit =>
    rw [isDigitOf, read] at other
    exact if_pos (Int.not_lt.mp (of_decide_eq_false other))

theorem convertLoop_digit {digit : Nat} (read : digitOf c = some (digit : Int)) (small : digit < base) :
    convertLoop bits base limit overflowThreshold result valid (c :: rest) =
      if result < overflowThreshold ∨ (result = overflowThreshold ∧ digit > limit.tmod base) then
        some (limit, true, c :: rest)
      else (checked bits (result * base)).bind fun product =>
        (checked bits (product + digit)).bind fun result =>
        convertLoop bits base limit overflowThreshold result true rest := by
  rw [convertLoop, read]
  exact if_neg (Int.not_le.mpr small)

theorem digitsOf_nil_iff : digitsOf base str = [] ↔ ∀ c ∈ str.head?, isDigitOf base c = false := by
  cases str with
  | nil => exact iff_of_true rfl fun c member => absurd member (Option.not_mem_none c)
  | cons c rest =>
    rw [List.head?_cons]
    cases other : isDigitOf base c with
    | false => exact iff_of_true (digitsOf_cons_of_not other) fun d member =>
      Option.mem_some.mp member ▸ other
    | true =>
      obtain ⟨digit, read, small⟩ := isDigitOf_iff.mp other
      rw [digitsOf_cons read small]
      exact iff_of_false (List.cons_ne_nil _ _) fun all => Bool.false_ne_true ((all c rfl).symm.trans other)

theorem convertLoop_no_digits (none_there : digitsOf base str = []) :
    convertLoop bits base limit overflowThreshold result valid str = some (result, valid, str) := by
  cases str with
  | nil => rfl
  | cons c rest => exact convertLoop_other (digitsOf_nil_iff.mp none_there c rfl)

/-- Under a threshold above zero the first digit is taken for an overflow. -/
theorem convertLoop_positive (above : 0 < overflowThreshold) (some_there : digitsOf base str ≠ []) :
    convertLoop bits base limit overflowThreshold 0 valid str = some (limit, true, str) := by
  cases str with
  | nil => exact absurd rfl some_there
  | cons c rest =>
    cases other : isDigitOf base c with
    | false => exact absurd (digitsOf_cons_of_not other) some_there
    | true =>
      obtain ⟨digit, read, small⟩ := isDigitOf_iff.mp other
      rw [convertLoop_digit read small, if_pos (.inl above)]

/-- Over a threshold below zero a digit is taken without regard to it. -/
theorem convertLoop_below {digit : Nat} (below : overflowThreshold < 0)
    (read : digitOf c = some (digit : Int))
    (small : digit < (b : Int)) : convertLoop bits b limit overflowThreshold v valid (c :: rest) =
      if v * b + digit < 2 ^ (bits - 1) then
        convertLoop bits b limit overflowThreshold (v * b + digit : Nat) true rest
      else none := by
  have calm : ¬ ((v : Int) < overflowThreshold ∨
      ((v : Int) = overflowThreshold ∧ digit > limit.tmod b)) := by omega
  have product : (v : Int) * b = ((v * b : Nat) : Int) := rfl
  rw [convertLoop_digit read small, if_neg calm, product]
  by_cases fits : v * b < 2 ^ (bits - 1)
  · have sum : ((v * b : Nat) : Int) + digit = ((v * b + digit : Nat) : Int) := rfl
    rw [checked_natCast fits, Option.bind_some, sum]
    by_cases fits : v * b + digit < 2 ^ (bits - 1)
    · rw [checked_natCast fits, if_pos fits, Option.bind_some]
    · rw [checked_large (Nat.le_of_not_lt fits), if_neg fits, Option.bind_none]
  · rw [checked_large (Nat.le_of_not_lt fits), if_neg (by omega), Option.bind_none]

/-- And so the loop comes to the end of the digits, or to an overflow. -/
theorem convertLoop_negative (limit : Int) (valid : Bool) (str : List Byte)
    (below : overflowThreshold < 0) (pos : 0 < b) (start : v < 2 ^ (bits - 1)) :
    convertLoop bits b limit overflowThreshold v valid str =
      if extend b v (digitsOf b str) < 2 ^ (bits - 1) then
        some (((extend b v (digitsOf b str) : Nat) : Int), valid || !(digitsOf b str).isEmpty,
          str.dropWhile (isDigitOf b))
      else none := by
  induction str generalizing v valid with
  | nil =>
    rw [convertLoop, digitsOf_nil, extend_nil, if_pos start, List.isEmpty_nil, Bool.not_true, Bool.or_false]
    rfl
  | cons c rest ih =>
    cases other : isDigitOf (b : Int) c with
    | false =>
      rw [convertLoop_other other, digitsOf_cons_of_not other, extend_nil, if_pos start,
        List.dropWhile_cons_of_neg (by rw [other]; exact Bool.false_ne_true), List.isEmpty_nil, Bool.not_true,
        Bool.or_false]
    | true =>
      obtain ⟨digit, read, small⟩ := isDigitOf_iff.mp other
      rw [convertLoop_below below read small, digitsOf_cons read small, extend_cons,
        List.dropWhile_cons_of_pos other, List.isEmpty_cons, Bool.not_false, Bool.or_true]
      by_cases fits : v * b + digit < 2 ^ (bits - 1)
      · rw [if_pos fits, ih true fits, Bool.true_or]
      · rw [if_neg fits, if_neg]
        exact fun inside => fits ((le_extend pos _ _).trans_lt inside)

theorem readSign_fst (str : List Byte) : (readSign str).1 = -1 ∨ (readSign str).1 = 1 := by
  cases str with
  | nil => exact .inr rfl
  | cons c rest =>
    rw [readSign]
    split
    · exact .inl rfl
    · split
      · exact .inr rfl
      · exact .inr rfl

theorem sign_cases (str : List Byte) : sign str = -1 ∨ sign str = 1 := readSign_fst (skipSpaces str)

/-- What the functions' own check lets through. -/
def Passes (base : Int) : Prop := ¬ (base < 0 ∨ base = 1 ∨ base > 36)

theorem convert_zero (bits : Nat) (str : List Byte) (endptr : Bool) : convert bits str endptr 0 = none := by
  rw [convert, if_neg (by decide)]
  exact if_pos rfl

/-- What the call makes of the loop's outcome. -/
def finish (bits : Nat) (str : List Byte) (endptr : Bool) (out : Int × Bool × List Byte) :
    Option (Int × Option (List Byte)) :=
  let (result, last) := if out.2.1 then (out.1, out.2.2) else (0, str)
  (checked bits (sign str * result)).bind fun value => some (value, if endptr then some last else none)

def limitOf (bits : Nat) (str : List Byte) : Int := if sign str = -1 then intMin bits else intMax bits

theorem convert_eq (passes : Passes base) (some_base : base ≠ 0) :
    convert bits str endptr base =
      (convertLoop bits base (limitOf bits str) ((limitOf bits str).tdiv base) 0 false (body str)).bind
        (finish bits str endptr) := by
  rw [convert, if_neg passes]
  simp only [some_base, if_false]
  rfl

theorem finish_invalid (bits : Nat) (str rest : List Byte) (endptr : Bool) (result : Int) :
    finish bits str endptr (result, false, rest) = some (0, if endptr then some str else none) := by
  have zero : checked bits (sign str * 0) = some 0 := by
    rw [Int.mul_zero]
    exact checked_natCast (v := 0) (Nat.two_pow_pos _)
  rw [finish]
  simp only [Bool.false_eq_true, if_false]
  rw [zero]
  rfl

theorem finish_valid (bits : Nat) (str rest : List Byte) (endptr : Bool) (result : Int) :
    finish bits str endptr (result, true, rest) =
      (checked bits (sign str * result)).bind fun value =>
        some (value, if endptr then some rest else none) := by
  rw [finish]
  simp only [if_true]

/-- The limits are far enough for the threshold to have their sign. -/
theorem intMax_tdiv_pos (wide : 7 ≤ bits) (pos : 0 < b) (letters : b ≤ 36) : 0 < (intMax bits).tdiv b := by
  have power : 2 ^ 6 ≤ 2 ^ (bits - 1) := Nat.pow_le_pow_right (by decide) (by omega)
  have cast : intMax bits = ((2 ^ (bits - 1) - 1 : Nat) : Int) := by
    rw [intMax, Nat.cast_sub (by omega)]
    norm_cast
  have quotient : 0 < (2 ^ (bits - 1) - 1) / b := Nat.div_pos (by omega) pos
  rw [cast]
  exact Int.natCast_pos.mpr quotient

theorem intMin_tdiv_neg (wide : 7 ≤ bits) (pos : 0 < b) (letters : b ≤ 36) : (intMin bits).tdiv b < 0 := by
  have power : 2 ^ 6 ≤ 2 ^ (bits - 1) := Nat.pow_le_pow_right (by decide) (by omega)
  have cast : intMin bits = -((2 ^ (bits - 1) : Nat) : Int) := by
    rw [intMin]
    norm_cast
  have quotient : 0 < 2 ^ (bits - 1) / b := Nat.div_pos (by omega) pos
  rw [cast, Int.neg_tdiv]
  exact Int.neg_neg_of_pos (Int.natCast_pos.mpr quotient)

theorem le_intMax_iff : (v : Int) ≤ intMax bits ↔ v < 2 ^ (bits - 1) := by
  rw [intMax, Int.le_sub_one_iff]
  norm_cast

theorem natCast_of_passes (passes : Passes base) (some_base : base ≠ 0) :
    ∃ b : Nat, base = b ∧ 0 < b ∧ b ≤ 36 := by
  rw [Passes] at passes
  exact ⟨base.toNat, by omega, by omega, by omega⟩

/-- Without a minus the result is the limit, and the digits are left where they are. -/
theorem convert_plus (wide : 7 ≤ bits) (passes : Passes base) (some_base : base ≠ 0) (plus : sign str = 1)
    (some_there : digitsOf base (body str) ≠ []) :
    convert bits str endptr base = some (intMax bits, if endptr then some (body str) else none) := by
  obtain ⟨b, rfl, pos, letters⟩ := natCast_of_passes passes some_base
  have limit : limitOf bits str = intMax bits := if_neg (by rw [plus]; decide)
  have pow : (0 : Int) < 2 ^ (bits - 1) := Int.pow_pos (by decide)
  have fits : checked bits (1 * intMax bits) = some (intMax bits) := by
    rw [Int.one_mul, checked, if_pos ⟨by rw [intMin, intMax]; omega, Int.le_refl _⟩]
  rw [convert_eq passes some_base, limit, convertLoop_positive (intMax_tdiv_pos wide pos letters) some_there,
    Option.bind_some, finish_valid, plus, fits]
  rfl

/-- With a minus there is no limit, but what overflows has no result. -/
theorem convert_minus (wide : 7 ≤ bits) (passes : Passes base) (some_base : base ≠ 0) (minus : sign str = -1)
    (some_there : digitsOf base (body str) ≠ []) :
    convert bits str endptr base =
      if (magnitude base str : Int) ≤ intMax bits then
        some (-(magnitude base str : Int),
          if endptr then some ((body str).dropWhile (isDigitOf base)) else none)
      else none := by
  obtain ⟨b, rfl, pos, letters⟩ := natCast_of_passes passes some_base
  have limit : limitOf bits str = intMin bits := if_pos minus
  have ended := convertLoop_negative (intMin bits) false (body str) (intMin_tdiv_neg wide pos letters) pos
    (Nat.two_pow_pos (bits - 1))
  rw [convert_eq passes some_base, limit]
  apply (congrArg (Option.bind · _) ended).trans
  by_cases fits : magnitude b str < 2 ^ (bits - 1)
  · have valid : (digitsOf (b : Int) (body str)).isEmpty = false :=
      Bool.eq_false_iff.mpr fun empty => some_there (List.isEmpty_iff.mp empty)
    have back : checked bits (-1 * magnitude b str) = some (-(magnitude b str : Int)) := by
      rw [Int.neg_one_mul]
      exact checked_neg (Nat.le_of_lt fits)
    rw [if_pos (le_intMax_iff.mpr fits), valid]
    apply (congrArg (Option.bind · _) (if_pos fits)).trans
    apply (finish_valid bits str _ endptr _).trans
    rw [minus]
    exact congrArg (Option.bind · _) back
  · rw [if_neg fun inside => fits (le_intMax_iff.mp inside)]
    exact congrArg (Option.bind · _) (if_neg fits)

theorem convert_no_digits (passes : Passes base) (some_base : base ≠ 0)
    (none_there : digitsOf base (body str) = []) :
    convert bits str endptr base = some (0, if endptr then some str else none) := by
  rw [convert_eq passes some_base, convertLoop_no_digits none_there, Option.bind_some, finish_invalid]

theorem standard_no_digits (none_there : digitsOf base (body str) = []) : standard bits str base = (0, str) :=
  if_pos none_there

theorem standard_digits (some_there : digitsOf base (body str) ≠ []) : standard bits str base =
    (saturate bits (sign str * magnitude base str), (body str).dropWhile (isDigitOf base)) :=
  if_neg some_there

theorem intMin_le_intMax (bits : Nat) : intMin bits ≤ 0 ∧ 0 ≤ intMax bits := by
  have pow : (0 : Int) < 2 ^ (bits - 1) := Int.pow_pos (by decide)
  rw [intMin, intMax]
  omega

theorem saturate_eq_intMax_iff : saturate bits v = intMax bits ↔ intMax bits ≤ v := by
  have order := intMin_le_intMax bits
  rw [saturate]
  omega

theorem saturate_neg (fits : (v : Int) ≤ intMax bits) : saturate bits (-v) = -(v : Int) := by
  have opposite : intMin bits = -intMax bits - 1 := by
    rw [intMin, intMax]
    omega
  rw [saturate]
  omega

/-- Digits are passed. -/
theorem dropWhile_ne_of_digits (some_there : digitsOf base str ≠ []) :
    str.dropWhile (isDigitOf base) ≠ str := by
  intro same
  have whole := List.takeWhile_append_dropWhile (p := isDigitOf base) (l := str)
  rw [same] at whole
  apply some_there
  rw [digitsOf, List.append_left_eq_self.mp whole, List.map_nil]

theorem convert_standard_iff (wide : 7 ≤ bits) (passes : Passes base) :
    Standard (convert bits) bits str endptr base ↔ Harmless bits str endptr base := by
  rw [Standard, Harmless]
  by_cases zero : base = 0
  · subst zero
    rw [convert_zero]
    exact iff_of_false (Option.some_ne_none _).symm fun both => both.1 rfl
  by_cases there : digitsOf base (body str) = []
  · rw [convert_no_digits passes zero there, standard_no_digits there]
    exact iff_of_true rfl ⟨zero, .inl there⟩
  rw [standard_digits there]
  rcases sign_cases str with minus | plus
  · rw [convert_minus wide passes zero minus there, minus]
    by_cases fits : (magnitude base str : Int) ≤ intMax bits
    · rw [if_pos fits, Int.neg_one_mul, saturate_neg fits]
      exact iff_of_true rfl ⟨zero, .inr (.inl ⟨rfl, fits⟩)⟩
    · rw [if_neg fits]
      apply iff_of_false (Option.some_ne_none _).symm
      rintro ⟨_, empty | ⟨_, inside⟩ | ⟨other, _⟩⟩
      · exact there empty
      · exact fits inside
      · exact absurd other (by decide)
  · rw [convert_plus wide passes zero plus there, plus, Int.one_mul]
    constructor
    · intro same
      have parts := Prod.mk.inj (Option.some.inj same)
      refine ⟨zero, .inr (.inr ⟨rfl, ?_, saturate_eq_intMax_iff.mp parts.1.symm⟩)⟩
      cases endptr with
      | false => rfl
      | true => exact absurd (Option.some.inj parts.2).symm (dropWhile_ne_of_digits there)
    · rintro ⟨_, empty | ⟨other, _⟩ | ⟨_, rfl, large⟩⟩
      · exact absurd empty there
      · exact absurd other (by decide)
      · rw [saturate_eq_intMax_iff.mpr large]
        rfl

/-- The conversions are the standard one only where the threshold does not come into it. -/
theorem strtol_standard_iff (str : List Byte) (endptr : Bool) (passes : Passes base) :
    (Standard strtol 32 str endptr base ↔ Harmless 32 str endptr base) ∧
      (Standard strtoll 64 str endptr base ↔ Harmless 64 str endptr base) := by
  constructor
  · exact convert_standard_iff (by decide) passes
  · exact convert_standard_iff (by decide) passes

/-- ` -12x` in base ten. -/
theorem strtol_standard_twelve :
    Standard strtol 32 [0x20, 0x2d, 0x31, 0x32, 0x78] true 10 ∧
      Standard strtoll 64 [0x20, 0x2d, 0x31, 0x32, 0x78] true 10 := by
  have passes : Passes 10 := by
    rw [Passes]
    decide
  have both := strtol_standard_iff [0x20, 0x2d, 0x31, 0x32, 0x78] true passes
  constructor
  · apply both.1.mpr
    rw [Harmless]
    decide
  · apply both.2.mpr
    rw [Harmless]
    decide

/-- `7` is made `LONG_MAX`, and base zero is divided by. -/
theorem strtol_seven : strtol [0x37] true 10 = some (2147483647, some [0x37]) ∧
    ¬ Standard strtol 32 [0x37] true 10 ∧ strtol [0x37] true 0 = none := by
  rw [Standard]
  decide

end Laomb.Libc
