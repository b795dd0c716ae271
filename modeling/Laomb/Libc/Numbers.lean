import Laomb.Base.Positional
import Laomb.Libc.Copy

/-! Integers written and read: `itoa` and `atoi`, with their two wider siblings. What overflows a
signed type is undefined, and the call then has no result. -/
namespace Laomb.Libc
open Terminated Positional

def intMin (bits : Nat) : Int := -2 ^ (bits - 1)

def intMax (bits : Nat) : Int := 2 ^ (bits - 1) - 1

/-- The result of arithmetic in `bits` bits, if it is one of their values. -/
def checked (bits : Nat) (v : Int) : Option Int := if intMin bits ≤ v ∧ v ≤ intMax bits then some v else none

def isspace (c : Int) : Bool :=
  c = 0x20 ∨ c = 0x09 ∨ c = 0x0a ∨ c = 0x0b ∨ c = 0x0c ∨ c = 0x0d

def isdigit (c : Int) : Bool := 0x30 ≤ c ∧ c ≤ 0x39

def isupper (c : Int) : Bool := 0x41 ≤ c ∧ c ≤ 0x5a

def isalpha (c : Int) : Bool := (0x41 ≤ c ∧ c ≤ 0x5a) ∨ (0x61 ≤ c ∧ c ≤ 0x7a)

def tolower (c : Int) : Int := if isupper c then c + 32 else c

/-- `while (isspace(*str)) ++str`. A pointer into a string is what of it stands in front of its
end from there on, and a `char` is signed. -/
def skipSpaces (str : List Byte) : List Byte := str.dropWhile fun c => isspace c.toInt

/-- `-` or `+`, if one of them is there, and `str` behind it. -/
def readSign (str : List Byte) : Int × List Byte :=
  match str with
  | [] => (1, [])
  | c :: rest => if c = 0x2d then (-1, rest) else if c = 0x2b then (1, rest) else (1, str)

/-- `while (isdigit(*str))`. -/
def parseLoop (bits : Nat) (res : Int) : (str : List Byte) → Option Int
  | [] => some res
  | c :: rest =>
    if isdigit c.toInt then do
      let product ← checked bits (res * 10)
      let res ← checked bits (product + (c.toInt - 0x30))
      parseLoop bits res rest
    else some res

/-- What `atoi`, `atol` and `atoll` do in the bits of their types. -/
def parse (bits : Nat) (str : List Byte) : Option Int := do
  let (sign, str) := readSign (skipSpaces str)
  let res ← parseLoop bits 0 str
  checked bits (sign * res)

def atoi (str : List Byte) : Option Int := parse 32 str

def atol (str : List Byte) : Option Int := parse 32 str

def atoll (str : List Byte) : Option Int := parse 64 str

/-- `while (start < end)`, where `end` is `last`. -/
def reverseLoop (m : Memory) (str start last : Nat) : Memory :=
  if start < last then
    let temp := m (str + start)
    let m := Function.update m (str + start) (m (str + last))
    let m := Function.update m (str + last) temp
    reverseLoop m str (start + 1) (last - 1)
  else m
termination_by last - start

def reverse (m : Memory) (str length : Nat) : Memory := reverseLoop m str 0 (length - 1)

/-- `(rem > 9) ? (rem - 10) + 'a' : rem + '0'`, as a `char`. -/
def digitChar (rem : Int) : Byte := BitVec.ofInt 8 (if rem > 9 then (rem - 10) + 0x61 else rem + 0x30)

/-- `while (num != 0)`, at most `fuel` times: the memory and `i` behind it. A base of zero cannot
be divided by. -/
def formatLoop (bits : Nat) (str : Nat) (base : Int) :
    (fuel : Nat) → Memory → (i : Nat) → (num : Int) → Option (Memory × Nat)
  | 0, _, _, _ => none
  | fuel + 1, m, i, num =>
    if num = 0 then some (m, i)
    else if base = 0 then none
    else do
      let rem := num.tmod base
      let m := Function.update m (str + i) (digitChar rem)
      let num ← checked bits (num.tdiv base)
      formatLoop bits str base fuel m (i + 1) num

/-- What `itoa`, `ltoa` and `lltoa` do in the bits of their types: the memory afterwards. The
number halves at least in a base of two or more, and `bits` passes are enough for its digits. -/
def format (bits : Nat) (m : Memory) (num : Int) (str : Nat) (base : Int) : Option Memory :=
  if num = 0 then
    some (Function.update (Function.update m str 0x30) (str + 1) 0)
  else do
    let isNegative := num < 0 ∧ base = 10
    let num ← if isNegative then checked bits (-num) else some num
    let (m, i) ← formatLoop bits str base (bits + 1) m 0 num
    let (m, i) := if isNegative then (Function.update m (str + i) 0x2d, i + 1) else (m, i)
    some (reverse (Function.update m (str + i) 0) str i)

def itoa (m : Memory) (num : Int) (str : Nat) (base : Int) : Option Memory := format 32 m num str base

def ltoa (m : Memory) (num : Int) (str : Nat) (base : Int) : Option Memory := format 32 m num str base

def lltoa (m : Memory) (num : Int) (str : Nat) (base : Int) : Option Memory := format 64 m num str base

variable {bits b n v str i fuel : Nat} {m : Memory} {ds : List Nat} {text : List Byte}

theorem checked_natCast (fits : v < 2 ^ (bits - 1)) : checked bits v = some (v : Int) := by
  have upper : (v : Int) < 2 ^ (bits - 1) := by exact_mod_cast fits
  rw [checked, if_pos ⟨by rw [intMin]; omega, by rw [intMax]; omega⟩]

theorem checked_neg (fits : v ≤ 2 ^ (bits - 1)) : checked bits (-v) = some (-v : Int) := by
  have upper : (v : Int) ≤ 2 ^ (bits - 1) := by exact_mod_cast fits
  have pos : (0 : Int) < 2 ^ (bits - 1) := Int.pow_pos (by decide)
  rw [checked, if_pos ⟨by rw [intMin]; omega, by rw [intMax]; omega⟩]

theorem checked_large (large : 2 ^ (bits - 1) ≤ v) : checked bits v = none := by
  have lower : (2 : Int) ^ (bits - 1) ≤ v := by exact_mod_cast large
  rw [checked, if_neg fun inside => by rw [intMax] at inside; omega]

/-- `0` to `9`, then `a` to `z`. -/
def glyph (d : Nat) : Byte := if d < 10 then BitVec.ofNat 8 (0x30 + d) else BitVec.ofNat 8 (0x61 + (d - 10))

theorem digitChar_natCast {d : Nat} (small : d < 36) : digitChar d = glyph d := by
  have all : ∀ d < 36, digitChar ((d : Nat) : Int) = glyph d := by decide
  exact all d small

theorem glyph_ne_zero {d : Nat} (small : d < 36) : glyph d ≠ 0 := by
  have all : ∀ d < 36, glyph d ≠ 0 := by decide
  exact all d small

theorem glyph_toInt {d : Nat} (small : d < 10) : (glyph d).toInt = 0x30 + d := by
  have all : ∀ d < 10, (glyph d).toInt = 0x30 + d := by decide
  exact all d small

theorem isdigit_glyph {d : Nat} (small : d < 10) : isdigit (glyph d).toInt = true := by
  rw [glyph_toInt small, isdigit, decide_eq_true_eq]
  omega

theorem skipSpaces_cons {c : Byte} (visible : isspace c.toInt = false) (rest : List Byte) :
    skipSpaces (c :: rest) = c :: rest :=
  List.dropWhile_cons_of_neg (by rw [visible]; exact Bool.false_ne_true)

theorem isspace_glyph {d : Nat} (small : d < 10) : isspace (glyph d).toInt = false := by
  have all : ∀ d < 10, isspace (glyph d).toInt = false := by decide
  exact all d small

theorem readSign_glyph {d : Nat} (small : d < 10) (rest : List Byte) :
    readSign (glyph d :: rest) = (1, glyph d :: rest) := by
  have all : ∀ d < 10, glyph d ≠ 0x2d ∧ glyph d ≠ 0x2b := by decide
  rw [readSign, if_neg (all d small).1, if_neg (all d small).2]

/-- Digits are read as long as the number that they make fits. -/
theorem parseLoop_glyphs (digits : ∀ d ∈ ds, d < 10) (fits : extend 10 v ds < 2 ^ (bits - 1)) :
    parseLoop bits v (ds.map glyph) = some (extend 10 v ds : Int) := by
  induction ds generalizing v with
  | nil => rfl
  | cons d ds ih =>
    have small : d < 10 := digits d List.mem_cons_self
    rw [extend_cons] at fits ⊢
    have sum : v * 10 + d < 2 ^ (bits - 1) := (le_extend (by omega) _ ds).trans_lt fits
    have product : checked bits ((v : Int) * 10) = some ((v * 10 : Nat) : Int) :=
      checked_natCast ((Nat.le_add_right _ d).trans_lt sum)
    have added : checked bits (((v * 10 : Nat) : Int) + (d : Int)) = some ((v * 10 + d : Nat) : Int) :=
      checked_natCast sum
    rw [List.map_cons, parseLoop, if_pos (isdigit_glyph small), product, glyph_toInt small,
      add_sub_cancel_left]
    change (checked bits (((v * 10 : Nat) : Int) + (d : Int))).bind _ = _
    rw [added]
    exact ih (fun e member => digits e (List.mem_cons_of_mem d member)) fits

theorem parse_glyphs (digits : ∀ d ∈ ds, d < 10) (some_digit : ds ≠ [])
    (fits : value 10 ds < 2 ^ (bits - 1)) :
    parse bits (ds.map glyph) = some (value 10 ds : Int) := by
  have read := parseLoop_glyphs (v := 0) digits fits
  obtain ⟨d, rest, rfl⟩ := List.exists_cons_of_ne_nil some_digit
  have small : d < 10 := digits d List.mem_cons_self
  rw [List.map_cons] at read
  rw [List.map_cons, parse, skipSpaces_cons (isspace_glyph small), readSign_glyph small]
  change (parseLoop bits (0 : Nat) _).bind _ = _
  rw [read]
  change checked bits (1 * _) = _
  rw [Int.one_mul]
  exact checked_natCast fits

theorem parse_minus (digits : ∀ d ∈ ds, d < 10) (fits : value 10 ds < 2 ^ (bits - 1)) :
    parse bits (0x2d :: ds.map glyph) = some (-value 10 ds : Int) := by
  have read := parseLoop_glyphs (v := 0) digits fits
  rw [parse, skipSpaces_cons (by decide), readSign, if_pos rfl]
  change (parseLoop bits (0 : Nat) _).bind _ = _
  rw [read]
  change checked bits (-1 * _) = _
  rw [Int.neg_one_mul]
  exact checked_neg (Nat.le_of_lt fits)

theorem reverseLoop_apply (m : Memory) (str start last k : Nat) :
    reverseLoop m str start last (str + k) =
      if start ≤ k ∧ k ≤ last then m (str + (start + last - k)) else m (str + k) := by
  fun_induction reverseLoop m str start last with
  | case1 m start last less temp m₁ m₂ ih =>
    have swapped (a : Nat) : m₂ a =
        if a = str + last then m (str + start) else if a = str + start then m (str + last) else m a := by
      simp only [m₂, m₁, temp, Function.update_apply]
    rw [ih]
    by_cases inner : start + 1 ≤ k ∧ k ≤ last - 1
    · have mirror : start + 1 + (last - 1) - k = start + last - k := by omega
      rw [if_pos inner, if_pos (by omega), mirror, swapped, if_neg (by omega), if_neg (by omega)]
    · rw [if_neg inner, swapped]
      by_cases first : k = start
      · rw [if_neg (by omega), if_pos (by omega), if_pos (by omega), first, Nat.add_sub_cancel_left]
      · by_cases final : k = last
        · rw [if_pos (by omega), if_pos (by omega), final, Nat.add_sub_cancel]
        · rw [if_neg (by omega), if_neg (by omega), if_neg (by omega)]
  | case2 m start last more =>
    by_cases inside : start ≤ k ∧ k ≤ last
    · have middle : start + last - k = k := by omega
      rw [if_pos inside, middle]
    · rw [if_neg inside]

/-- What is written is turned round, and ends where it did. -/
theorem reverse_holds (m : Memory) (str : Nat) (nonzero : ∀ c ∈ text, c ≠ 0) :
    Holds 0 (fun k => reverse (overlay m str (text ++ [0])) str text.length (str + k)) text.reverse := by
  have longer : text.length < (text ++ [0]).length := by
    rw [List.length_append]
    exact Nat.lt_succ_self _
  have place (k : Nat) (inside : k < text.length) : overlay m str (text ++ [0]) (str + k) = text[k] := by
    rw [overlay_getElem m str _ (inside.trans longer), List.getElem_append_left inside]
  have final : overlay m str (text ++ [0]) (str + text.length) = 0 := by
    rw [overlay_getElem m str _ longer, List.getElem_append_right (Nat.le_refl _), List.getElem_singleton]
  constructor
  · intro i inside
    rw [List.length_reverse] at inside
    rw [reverse, reverseLoop_apply, if_pos (by omega), place _ (by omega), List.getElem_reverse]
    congr 1
    omega
  · exact fun c member => nonzero c (List.mem_reverse.mp member)
  · rw [List.length_reverse, reverse, reverseLoop_apply]
    split
    · rename_i inside
      have same : 0 + (text.length - 1) - text.length = text.length := by omega
      rw [same, final]
    · exact final

/-- The digits are written from the lowest on. -/
theorem formatLoop_eq (base : 1 < b) (letters : b ≤ 36) (fits : n < 2 ^ (bits - 1))
    (enough : (b.digits n).length < fuel) :
    formatLoop bits str b fuel m i n =
      some (overlay m (str + i) ((b.digits n).map glyph), i + (b.digits n).length) := by
  induction fuel generalizing m i n with
  | zero => exact absurd enough (Nat.not_lt_zero _)
  | succ fuel ih =>
    rw [formatLoop]
    by_cases zero : n = 0
    · rw [zero, if_pos Int.natCast_zero, Nat.digits_zero]
      rfl
    · have digits : b.digits n = n % b :: b.digits (n / b) := Nat.digits_def' base (Nat.pos_of_ne_zero zero)
      have small : n % b < 36 := (Nat.mod_lt n (Nat.zero_lt_of_lt base)).trans_le letters
      have quotient : n / b < 2 ^ (bits - 1) := (Nat.div_le_self n b).trans_lt fits
      have divided : checked bits ((n : Int).tdiv b) = some ((n / b : Nat) : Int) := checked_natCast quotient
      have remainder : (n : Int).tmod b = ((n % b : Nat) : Int) := rfl
      rw [digits, List.length_cons] at enough
      rw [if_neg (Int.natCast_ne_zero.mpr zero),
        if_neg (Int.natCast_ne_zero.mpr (Nat.ne_zero_of_lt base)), divided,
        remainder]
      dsimp only
      rw [digitChar_natCast small, digits, List.map_cons, overlay, List.length_cons]
      apply (ih quotient (Nat.lt_of_succ_lt_succ enough)).trans
      rw [Nat.add_assoc str i 1, Nat.add_assoc i 1, Nat.add_comm 1]

theorem digits_length_le (base : 1 < b) (fits : n < 2 ^ (bits - 1)) : (b.digits n).length < bits + 1 := by
  apply Nat.lt_succ_of_le
  apply (Nat.digits_length_le_iff base n).mpr
  calc n < 2 ^ (bits - 1) := fits
    _ ≤ 2 ^ bits := Nat.pow_le_pow_right (by decide) (Nat.sub_le bits 1)
    _ ≤ b ^ bits := Nat.pow_le_pow_left base bits

theorem glyphs_ne_zero (letters : b ≤ 36) (digits : ∀ d ∈ ds, d < b) : ∀ c ∈ ds.map glyph, c ≠ 0 := by
  intro c member
  obtain ⟨d, inside, rfl⟩ := List.mem_map.mp member
  exact glyph_ne_zero ((digits d inside).trans_le letters)

/-- Without a sign, the numeral is what is written. -/
theorem format_natCast (m : Memory) (str : Nat) (base : 1 < b) (letters : b ≤ 36)
    (fits : n < 2 ^ (bits - 1)) :
    ∃ m', format bits m n str b = some m' ∧ Holds 0 (fun k => m' (str + k)) ((numeral b n).map glyph) := by
  have digits := (canonical_numeral base n).digits
  have nonzero := glyphs_ne_zero letters digits
  by_cases zero : n = 0
  · subst zero
    refine ⟨_, if_pos Int.natCast_zero, ?_⟩
    rw [numeral_zero]
    constructor
    · intro i inside
      obtain rfl : i = 0 := Nat.lt_one_iff.mp inside
      exact (Function.update_of_ne (Nat.ne_of_lt (Nat.lt_succ_self str)) 0 _).trans
        (Function.update_self _ _ _)
    · decide
    · exact Function.update_self _ _ _
  · rw [numeral_pos zero, List.map_reverse] at nonzero ⊢
    refine ⟨_, ?_, reverse_holds m str fun c member => nonzero c (List.mem_reverse.mpr member)⟩
    have positive : ¬ ((n : Int) < 0 ∧ (b : Int) = 10) := fun both => by omega
    rw [format, if_neg (Int.natCast_ne_zero.mpr zero)]
    simp only [positive, if_false]
    refine (congrArg (Option.bind · _)
      (formatLoop_eq base letters fits (digits_length_le base fits))).trans ?_
    rw [overlay_concat, List.length_map, Nat.zero_add]
    rfl

/-- In base ten a negative number has its sign in front. -/
theorem format_neg (m : Memory) (str : Nat) (pos : n ≠ 0) (fits : n < 2 ^ (bits - 1)) :
    ∃ m', format bits m (-n) str 10 = some m' ∧
      Holds 0 (fun k => m' (str + k)) (0x2d :: (numeral 10 n).map glyph) := by
  have canonical : Canonical 10 (numeral 10 n) := canonical_numeral (by decide) n
  have nonzero := glyphs_ne_zero (by decide) canonical.digits
  have whole : (0x2d : Byte) :: (numeral 10 n).map glyph =
      (((Nat.digits 10 n).map glyph) ++ [0x2d]).reverse := by
    rw [numeral_pos pos, List.map_reverse, List.reverse_append]
    rfl
  have nonzero' : ∀ c ∈ ((Nat.digits 10 n).map glyph) ++ [0x2d], c ≠ 0 := by
    intro c member
    rcases List.mem_cons.mp (whole ▸ List.mem_reverse.mpr member) with rfl | member
    · decide
    · exact nonzero c member
  rw [whole]
  refine ⟨_, ?_, reverse_holds m str nonzero'⟩
  have negative : (-n : Int) < 0 ∧ (10 : Int) = 10 := ⟨by omega, rfl⟩
  have some_number : (-n : Int) ≠ 0 := by omega
  have taken : checked bits (- -(n : Int)) = some (n : Int) := by
    rw [Int.neg_neg]
    exact checked_natCast fits
  rw [format, if_neg some_number]
  simp only [negative, and_self, if_true, taken]
  refine (congrArg (Option.bind · _) (formatLoop_eq (b := 10) (by decide) (by decide) fits
    (digits_length_le (by decide) fits))).trans ?_
  rw [overlay_concat, overlay_concat, List.length_append, List.length_map, Nat.zero_add]
  rfl

def InRange (bits : Nat) (n : Int) : Prop := intMin bits ≤ n ∧ n ≤ intMax bits

/-- `-` perhaps, and decimal digits, of which the first is no zero unless it is the only one. -/
def Decimal (text : List Byte) : Prop :=
  ∃ ds, Canonical 10 ds ∧ (text = ds.map glyph ∨ text = 0x2d :: ds.map glyph)

/-- What is written is a decimal number, and is read as `n` again. -/
def RoundTrips (format : Memory → Int → Nat → Int → Option Memory) (parse : List Byte → Option Int)
    (m : Memory) (str : Nat) (n : Int) : Prop :=
  ∃ m' text, format m n str 10 = some m' ∧ Holds 0 (fun k => m' (str + k)) text ∧ Decimal text ∧
    parse text = some n

/-- What is written are digits of the base, whose value is `n`. -/
def Spells (format : Memory → Int → Nat → Int → Option Memory) (m : Memory) (str : Nat) (n : Int)
    (b : Nat) : Prop :=
  ∃ m' ds, format m n str b = some m' ∧ Holds 0 (fun k => m' (str + k)) (ds.map glyph) ∧
    (∀ d ∈ ds, d < b) ∧ (value b ds : Int) = n

/-- The conversion there and back, and the other bases for numbers that are not negative. -/
def Converts (format : Memory → Int → Nat → Int → Option Memory) (parse : List Byte → Option Int)
    (m : Memory) (str : Nat) (n : Int) : Prop :=
  RoundTrips format parse m str n ∧ (0 ≤ n → ∀ b, 2 ≤ b → b ≤ 36 → Spells format m str n b)

theorem roundTrips_natCast (m : Memory) (str : Nat) (fits : n < 2 ^ (bits - 1)) :
    RoundTrips (format bits) (parse bits) m str n := by
  obtain ⟨m', written, holds⟩ := format_natCast m str (b := 10) (by decide) (by decide) fits
  have canonical := canonical_numeral (b := 10) (by decide) n
  refine ⟨m', _, written, holds, ⟨_, canonical, .inl rfl⟩, ?_⟩
  have number := value_numeral 10 n
  rw [parse_glyphs canonical.digits canonical.nonempty (by rw [number]; exact fits), number]

theorem roundTrips_neg (m : Memory) (str : Nat) (pos : n ≠ 0) (fits : n < 2 ^ (bits - 1)) :
    RoundTrips (format bits) (parse bits) m str (-n) := by
  obtain ⟨m', written, holds⟩ := format_neg m str pos fits
  have canonical := canonical_numeral (b := 10) (by decide) n
  refine ⟨m', _, written, holds, ⟨_, canonical, .inr rfl⟩, ?_⟩
  have number := value_numeral 10 n
  rw [parse_minus canonical.digits (by rw [number]; exact fits), number]

theorem spells_natCast (m : Memory) (str : Nat) (base : 2 ≤ b) (letters : b ≤ 36)
    (fits : n < 2 ^ (bits - 1)) :
    Spells (format bits) m str n b := by
  obtain ⟨m', written, holds⟩ := format_natCast m str base letters fits
  exact ⟨m', _, written, holds, (canonical_numeral base n).digits, congrArg Nat.cast (value_numeral b n)⟩

/-- The lowest number has no opposite to take. -/
theorem format_intMin (bits : Nat) (m : Memory) (str : Nat) : format bits m (intMin bits) str 10 = none := by
  have pos : (0 : Int) < 2 ^ (bits - 1) := Int.pow_pos (by decide)
  have negative : intMin bits < 0 ∧ (10 : Int) = 10 := ⟨by rw [intMin]; omega, rfl⟩
  have opposite : checked bits (- intMin bits) = none := by
    rw [checked, if_neg fun inside => by rw [intMin, intMax] at inside; omega]
  rw [format, if_neg (Int.ne_of_lt negative.1)]
  simp only [negative, and_self, if_true, opposite]
  rfl

theorem converts_iff (m : Memory) (str : Nat) {n : Int} (range : InRange bits n) :
    Converts (format bits) (parse bits) m str n ↔ n ≠ intMin bits := by
  constructor
  · rintro ⟨⟨m', text, written, _⟩, _⟩ rfl
    rw [format_intMin] at written
    exact Option.some_ne_none m' written.symm
  · intro inner
    rw [InRange, intMin, intMax] at range
    rw [intMin] at inner
    have bound : (n.natAbs : Int) < 2 ^ (bits - 1) := by omega
    have fits : n.natAbs < 2 ^ (bits - 1) := by exact_mod_cast bound
    rcases Int.natAbs_eq n with positive | negative
    · rw [positive]
      exact ⟨roundTrips_natCast m str fits, fun _ b base letters => spells_natCast m str base letters fits⟩
    · by_cases zero : n.natAbs = 0
      · obtain rfl : n = 0 := Int.natAbs_eq_zero.mp zero
        exact ⟨roundTrips_natCast (n := 0) m str fits, fun _ b base letters =>
          spells_natCast m str base letters fits⟩
      · rw [negative]
        exact ⟨roundTrips_neg m str zero fits, fun nonneg => by omega⟩

/-- The three conversions are right for all numbers of their type but the lowest. -/
theorem itoa_converts_iff (m : Memory) (str : Nat) :
    (∀ n, InRange 32 n → (Converts itoa atoi m str n ↔ n ≠ intMin 32)) ∧
      (∀ n, InRange 32 n → (Converts ltoa atol m str n ↔ n ≠ intMin 32)) ∧
      ∀ n, InRange 64 n → (Converts lltoa atoll m str n ↔ n ≠ intMin 64) := by
  refine ⟨fun n range => ?_, fun n range => ?_, fun n range => ?_⟩
  · exact converts_iff m str range
  · exact converts_iff m str range
  · exact converts_iff m str range

theorem itoa_converts_negative :
    Converts itoa atoi (fun _ => 0) 0 (-120) ∧ Converts lltoa atoll (fun _ => 0) 0 (-120) := by
  have three := itoa_converts_iff (fun _ => 0) 0
  constructor
  · apply (three.1 (-120) (by rw [InRange]; decide)).mpr
    decide
  · apply (three.2.2 (-120) (by rw [InRange]; decide)).mpr
    decide

/-- `INT_MIN` has no result. -/
theorem itoa_min_fails :
    InRange 32 (-2147483648) ∧ ¬ Converts itoa atoi (fun _ => 0) 0 (-2147483648) := by
  constructor
  · rw [InRange]
    decide
  · rintro ⟨⟨m', text, written, _⟩, _⟩
    have failed : itoa (fun _ => 0) (-2147483648) 0 10 = none := format_intMin 32 _ 0
    rw [failed] at written
    exact Option.some_ne_none m' written.symm

end Laomb.Libc
