import Mathlib.Logic.Function.Basic
import Laomb.Base.Terminated

/-! `strncpy`. Its second loop fills with zeros what the first has left of `n`, which still
counts the terminator that the first has copied. -/
namespace Laomb.Libc
open Terminated

abbrev Byte := BitVec 8

abbrev Memory := Nat → Byte

variable {m : Memory} {dest src n a : Nat} {text : List Byte}

/-- `while (n && (*d++ = *src++) != '\0') --n`: the memory, `d` and `n` behind it. -/
def copyLoop (m : Memory) (d src : Nat) : (n : Nat) → Memory × Nat × Nat
  | 0 => (m, d, 0)
  | n + 1 =>
    let c := m src
    let m := Function.update m d c
    if c ≠ 0 then copyLoop m (d + 1) (src + 1) n else (m, d + 1, n + 1)

/-- `while (n--) *d++ = '\0'`. -/
def fillLoop (m : Memory) (d : Nat) : (n : Nat) → Memory
  | 0 => m
  | n + 1 => fillLoop (Function.update m d 0) (d + 1) n

def strncpy (m : Memory) (dest src n : Nat) : Memory :=
  let (m, d, n) := copyLoop m dest src n
  fillLoop m d n

theorem fillLoop_apply (m : Memory) (d n a : Nat) :
    fillLoop m d n a = if d ≤ a ∧ a < d + n then 0 else m a := by
  induction n generalizing m d with
  | zero => rw [fillLoop, if_neg (by omega)]
  | succ n ih =>
    rw [fillLoop, ih]
    by_cases here : a = d
    · subst here
      rw [if_neg (by omega), if_pos (by omega), Function.update_self]
    · have same : d + 1 ≤ a ∧ a < d + 1 + n ↔ d ≤ a ∧ a < d + (n + 1) := by omega
      simp only [same, Function.update_of_ne here]

theorem strncpy_zero (m : Memory) (dest src : Nat) : strncpy m dest src 0 = m := rfl

theorem strncpy_succ (m : Memory) (dest src n : Nat) : strncpy m dest src (n + 1) =
    if m src ≠ 0 then strncpy (Function.update m dest (m src)) (dest + 1) (src + 1) n
    else fillLoop (Function.update m dest (m src)) (dest + 1) (n + 1) := by
  rw [strncpy, copyLoop]
  dsimp only
  split
  · rfl
  · rfl

/-- The string is not in the way of what is written. -/
def Apart (dest n src len : Nat) : Prop := ∀ i < n, ∀ j ≤ len, dest + i ≠ src + j

/-- What every byte is afterwards. -/
theorem strncpy_apply (string : Holds 0 (fun k => m (src + k)) text) (apart : Apart dest n src text.length)
    (a : Nat) : strncpy m dest src n a =
      if dest ≤ a ∧ a < dest + n then text[a - dest]?.getD 0
      else if a = dest + n ∧ text.length < n then 0
      else m a := by
  induction n generalizing m dest src text with
  | zero => rw [strncpy_zero, if_neg (by omega), if_neg (by omega)]
  | succ n ih =>
    rw [strncpy_succ]
    cases text with
    | nil =>
      have ended : m src = 0 := string.ended
      rw [if_neg (not_not.mpr ended), fillLoop_apply, ended]
      by_cases inside : dest ≤ a ∧ a < dest + (n + 1)
      · rw [if_pos inside, List.getElem?_nil, Option.getD_none]
        by_cases here : a = dest
        · rw [if_neg (by omega), here, Function.update_self]
        · rw [if_pos (by omega)]
      · rw [if_neg inside]
        by_cases last : a = dest + (n + 1)
        · rw [if_pos (by omega), if_pos ⟨last, Nat.succ_pos n⟩]
        · rw [if_neg (by omega), if_neg (fun both => last both.1), Function.update_of_ne (by omega)]
    | cons c rest =>
      have first : m src = c := string.elements 0 (Nat.succ_pos _)
      have nonzero : c ≠ 0 := string.nonzero c List.mem_cons_self
      have string' : Holds 0 (fun k => Function.update m dest c (src + 1 + k)) rest := by
        refine string.tail fun i inside => ?_
        have other : src + 1 + i ≠ dest := fun same =>
          apart 0 (Nat.succ_pos n) (i + 1) (Nat.succ_le_succ inside) (by omega)
        rw [Function.update_of_ne other, Nat.add_assoc, Nat.add_comm 1]
      have apart' : Apart (dest + 1) n (src + 1) rest.length := fun i less j bound same =>
        apart (i + 1) (by omega) (j + 1) (Nat.succ_le_succ bound) (by omega)
      rw [first, if_pos nonzero, ih string' apart', List.length_cons]
      by_cases inside : dest ≤ a ∧ a < dest + (n + 1)
      · rw [if_pos inside]
        by_cases here : a = dest
        · rw [if_neg (by omega), if_neg (by omega), here, Function.update_self, Nat.sub_self]
          rfl
        · have place : a - dest = (a - (dest + 1)) + 1 := by omega
          rw [if_pos (by omega), place, List.getElem?_cons_succ]
      · rw [if_neg (show ¬ (dest + 1 ≤ a ∧ a < dest + 1 + n) by omega), if_neg inside]
        have last : a = dest + 1 + n ∧ rest.length < n ↔ a = dest + (n + 1) ∧
            rest.length + 1 < n + 1 := by omega
        have other : a ≠ dest := by omega
        simp only [last, Function.update_of_ne other]

/-- The first `n` bytes are those of the string and then zeros, and the others stay. -/
def Exact (m m' : Memory) (dest : Nat) (text : List Byte) (n : Nat) : Prop :=
  (∀ a, (∀ i < n, a ≠ dest + i) → m' a = m a) ∧ ∀ i < n, m' (dest + i) = text[i]?.getD 0

/-- `strncpy` writes exactly `n` bytes if it does not meet the end of the string, or if the byte
behind them is zero already. -/
theorem strncpy_exact_iff (string : Holds 0 (fun k => m (src + k)) text)
    (apart : Apart dest n src text.length) :
    Exact m (strncpy m dest src n) dest text n ↔ n ≤ text.length ∨ m (dest + n) = 0 := by
  have after := strncpy_apply string apart
  constructor
  · rintro ⟨frame, _⟩
    have behind := frame (dest + n) fun i less => by omega
    rw [after, if_neg (by omega)] at behind
    by_cases short : text.length < n
    · rw [if_pos ⟨rfl, short⟩] at behind
      exact .inr behind.symm
    · exact .inl (Nat.le_of_not_lt short)
  · intro fits
    constructor
    · intro a outside
      have other : ¬ (dest ≤ a ∧ a < dest + n) := fun inside => outside (a - dest) (by omega) (by omega)
      rw [after, if_neg other]
      split
      · rename_i last
        rcases fits with long | zero
        · omega
        · rw [last.1, zero]
      · rfl
    · intro i less
      rw [after, if_pos (by omega), Nat.add_sub_cancel_left]

/-- `AB` at 8, and nothing but `x` elsewhere. -/
def letters : Memory := fun a => if a = 8 then 0x41 else if a = 9 then 0x42 else if a = 10 then 0 else 0x78

/-- The same with a zero in the fifth byte. -/
def zeroed : Memory := Function.update letters 4 0

theorem zeroed_holds : Holds 0 (fun k => zeroed (8 + k)) [0x41, 0x42] where
  elements := by decide
  nonzero := by decide
  ended := rfl

theorem letters_apart : Apart 0 4 8 [0x41, 0x42].length := by
  intro i less j bound
  rw [List.length_cons, List.length_singleton] at bound
  omega

theorem strncpy_exact_letters : Exact zeroed (strncpy zeroed 0 8 4) 0 [0x41, 0x42] 4 :=
  (strncpy_exact_iff zeroed_holds letters_apart).mpr (.inr rfl)

/-- Four bytes are asked for, and the fifth is cleared. -/
theorem strncpy_clears_fifth : ¬ Exact letters (strncpy letters 0 8 4) 0 [0x41, 0x42] 4 := by
  rintro ⟨frame, _⟩
  have behind := frame 4 fun i less => by omega
  revert behind
  decide

end Laomb.Libc
