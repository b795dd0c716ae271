import Laomb.Base.Word
import Laomb.Libc.Copy

/-! `memcpy` and `memmove` with 32-bit pointers. A pointer may come to be the end of the address
space, which is 0, but is not used there. -/
namespace Laomb.Libc
open Word

variable {m m' : Memory} {dest src d s n : Nat}

/-- `while (n--) *d++ = *s++`. -/
def copyUp (m : Memory) (d s : Nat) : (n : Nat) → Memory
  | 0 => m
  | n + 1 => copyUp (Function.update m d (m s)) (u32 (d + 1)) (u32 (s + 1)) n

/-- `while (n--) *--d = *--s`. -/
def copyDown (m : Memory) (d s : Nat) : (n : Nat) → Memory
  | 0 => m
  | n + 1 =>
    let d := sub32 d 1
    let s := sub32 s 1
    copyDown (Function.update m d (m s)) d s n

def memcpy (m : Memory) (dest src n : Nat) : Nat × Memory := (dest, copyUp m dest src n)

def memmove (m : Memory) (dest src n : Nat) : Nat × Memory :=
  (dest, if dest < src then copyUp m dest src n else copyDown m (u32 (dest + n)) (u32 (src + n)) n)

/-- The `n` bytes from `dest` on are those that were at `src`, and the others have stayed. -/
structure Moved (m m' : Memory) (dest src n : Nat) : Prop where
  moved : ∀ i < n, m' (dest + i) = m (src + i)
  frame : ∀ a, (∀ i < n, a ≠ dest + i) → m' a = m a

theorem Moved.zero (m : Memory) (dest src : Nat) : Moved m m dest src 0 :=
  ⟨fun i less => absurd less (Nat.not_lt_zero i), fun _ _ => rfl⟩

/-- One more byte in front. The source of the others has not been overwritten by it. -/
theorem Moved.front (before : dest < src)
    (rest : Moved (Function.update m dest (m src)) m' (dest + 1) (src + 1) n) :
    Moved m m' dest src (n + 1) where
  moved i less := by
    cases i with
    | zero =>
      have outside : ∀ i < n, dest ≠ dest + 1 + i := fun i _ => by omega
      exact (rest.frame dest outside).trans (Function.update_self dest _ m)
    | succ i =>
      have moved := rest.moved i (Nat.lt_of_succ_lt_succ less)
      have pristine : src + 1 + i ≠ dest := by omega
      rw [Function.update_of_ne pristine] at moved
      rw [← Nat.add_assoc, Nat.add_right_comm, moved, Nat.add_right_comm, Nat.add_assoc]
  frame a outside := by
    have other : a ≠ dest := outside 0 (Nat.succ_pos n)
    have behind : ∀ i < n, a ≠ dest + 1 + i := fun i less => by
      have := outside (i + 1) (Nat.succ_lt_succ less)
      omega
    rw [rest.frame a behind, Function.update_of_ne other]

/-- One more byte at the end. -/
theorem Moved.back (before : src ≤ dest)
    (rest : Moved (Function.update m (dest + n) (m (src + n))) m' dest src n) :
    Moved m m' dest src (n + 1) where
  moved i less := by
    rcases Nat.lt_succ_iff_lt_or_eq.mp less with low | rfl
    · have pristine : src + i ≠ dest + n := by omega
      rw [rest.moved i low, Function.update_of_ne pristine]
    · have outside : ∀ j < i, dest + i ≠ dest + j := fun j _ => by omega
      exact (rest.frame (dest + i) outside).trans (Function.update_self (dest + i) _ m)
  frame a outside := by
    have other : a ≠ dest + n := outside n (Nat.lt_succ_self n)
    rw [rest.frame a fun i less => outside i (Nat.lt_succ_of_lt less), Function.update_of_ne other]

/-- Pointers that wrap behind the last byte make no difference. -/
theorem copyUp_succ (destFits : d + (n + 1) ≤ 2 ^ 32) (srcFits : s + (n + 1) ≤ 2 ^ 32) :
    copyUp m d s (n + 1) = copyUp (Function.update m d (m s)) (d + 1) (s + 1) n := by
  cases n with
  | zero => rfl
  | succ n => rw [copyUp, u32_of_lt (by omega), u32_of_lt (by omega)]

theorem sub32_one_end (d n : Nat) : sub32 (u32 (d + (n + 1))) 1 = u32 (d + n) := by
  unfold sub32 u32
  omega

theorem copyDown_succ (destFits : d + (n + 1) ≤ 2 ^ 32) (srcFits : s + (n + 1) ≤ 2 ^ 32) :
    copyDown m (u32 (d + (n + 1))) (u32 (s + (n + 1))) (n + 1) =
      copyDown (Function.update m (d + n) (m (s + n))) (u32 (d + n)) (u32 (s + n)) n := by
  rw [copyDown, sub32_one_end, sub32_one_end, u32_of_lt (by omega), u32_of_lt (by omega)]

theorem copyUp_moved (before : d < s) (destFits : d + n ≤ 2 ^ 32) (srcFits : s + n ≤ 2 ^ 32) :
    Moved m (copyUp m d s n) d s n := by
  induction n generalizing m d s with
  | zero => exact Moved.zero m d s
  | succ n ih =>
    rw [copyUp_succ destFits srcFits]
    exact Moved.front before (ih (by omega) (by omega) (by omega))

theorem copyDown_moved (before : s ≤ d) (destFits : d + n ≤ 2 ^ 32) (srcFits : s + n ≤ 2 ^ 32) :
    Moved m (copyDown m (u32 (d + n)) (u32 (s + n)) n) d s n := by
  induction n generalizing m with
  | zero => exact Moved.zero m d s
  | succ n ih =>
    rw [copyDown_succ destFits srcFits]
    exact Moved.back before (ih (by omega) (by omega))

/-- However the two ranges overlap. -/
theorem memmove_moved (m : Memory) (destFits : dest + n ≤ 2 ^ 32) (srcFits : src + n ≤ 2 ^ 32) :
    Moved m (memmove m dest src n).2 dest src n := by
  unfold memmove
  by_cases before : dest < src
  · rw [if_pos before]
    exact copyUp_moved before destFits srcFits
  · rw [if_neg before]
    exact copyDown_moved (Nat.le_of_not_lt before) destFits srcFits

/-- Three bytes one place up, where the first two of the destination are the last two of the source. -/
theorem memmove_moved_letters : Moved letters (memmove letters 9 8 3).2 9 8 3 :=
  memmove_moved letters (by decide) (by decide)

end Laomb.Libc
