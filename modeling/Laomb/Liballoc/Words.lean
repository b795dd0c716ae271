import Laomb.Liballoc.Heap

/-! What the fields of the heap's headers read after a field has been written. -/
namespace Laomb.Liballoc
open Word Libc

variable {m m' : Memory} {h : Heap} {a b v p f q g x : Nat}

theorem load32_lt (m : Memory) (a : Nat) : load32 m a < 2 ^ 32 := by
  have b₀ := (m (u32 a)).isLt
  have b₁ := (m (u32 (a + 1))).isLt
  have b₂ := (m (u32 (a + 2))).isLt
  have b₃ := (m (u32 (a + 3))).isLt
  unfold load32
  omega

theorem load32_congr (fits : a + 4 ≤ 2 ^ 32) (same : ∀ x, a ≤ x → x < a + 4 → m' x = m x) :
    load32 m' a = load32 m a := by
  have place : ∀ i < 4, u32 (a + i) = a + i := fun i less => u32_of_lt (by omega)
  have zero : u32 a = a := place 0 (by decide)
  unfold load32
  rw [zero, place 1 (by decide), place 2 (by decide), place 3 (by decide), same a (by omega) (by omega),
    same (a + 1) (by omega) (by omega), same (a + 2) (by omega) (by omega),
    same (a + 3) (by omega) (by omega)]

theorem load32_store32 (m : Memory) (bound : v < 2 ^ 32) : load32 (store32 m a v) a = v := by
  have apart : ∀ i < 4, ∀ j < 4, i ≠ j → u32 (a + i) ≠ u32 (a + j) := by
    intro i less j less' other
    unfold u32
    omega
  have d₀₁ := apart 0 (by decide) 1 (by decide) (by decide)
  have d₀₂ := apart 0 (by decide) 2 (by decide) (by decide)
  have d₀₃ := apart 0 (by decide) 3 (by decide) (by decide)
  have d₁₂ := apart 1 (by decide) 2 (by decide) (by decide)
  have d₁₃ := apart 1 (by decide) 3 (by decide) (by decide)
  have d₂₃ := apart 2 (by decide) 3 (by decide) (by decide)
  rw [Nat.add_zero] at d₀₁ d₀₂ d₀₃
  unfold load32 store32
  simp only [Function.update_self, Function.update_of_ne d₀₁, Function.update_of_ne d₀₂,
    Function.update_of_ne d₀₃, Function.update_of_ne d₁₂, Function.update_of_ne d₁₃,
    Function.update_of_ne d₂₃, BitVec.toNat_ofNat]
  omega

theorem store32_apart (m : Memory) (fits : a + 4 ≤ 2 ^ 32) (apart : x < a ∨ a + 4 ≤ x) :
    store32 m a v x = m x := by
  have place : ∀ i < 4, u32 (a + i) = a + i := fun i less => u32_of_lt (by omega)
  have zero : u32 a = a := place 0 (by decide)
  unfold store32
  rw [zero, place 1 (by decide), place 2 (by decide), place 3 (by decide)]
  rw [Function.update_of_ne (by omega), Function.update_of_ne (by omega), Function.update_of_ne (by omega),
    Function.update_of_ne (by omega)]

namespace Heap

theorem get_lt (h : Heap) (p f : Nat) : h.get p f < 2 ^ 32 := load32_lt _ _

theorem get_set (h : Heap) (p f : Nat) (bound : v < 2 ^ 32) : (h.set p f v).get p f = v :=
  load32_store32 _ bound

theorem set_memory (h : Heap) (fits : q + g + 4 ≤ 2 ^ 32) (apart : x < q + g ∨ q + g + 4 ≤ x) :
    (h.set q g v).memory x = h.memory x := store32_apart _ fits apart

theorem get_set_apart (h : Heap) (fits : p + f + 4 ≤ 2 ^ 32) (fits' : q + g + 4 ≤ 2 ^ 32)
    (apart : p + f + 4 ≤ q + g ∨ q + g + 4 ≤ p + f) : (h.set q g v).get p f = h.get p f :=
  load32_congr fits fun _ low high => store32_apart _ fits' (by omega)

/-- Two fields of one header. -/
theorem get_set_field (fits : p + 24 ≤ 2 ^ 32) (h : Heap) (f g v : Nat) (inside : f ≤ 20) (inside' : g ≤ 20)
    (apart : f + 4 ≤ g ∨ g + 4 ≤ f) : (h.set p g v).get p f = h.get p f :=
  h.get_set_apart (by omega) (by omega) (by omega)

/-- Fields of two headers. -/
theorem get_set_header (fits : p + 24 ≤ 2 ^ 32) (fits' : q + 24 ≤ 2 ^ 32) (apart : p + 24 ≤ q ∨ q + 24 ≤ p)
    (h : Heap) (f g v : Nat) (inside : f ≤ 20) (inside' : g ≤ 20) : (h.set q g v).get p f = h.get p f :=
  h.get_set_apart (by omega) (by omega) (by omega)

theorem get_congr {h h' : Heap} (fits : p + f + 4 ≤ 2 ^ 32)
    (same : ∀ x, p + f ≤ x → x < p + f + 4 → h'.memory x = h.memory x) : h'.get p f = h.get p f :=
  load32_congr fits same

end Heap

/-- The pointer that is handed out for a header at `min`. -/
def userPtr (min : Nat) : Nat := (min + sizeofMinor + alignInfo + (alignment - 1)) / alignment * alignment

theorem userPtr_bounds (min : Nat) : min + 40 ≤ userPtr min ∧ userPtr min ≤ min + 55 ∧ userPtr min % 16 = 0 := by
  unfold userPtr sizeofMinor alignInfo alignment
  omega

namespace Heap

/-- `ALIGN` of the pointer behind a header. -/
theorem align_eq (h : Heap) {min : Nat} (fits : min + 56 ≤ 2 ^ 32) :
    h.align (u32 (min + sizeofMinor)) = (userPtr min, { h with
      memory := Function.update h.memory (userPtr min - alignInfo)
        (BitVec.ofNat 8 (userPtr min - (min + sizeofMinor))) }) := by
  have low : ∀ x, x &&& (alignment - 1) = x % 16 := fun x => Nat.and_two_pow_sub_one_eq_mod x 4
  have first : u32 (u32 (min + sizeofMinor) + alignInfo) = min + 40 := by
    unfold u32 sizeofMinor alignInfo
    omega
  unfold align
  rw [first]
  dsimp only
  rw [low]
  by_cases even : (min + 40) % 16 = 0
  · have there : userPtr min = min + 40 := by
      unfold userPtr sizeofMinor alignInfo alignment
      omega
    have info : sub32 (min + 40) alignInfo = min + 40 - alignInfo := by
      unfold sub32 u32 alignInfo
      omega
    have byte : (min + 40) % 16 + alignInfo = min + 40 - (min + sizeofMinor) := by
      unfold alignInfo sizeofMinor
      omega
    rw [if_neg (not_not.mpr even), there]
    dsimp only
    rw [info, byte]
  · have there : userPtr min = min + 40 + (16 - (min + 40) % 16) := by
      unfold userPtr sizeofMinor alignInfo alignment
      omega
    have whole : u32 (min + 40 + (alignment - (min + 40) % 16)) = userPtr min := by
      rw [there]
      exact u32_of_lt (by unfold alignment; omega)
    have info : sub32 (userPtr min) alignInfo = userPtr min - alignInfo := by
      unfold sub32 u32 alignInfo
      omega
    have byte : alignment - (min + 40) % 16 + alignInfo = userPtr min - (min + sizeofMinor) := by
      rw [there]
      unfold alignInfo sizeofMinor alignment
      omega
    rw [if_pos even]
    dsimp only
    rw [whole, info, byte]

/-- `UNALIGN` finds the header behind which a pointer was handed out. -/
theorem unalign_eq {h : Heap} {min : Nat} (fits : min + 56 ≤ 2 ^ 32) (info : h.memory (userPtr min - alignInfo) =
    BitVec.ofNat 8 (userPtr min - (min + sizeofMinor))) :
    h.unalign (userPtr min) = min + sizeofMinor := by
  obtain ⟨low, high, _⟩ := userPtr_bounds min
  have place : sub32 (userPtr min) alignInfo = userPtr min - alignInfo := by
    unfold sub32 u32 alignInfo
    omega
  obtain ⟨d, diff⟩ : ∃ d, userPtr min = min + sizeofMinor + d := ⟨userPtr min - (min + 24), by
    unfold sizeofMinor
    omega⟩
  have small : d < 32 := by
    unfold sizeofMinor at diff
    omega
  have byte : ((BitVec.ofNat 8 d).signExtend 32).toNat = d := by
    have all : ∀ d < 32, ((BitVec.ofNat 8 d).signExtend 32).toNat = d := by decide
    exact all d small
  unfold unalign
  rw [place, info, diff, Nat.add_sub_cancel_left]
  dsimp only
  rw [byte, if_pos (show d < alignment + alignInfo from small)]
  unfold sub32 u32 sizeofMinor
  omega

end Heap
end Laomb.Liballoc
