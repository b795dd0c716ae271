import Laomb.Base.FirstFit
import Laomb.PMM.Allocator

/-! What each allocator routine does to the bitmap, stated once. Callers use the
outcome of a scan and never unfold the scanning loops again. -/
namespace Laomb.PMM
open FirstFit Word

/-- Pages a scan may hand out. -/
def Pmm.Free (p : Pmm) (page : Nat) : Prop := ¬ p.Used page

instance (p : Pmm) (page : Nat) : Decidable (p.Free page) := inferInstanceAs (Decidable (¬ _))

/-- `q` is `p` after reading some bits below `totalPages`. -/
structure Viewed (p q : Pmm) : Prop where
  bitmap : q.bitmap = p.bitmap
  totalPages : q.totalPages = p.totalPages
  bitmapSize : q.bitmapSize = p.bitmapSize
  logged : ∀ bit ∈ q.touched, bit ∈ p.touched ∨ bit < p.totalPages

namespace Viewed

theorem refl (p : Pmm) : Viewed p p := ⟨rfl, rfl, rfl, fun _ => Or.inl⟩

theorem touch {p q : Pmm} (viewed : Viewed p q) {i : Nat} (inside : i < p.totalPages) :
    Viewed p (q.touch i) := by
  refine ⟨viewed.bitmap, viewed.totalPages, viewed.bitmapSize, ?_⟩
  intro bit member
  rcases List.mem_cons.mp member with same | earlier
  · exact Or.inr (same ▸ inside)
  · exact viewed.logged bit earlier

theorem used {p q : Pmm} (viewed : Viewed p q) (page : Nat) : q.Used page ↔ p.Used page := by
  simp only [Pmm.Used, viewed.bitmap]

end Viewed

theorem setPages_used (p : Pmm) {start count : Nat} (fits : start + count ≤ 2 ^ 32) (page : Nat) :
    (setPages p start count).Used page ↔
      (start ≤ page ∧ page < start + count) ∨ p.Used page := by
  induction count with
  | zero =>
    simp only [setPages, Nat.add_zero]
    constructor
    · exact Or.inr
    · rintro (⟨low, high⟩ | used)
      · omega
      · exact used
  | succ count ih =>
    have here : u32 (start + count) = start + count := u32_of_lt (by omega)
    rw [setPages, Pmm.setBit_used, here, ih (by omega), ← or_assoc]
    apply or_congr_left
    omega

theorem clearPages_used (p : Pmm) {start count : Nat} (fits : start + count ≤ 2 ^ 32) (page : Nat) :
    (clearPages p start count).Used page ↔
      ¬ (start ≤ page ∧ page < start + count) ∧ p.Used page := by
  induction count with
  | zero =>
    simp only [clearPages, Nat.add_zero]
    constructor
    · intro used
      exact ⟨by omega, used⟩
    · exact And.right
  | succ count ih =>
    have here : u32 (start + count) = start + count := u32_of_lt (by omega)
    rw [clearPages, Pmm.clearBit_used, here, ih (by omega), ← and_assoc]
    apply and_congr_left
    intro _
    omega

@[simp] theorem setPages_totalPages (p : Pmm) (start count : Nat) :
    (setPages p start count).totalPages = p.totalPages := by
  induction count with
  | zero => rfl
  | succ count ih => simpa only [setPages, Pmm.setBit_totalPages] using ih

@[simp] theorem setPages_bitmapSize (p : Pmm) (start count : Nat) :
    (setPages p start count).bitmapSize = p.bitmapSize := by
  induction count with
  | zero => rfl
  | succ count ih => simpa only [setPages, Pmm.setBit_bitmapSize] using ih

@[simp] theorem clearPages_totalPages (p : Pmm) (start count : Nat) :
    (clearPages p start count).totalPages = p.totalPages := by
  induction count with
  | zero => rfl
  | succ count ih => simpa only [clearPages, Pmm.clearBit_totalPages] using ih

theorem setPages_touched (p : Pmm) (start count bit : Nat) :
    bit ∈ (setPages p start count).touched ↔
      bit ∈ p.touched ∨ ∃ j < count, bit = u32 (start + j) := by
  induction count with
  | zero => simp [setPages]
  | succ count ih =>
    simp only [setPages, Pmm.setBit_touched, List.mem_cons, ih, Nat.lt_succ_iff_lt_or_eq,
      or_and_right, exists_or, exists_eq_left]
    exact or_comm.trans or_assoc

theorem clearPages_touched (p : Pmm) (start count bit : Nat) :
    bit ∈ (clearPages p start count).touched ↔
      bit ∈ p.touched ∨ ∃ j < count, bit = u32 (start + j) := by
  induction count with
  | zero => simp [clearPages]
  | succ count ih =>
    simp only [clearPages, Pmm.clearBit_touched, List.mem_cons, ih, Nat.lt_succ_iff_lt_or_eq,
      or_and_right, exists_or, exists_eq_left]
    exact or_comm.trans or_assoc

/-- The two ways an allocation of `n` pages ends: at the lowest run of `n` free
pages, or after a full scan that found none and read every bit below the bound. -/
inductive Outcome (p : Pmm) (n : Nat) : Nat × Pmm → Prop where
  | found (start : Nat) (q : Pmm) : First p.Free p.totalPages n start → Viewed p q →
      Outcome p n (pageAddress start, setPages q start n)
  | exhausted (q : Pmm) : (∀ start, ¬ RunAt p.Free p.totalPages n start) → Viewed p q →
      (∀ i < p.totalPages, i ∈ q.touched) → Outcome p n (null, q)

theorem pmmAllocPagesLoop_outcome {p q : Pmm} {n start count i left : Nat}
    (scanned : Scanned p.Free n i count) (opened : count ≠ 0 → start = i - count)
    (viewed : Viewed p q) (all : ∀ j < i, j ∈ q.touched) (bound : i + left = p.totalPages) :
    Outcome p n (pmmAllocPagesLoop q n start count i left) := by
  induction left generalizing q start count i with
  | zero =>
    have last : i = p.totalPages := by omega
    subst last
    exact .exhausted q scanned.exhausted viewed all
  | succ left ih =>
    have seen := viewed.touch (i := i) (by omega)
    have logged : ∀ j < i + 1, j ∈ (q.touch i).touched := by
      intro j below
      rw [Pmm.touch_touched]
      by_cases last : j = i
      · exact last ▸ List.mem_cons_self
      · exact List.mem_cons_of_mem _ (all j (by omega))
    rw [pmmAllocPagesLoop]
    by_cases used : q.testBit i = true
    · rw [if_pos used]
      have occupied : ¬ p.Free i :=
        not_not_intro ((viewed.used i).mp ((q.testBit_iff i).mp used))
      exact ih (scanned.skip occupied) (fun h => absurd rfl h) seen logged (by omega)
    · rw [if_neg used]
      have unused : p.Free i := fun h => used ((q.testBit_iff i).mpr ((viewed.used i).mpr h))
      have opened : (if count = 0 then i else start) = i - count := by
        split
        · omega
        · exact opened ‹_›
      simp only [opened]
      by_cases full : count + 1 = n
      · rw [if_pos full]
        exact .found _ _ (scanned.found unused full (by omega)) seen
      · rw [if_neg full]
        have short := scanned.short
        exact ih (scanned.extend unused (by omega)) (fun _ => by omega) seen logged (by omega)

theorem pmmAllocPages_outcome (p : Pmm) {n : Nat} (positive : 0 < n) :
    Outcome p n (pmmAllocPages p n) :=
  pmmAllocPagesLoop_outcome (Scanned.start positive) (fun h => absurd rfl h) (Viewed.refl p)
    (fun _ h => absurd h (Nat.not_lt_zero _)) (Nat.zero_add _)

/-- A request for zero pages scans everything and reports failure: the counter
is compared only after it was incremented. -/
theorem pmmAllocPages_zero (p : Pmm) :
    (pmmAllocPages p 0).1 = null ∧ Viewed p (pmmAllocPages p 0).2 := by
  have loop : ∀ (left i start count : Nat) (q : Pmm), Viewed p q → i + left = p.totalPages →
      (pmmAllocPagesLoop q 0 start count i left).1 = null ∧
        Viewed p (pmmAllocPagesLoop q 0 start count i left).2 := by
    intro left
    induction left with
    | zero => exact fun i start count q viewed _ => ⟨rfl, viewed⟩
    | succ left ih =>
      intro i start count q viewed bound
      have seen := viewed.touch (i := i) (by omega)
      rw [pmmAllocPagesLoop]
      by_cases used : q.testBit i = true
      · rw [if_pos used]
        exact ih _ _ _ _ seen (by omega)
      · rw [if_neg used]
        simp only [Nat.succ_ne_zero, if_false]
        exact ih _ _ _ _ seen (by omega)
  exact loop _ _ _ _ _ (Viewed.refl p) (Nat.zero_add _)

theorem pmmAllocLoop_outcome {p q : Pmm} {i left : Nat} (scanned : Scanned p.Free 1 i 0)
    (viewed : Viewed p q) (all : ∀ j < i, j ∈ q.touched) (bound : i + left = p.totalPages)
    (word : p.totalPages ≤ 2 ^ 32) :
    Outcome p 1 (pmmAllocLoop q i left) := by
  induction left generalizing q i with
  | zero =>
    have last : i = p.totalPages := by omega
    subst last
    exact .exhausted q scanned.exhausted viewed all
  | succ left ih =>
    have seen := viewed.touch (i := i) (by omega)
    rw [pmmAllocLoop]
    by_cases used : q.testBit i = true
    · rw [if_pos used]
      have occupied : ¬ p.Free i :=
        not_not_intro ((viewed.used i).mp ((q.testBit_iff i).mp used))
      refine ih (scanned.skip occupied) seen ?_ (by omega)
      intro j below
      rw [Pmm.touch_touched]
      by_cases last : j = i
      · exact last ▸ List.mem_cons_self
      · exact List.mem_cons_of_mem _ (all j (by omega))
    · rw [if_neg used]
      have unused : p.Free i := fun h => used ((q.testBit_iff i).mpr ((viewed.used i).mpr h))
      have single : (q.touch i).setBit i = setPages (q.touch i) i 1 := by
        simp only [setPages, Nat.add_zero, u32_of_lt (show i < 2 ^ 32 by omega)]
      rw [single]
      exact .found i _ (scanned.found unused rfl (by omega)) seen

theorem pmmAlloc_outcome (p : Pmm) (word : p.totalPages ≤ 2 ^ 32) : Outcome p 1 (pmmAlloc p) :=
  pmmAllocLoop_outcome (Scanned.start Nat.one_pos) (Viewed.refl p)
    (fun _ h => absurd h (Nat.not_lt_zero _)) (Nat.zero_add _) word

theorem pageAddress_page {page : Nat} (bound : page < 2 ^ 20) :
    addressPage (pageAddress page) = page := by
  unfold addressPage pageAddress u32 pageSize
  omega

theorem pageAddress_null {page : Nat} (bound : page < 2 ^ 20) :
    pageAddress page = null ↔ page = 0 := by
  unfold pageAddress u32 pageSize null
  omega

end Laomb.PMM
