import Laomb.PMM.BootProofs
import Laomb.PMM.Ownership

/-! Bitmap accesses against the size of the bitmap, from `pmm_init` through any
later use of the allocator. The ghost log keeps every index ever touched, so
the last state of a run speaks about all its accesses. -/
namespace Laomb.PMM
open BitMemory Word FirstFit Transition

/-- The allocator together with the pages it has ever handed out. -/
structure Session where
  pmm : Pmm
  obtained : Nat → Prop

def Session.receive (s : Session) (result : Nat × Pmm) (n : Nat) : Session :=
  ⟨result.2, fun page => s.obtained page ∨ result.1 ≠ null ∧ (⟨result.1, n⟩ : Block).Holds page⟩

/-- Frees are arbitrary as long as each page was obtained at some time: partial
and repeated frees are included. -/
inductive SessionStep : Session → Request → Session → Prop where
  | alloc (s : Session) : SessionStep s .alloc (s.receive (pmmAlloc s.pmm) 1)
  | allocPages (s : Session) (n : Nat) :
      SessionStep s (.allocPages n) (s.receive (pmmAllocPages s.pmm n) n)
  | free (s : Session) (ptr : Nat) : s.obtained (addressPage ptr) →
      SessionStep s (.free ptr) ⟨pmmFree s.pmm ptr, s.obtained⟩
  | freePages (s : Session) (address n : Nat) :
      (∀ i < n, s.obtained (u32 (addressPage address + i))) →
      SessionStep s (.freePages address n) ⟨pmmFreePages s.pmm address n, s.obtained⟩

/-- No access of `pmm_init` or of a later operation leaves the bitmap's bytes. -/
def StaysInside (map : List MemoryMapEntry) (memory : Words 8) : Prop :=
  ∀ s, Reachable SessionStep ⟨pmmInitMap map memory, fun _ => False⟩ s →
    ∀ bit ∈ s.pmm.touched, bit / 8 < (pmmInitMap map memory).bitmapSize

/-- The map suits a bitmap of `total / 8` bytes: the page count is a positive
multiple of eight below 2^20, every usable or reserved page number is below
it, and every usable entry contains a page boundary. -/
structure FitsBitmap (map : List MemoryMapEntry) : Prop where
  positive : 0 < usableTotal map
  small : usableTotal map < 2 ^ 20
  aligned : usableTotal map % 8 = 0
  reserved : ∀ page, ReservedPage map page → page < usableTotal map
  usable : ∀ page, UsablePage map page → page < usableTotal map
  bounded : ∀ e ∈ map, e.isUsable = true → ¬ e.Boundless

/-- Session invariant while the bitmap covers `8 * bytes` pages exactly. -/
structure Inside (bytes : Nat) (s : Session) : Prop where
  totalPages : s.pmm.totalPages = 8 * bytes
  logged : ∀ bit ∈ s.pmm.touched, bit < 8 * bytes
  obtained : ∀ page, s.obtained page → page < 8 * bytes

variable {map : List MemoryMapEntry} {memory : Words 8} {bytes : Nat} {s s' : Session}

namespace Inside

theorem viewed {q : Pmm} (inside : Inside bytes s) (view : Viewed s.pmm q) :
    ∀ bit ∈ q.touched, bit < 8 * bytes := by
  intro bit member
  rcases view.logged bit member with earlier | below
  · exact inside.logged bit earlier
  · exact inside.totalPages ▸ below

theorem outcome {n : Nat} {result : Nat × Pmm} (fits : 8 * bytes ≤ 2 ^ 20)
    (inside : Inside bytes s) (out : Outcome s.pmm n result) : Inside bytes (s.receive result n) := by
  cases out with
  | exhausted q _ view _ =>
    refine ⟨view.totalPages.trans inside.totalPages, inside.viewed view, ?_⟩
    rintro page (earlier | ⟨nonnull, _⟩)
    · exact inside.obtained page earlier
    · exact absurd rfl nonnull
  | found start q first view =>
    have bound := inside.totalPages ▸ first.fits.1
    refine ⟨?_, ?_, ?_⟩
    · simpa only [Session.receive, setPages_totalPages] using view.totalPages.trans inside.totalPages
    · intro bit member
      rcases (setPages_touched _ _ _ _).mp member with earlier | ⟨j, below, rfl⟩
      · exact inside.viewed view bit earlier
      · rw [u32_of_lt (by omega)]
        omega
    · rintro page (earlier | ⟨_, holds⟩)
      · exact inside.obtained page earlier
      · rcases Nat.eq_zero_or_pos n with rfl | positive
        · exact absurd holds (by simp only [Block.Holds]; omega)
        · have range := (Owned.holds_found (n := n) (by omega) page).mp holds
          omega

theorem step {r : Request} (fits : 8 * bytes ≤ 2 ^ 20) (inside : Inside bytes s)
    (stepped : SessionStep s r s') : Inside bytes s' := by
  cases stepped with
  | alloc => exact inside.outcome fits (pmmAlloc_outcome _ (by rw [inside.totalPages]; omega))
  | allocPages n =>
    rcases Nat.eq_zero_or_pos n with rfl | positive
    · obtain ⟨failed, view⟩ := pmmAllocPages_zero s.pmm
      refine ⟨view.totalPages.trans inside.totalPages, inside.viewed view, ?_⟩
      rintro page (earlier | ⟨nonnull, _⟩)
      · exact inside.obtained page earlier
      · exact absurd failed nonnull
    · exact inside.outcome fits (pmmAllocPages_outcome _ positive)
  | free ptr held =>
    refine ⟨inside.totalPages, ?_, inside.obtained⟩
    intro bit member
    rcases List.mem_cons.mp member with rfl | earlier
    · exact inside.obtained _ held
    · exact inside.logged bit earlier
  | freePages address n held =>
    refine ⟨by rw [← inside.totalPages]; exact clearPages_totalPages _ _ _, ?_, inside.obtained⟩
    intro bit member
    rcases (clearPages_touched _ _ _ _).mp member with earlier | ⟨i, below, rfl⟩
    · exact inside.logged bit earlier
    · exact inside.obtained _ (held i below)

end Inside

/-- Without an entry that misses every page boundary, the third pass visits
whole pages of usable entries only. -/
theorem swept_usable (formed : WellFormedMap map)
    (bounded : ∀ e ∈ map, e.isUsable = true → ¬ e.Boundless) {page : Nat} (swept : Swept map page) :
    UsablePage map page := by
  obtain ⟨e, member, usable, range⟩ := swept
  have below := formed.below e member
  have inside := bounded e member usable
  have first := e.alignedAddress_page (by omega)
  obtain ⟨_, full, ordinary⟩ := e.swept_range below
  have small : page < 2 ^ 20 := by
    by_cases whole : e.size = 2 ^ 32
    · rw [full inside whole] at range
      omega
    · rw [ordinary inside whole, first] at range
      unfold MemoryMapEntry.Boundless at inside
      unfold pageSize at *
      omega
  rcases (e.swept_iff below small).mp range with ⟨whole, _⟩ | ⟨boundless, _⟩
  · exact ⟨e, member, usable, whole⟩
  · exact absurd boundless inside

theorem usable_swept (formed : WellFormedMap map) (small : usableTotal map < 2 ^ 20) {page : Nat}
    (usable : UsablePage map page) : Swept map page := by
  obtain ⟨e, member, kind, whole⟩ := usable
  have below := formed.below e member
  have proper : e.size ≠ 2 ^ 32 := by
    intro full
    have counted : e.size / pageSize ≤ usableTotal map :=
      List.single_le_sum (fun _ _ => Nat.zero_le _) _
        (List.mem_map.mpr ⟨e, List.mem_filter.mpr ⟨member, kind⟩, rfl⟩)
    unfold pageSize at counted
    omega
  exact ⟨e, member, kind, (e.swept_iff below (e.wholePage_lt below whole)).mpr (Or.inl ⟨whole, proper⟩)⟩

theorem staysInside_of_fits (formed : WellFormedMap map) (fits : FitsBitmap map) :
    StaysInside map memory := by
  have length : 8 * bitmapLength map = usableTotal map := by
    rw [bitmapLength, bitmapBytes_small fits.small]
    have aligned := fits.aligned
    omega
  have positive := fits.positive
  have small := fits.small
  have initial : Inside (bitmapLength map) ⟨pmmInitMap map memory, fun _ => False⟩ := by
    refine ⟨?_, ?_, fun _ h => h.elim⟩
    · rw [pmmInitMap_totalPages _ formed, length]
    · intro bit member
      rcases (pmmInitMap_touched formed bit).mp member with rfl | reserved | swept
      · omega
      · rw [length]
        exact fits.reserved bit reserved
      · rw [length]
        exact fits.usable bit (swept_usable formed fits.bounded swept)
  intro s reached bit member
  have inside := reached.invariant (I := Inside (bitmapLength map))
    (fun _ _ _ held stepped => Inside.step (by omega) held stepped) initial
  have below := inside.logged bit member
  rw [pmmInitMap_bitmapSize _ formed]
  omega

/-- A request larger than memory reads every bit below the page count. -/
theorem touches_all (p : Pmm) {i : Nat} (below : i < p.totalPages) :
    i ∈ (pmmAllocPages p (p.totalPages + 1)).2.touched := by
  have out := pmmAllocPages_outcome p (n := p.totalPages + 1) (by omega)
  generalize pmmAllocPages p (p.totalPages + 1) = result at out
  cases out with
  | found start q first _ =>
    have bound := first.fits.1
    omega
  | exhausted q _ _ all => exact all i below

theorem fits_of_staysInside (formed : WellFormedMap map) (safe : StaysInside map memory) :
    FitsBitmap map := by
  have boot : ∀ bit, bit = 0 ∨ ReservedPage map bit ∨ Swept map bit → bit / 8 < bitmapLength map := by
    intro bit touched
    rw [← pmmInitMap_bitmapSize memory formed]
    exact safe _ (.refl _) bit ((pmmInitMap_touched formed bit).mpr touched)
  have length := bitmapLength_le formed
  have bound := usableTotal_le formed
  have nonempty := boot 0 (Or.inl rfl)
  have small : usableTotal map < 2 ^ 20 := by
    by_contra full
    have wrapped : bitmapLength map = 0 := by
      rw [bitmapLength, show usableTotal map = 2 ^ 20 by omega, bitmapBytes_full]
    omega
  have length : bitmapLength map = usableTotal map / 8 := bitmapBytes_small small
  have aligned : usableTotal map % 8 = 0 := by
    have total := pmmInitMap_totalPages memory formed
    have last := safe _ ⟨_, .single (.allocPages _ ((pmmInitMap map memory).totalPages + 1))⟩
      (usableTotal map - 1) (touches_all _ (by rw [total]; omega))
    rw [pmmInitMap_bitmapSize _ formed, length] at last
    omega
  refine ⟨by omega, small, aligned, ?_, ?_, ?_⟩
  · intro page reserved
    have := boot page (Or.inr (Or.inl reserved))
    omega
  · intro page usable
    have := boot page (Or.inr (Or.inr (usable_swept formed small usable)))
    omega
  · intro e member usable boundless
    have below := formed.below e member
    have count := (e.swept_range below).1 boundless
    have last := boot (e.alignedAddress / pageSize + (2 ^ 20 - 2))
      (Or.inr (Or.inr ⟨e, member, usable, by omega, by omega⟩))
    unfold pageSize at last
    omega

/-- The exact condition for every bitmap access to stay inside the bitmap. -/
theorem staysInside_iff (formed : WellFormedMap map) : StaysInside map memory ↔ FitsBitmap map :=
  ⟨fits_of_staysInside formed, staysInside_of_fits formed⟩

/-- Twelve free pages get a bitmap of one byte, which has no bit for the last
four: already `pmm_init` clears bits outside it. -/
theorem twelvePages_outside :
    WellFormedMap [⟨0, 0xC000, memoryTypeFree⟩] ∧
      ∀ memory, ¬ StaysInside [⟨0, 0xC000, memoryTypeFree⟩] memory := by
  have formed : WellFormedMap [⟨0, 0xC000, memoryTypeFree⟩] :=
    ⟨by simp [Intervals.Separated], by simp⟩
  refine ⟨formed, fun memory safe => ?_⟩
  have aligned := (fits_of_staysInside formed safe).aligned
  revert aligned
  decide

theorem staysInside_flat : StaysInside flatMap (fun _ => 0#8) := by
  have bounded : ¬ (⟨0, 0x10000, memoryTypeFree⟩ : MemoryMapEntry).Boundless := by decide
  have count : usableTotal flatMap = 16 := by decide
  refine (staysInside_iff flatMap_formed).mpr
    ⟨by decide, by decide, by decide, ?_, ?_, by simp [flatMap, bounded]⟩
  · rintro page ⟨held, _⟩
    have zero := (flatMap_bitmapPage page).mp held
    omega
  · intro page usable
    exact count ▸ (flatMap_usable page).mp usable

end Laomb.PMM
