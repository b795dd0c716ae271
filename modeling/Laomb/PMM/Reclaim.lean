import Laomb.PMM.BootProofs

/-! `pmm_reclaim_bootloader_memory` clears the bits of the pages that lie wholly
inside a `LOADER_RECLAIMABLE` entry, with two exceptions: the unsigned page count
of an entry without a page boundary wraps to almost 2^20 pages, and the count of
an entry of all 4 GiB wraps to none. -/
namespace Laomb.PMM
open Word

/-- The page lies wholly inside a `LOADER_RECLAIMABLE` entry. -/
def ReclaimablePage (map : List MemoryMapEntry) (page : Nat) : Prop :=
  ∃ e ∈ map, e.type = memoryTypeLoaderReclaimable ∧ e.WholePage page

/-- The bits of the reclaimable pages are cleared and every other bit is kept. -/
def ReclaimsExactly (p : Pmm) (map : List MemoryMapEntry) : Prop :=
  ∀ page, (pmmReclaimBootloaderMemory p map).Used page ↔
    p.Used page ∧ ¬ ReclaimablePage map page

/-- The visited range of some reclaimable entry. -/
def Reclaimed (map : List MemoryMapEntry) (page : Nat) : Prop :=
  ∃ e ∈ map, e.type = memoryTypeLoaderReclaimable ∧
    e.alignedAddress / pageSize ≤ page ∧ page < e.alignedAddress / pageSize + e.numPages

/-- The page is in the range of a wrapped count: one of the 2^20 - 1 pages from the
aligned address of a reclaimable entry without a page boundary. -/
def WrappedPage (map : List MemoryMapEntry) (page : Nat) : Prop :=
  ∃ e ∈ map, e.type = memoryTypeLoaderReclaimable ∧ e.Boundless ∧
    e.firstPage % 2 ^ 20 ≤ page ∧ page < e.firstPage % 2 ^ 20 + (2 ^ 20 - 1)

/-- No wrapped count does damage: those that grew reach no used page but
reclaimable ones, and where an entry of all 4 GiB is reclaimable, whose count is
zero, no page below 4 GiB is left in use unless a grown count reaches it. -/
structure WrapsHarmlessly (p : Pmm) (map : List MemoryMapEntry) : Prop where
  grown : ∀ page, p.Used page → WrappedPage map page → ReclaimablePage map page
  lost : ∀ e ∈ map, e.type = memoryTypeLoaderReclaimable → e.size = 2 ^ 32 →
    ∀ page < 2 ^ 20, p.Used page → WrappedPage map page

variable {map : List MemoryMapEntry} {e : MemoryMapEntry} {page : Nat}

theorem reclaimed_cons {rest : List MemoryMapEntry} :
    Reclaimed (e :: rest) page ↔
      (e.type = memoryTypeLoaderReclaimable ∧
        e.alignedAddress / pageSize ≤ page ∧ page < e.alignedAddress / pageSize + e.numPages) ∨
      Reclaimed rest page := by
  simp only [Reclaimed, List.mem_cons, exists_eq_or_imp]

theorem reclaim_used (p : Pmm) (entries : List MemoryMapEntry) (page : Nat) :
    (pmmReclaimBootloaderMemory p entries).Used page ↔ p.Used page ∧ ¬ Reclaimed entries page := by
  induction entries generalizing p with
  | nil => simp [pmmReclaimBootloaderMemory, Reclaimed]
  | cons e rest ih =>
    rw [pmmReclaimBootloaderMemory, List.foldl_cons]
    change (pmmReclaimBootloaderMemory _ rest).Used page ↔ _
    rw [ih, reclaimed_cons]
    by_cases reclaimable : e.type = memoryTypeLoaderReclaimable
    · rw [if_pos reclaimable, clearEntry, clearUnless_used p (sweep_fits e)]
      simp only [reclaimable, true_and]
      tauto
    · rw [if_neg reclaimable]
      simp only [reclaimable, false_and, false_or]

namespace MemoryMapEntry

theorem aligned_first (bound : e.physicalAddress ≤ 2 ^ 32) :
    e.alignedAddress / pageSize = e.firstPage % 2 ^ 20 := by
  rw [alignedAddress_page bound]
  unfold pageSize
  omega

/-- An entry that holds a page boundary and is not all 4 GiB is swept exactly. -/
theorem swept_whole (bound : e.physicalAddress + e.size ≤ 2 ^ 32) (bounded : ¬ e.Boundless)
    (part : e.size ≠ 2 ^ 32) :
    e.alignedAddress / pageSize ≤ page ∧ page < e.alignedAddress / pageSize + e.numPages ↔
      e.WholePage page := by
  rw [aligned_first (by omega), (swept_range bound).2.2 bounded part, wholePage_iff]
  unfold Boundless at bounded
  have near : e.firstPage * pageSize < e.physicalAddress + pageSize := by
    unfold firstPage pageSize
    omega
  unfold pageSize at *
  omega

end MemoryMapEntry

theorem reclaimed_cases (formed : WellFormedMap map) (reclaimed : Reclaimed map page) :
    WrappedPage map page ∨ ∃ e ∈ map, e.type = memoryTypeLoaderReclaimable ∧
      e.size ≠ 2 ^ 32 ∧ e.WholePage page := by
  obtain ⟨e, member, reclaimable, low, high⟩ := reclaimed
  have bound := formed.below e member
  by_cases boundless : e.Boundless
  · rw [MemoryMapEntry.aligned_first (by omega)] at low high
    rw [(MemoryMapEntry.swept_range bound).1 boundless] at high
    exact Or.inl ⟨e, member, reclaimable, boundless, low, high⟩
  · by_cases full : e.size = 2 ^ 32
    · rw [(MemoryMapEntry.swept_range bound).2.1 boundless full] at high
      omega
    · exact Or.inr ⟨e, member, reclaimable, full,
        (MemoryMapEntry.swept_whole bound boundless full).mp ⟨low, high⟩⟩

theorem wrapped_reclaimed (formed : WellFormedMap map) (wrapped : WrappedPage map page) :
    Reclaimed map page := by
  obtain ⟨e, member, reclaimable, boundless, low, high⟩ := wrapped
  have bound := formed.below e member
  refine ⟨e, member, reclaimable, ?_⟩
  rw [MemoryMapEntry.aligned_first (by omega), (MemoryMapEntry.swept_range bound).1 boundless]
  exact ⟨low, high⟩

theorem whole_reclaimed (formed : WellFormedMap map) (member : e ∈ map)
    (reclaimable : e.type = memoryTypeLoaderReclaimable) (part : e.size ≠ 2 ^ 32)
    (whole : e.WholePage page) : Reclaimed map page := by
  have bounded : ¬ e.Boundless := fun h => MemoryMapEntry.boundless_no_whole h page whole
  exact ⟨e, member, reclaimable,
    (MemoryMapEntry.swept_whole (formed.below e member) bounded part).mpr whole⟩

/-- Beside an entry of all 4 GiB there is no page left for another. -/
theorem full_alone (formed : WellFormedMap map) {all : MemoryMapEntry} (member : all ∈ map)
    (full : all.size = 2 ^ 32) (other : e ∈ map) (part : e.size ≠ 2 ^ 32) :
    ¬ e.WholePage page := by
  rintro ⟨low, high⟩
  have bound := formed.below all member
  have below := formed.below e other
  have distinct : all ≠ e := by
    rintro rfl
    exact part full
  have covered : all.Covers (page * pageSize) := by
    constructor
    · omega
    · unfold pageSize at *
      omega
  apply formed.separated.apart member other distinct covered
  constructor
  · exact low
  · unfold pageSize at *
    omega

/-- Reclaiming clears exactly the wholly reclaimable pages if and only if no page
count that wrapped does damage. -/
theorem reclaimsExactly_iff (p : Pmm) (map : List MemoryMapEntry) (formed : WellFormedMap map) :
    ReclaimsExactly p map ↔ WrapsHarmlessly p map := by
  constructor
  · intro exactly
    have agree : ∀ page, p.Used page → (Reclaimed map page ↔ ReclaimablePage map page) := by
      intro page used
      have both := (reclaim_used p map page).symm.trans (exactly page)
      simp only [used, true_and] at both
      exact not_iff_not.mp both
    constructor
    · intro page used wrapped
      exact (agree page used).mp (wrapped_reclaimed formed wrapped)
    · intro e member reclaimable full page small used
      have whole : e.WholePage page := by
        have bound := formed.below e member
        constructor <;> unfold pageSize <;> omega
      rcases reclaimed_cases formed ((agree page used).mpr ⟨e, member, reclaimable, whole⟩) with
        wrapped | ⟨other, otherMember, -, part, inside⟩
      · exact wrapped
      · exact absurd inside (full_alone formed member full otherMember part)
  · intro harmless page
    rw [reclaim_used]
    apply and_congr_right
    intro used
    apply not_congr
    constructor
    · intro reclaimed
      rcases reclaimed_cases formed reclaimed with wrapped | ⟨e, member, reclaimable, -, whole⟩
      · exact harmless.grown page used wrapped
      · exact ⟨e, member, reclaimable, whole⟩
    · rintro ⟨e, member, reclaimable, whole⟩
      by_cases full : e.size = 2 ^ 32
      · have small := MemoryMapEntry.wholePage_lt (formed.below e member) whole
        exact wrapped_reclaimed formed (harmless.lost e member reclaimable full page small used)
      · exact whole_reclaimed formed member reclaimable full whole

/-- Half a page of loader data behind the first one and a half, all of it in page 1. -/
def shortEntryMap : List MemoryMapEntry := [⟨0x1800, 0x400, memoryTypeLoaderReclaimable⟩]

theorem shortEntryMap_formed : WellFormedMap shortEntryMap :=
  ⟨by simp [Intervals.Separated, shortEntryMap], by simp [shortEntryMap]⟩

/-- A loader entry inside one page, from which nothing can be reclaimed, frees
page 5 and all the others that follow it. -/
theorem shortEntry_frees_used :
    WellFormedMap shortEntryMap ∧
      ¬ ReclaimsExactly ⟨fun _ => BitVec.allOnes 8, 16, 2, []⟩ shortEntryMap := by
  refine ⟨shortEntryMap_formed, ?_⟩
  intro exactly
  have wrapped : WrappedPage shortEntryMap 5 :=
    ⟨_, List.mem_singleton.mpr rfl, rfl, by decide, by decide, by decide⟩
  have kept := (exactly 5).mpr ⟨by decide, ?_⟩
  · exact ((reclaim_used _ _ _).mp kept).2 (wrapped_reclaimed shortEntryMap_formed wrapped)
  · rintro ⟨e, member, -, -, high⟩
    obtain rfl := List.mem_singleton.mp member
    exact absurd high (by decide)

/-- Two loader entries around a free page, the first of them unaligned. -/
def loaderMap : List MemoryMapEntry :=
  [⟨0x1800, 0x2800, memoryTypeLoaderReclaimable⟩, ⟨0x4000, 0x1000, memoryTypeFree⟩,
    ⟨0x5000, 0x1000, memoryTypeLoaderReclaimable⟩]

theorem loaderMap_formed : WellFormedMap loaderMap := by
  refine ⟨?_, by simp [loaderMap]⟩
  simp only [Intervals.Separated, loaderMap, Intervals.Covers, List.pairwise_cons, List.mem_cons,
    List.not_mem_nil, or_false]
  refine ⟨?_, ?_, ?_, .nil⟩
  · rintro e (rfl | rfl) <;> dsimp only <;> omega
  · rintro e rfl
    dsimp only
    omega
  · rintro e ⟨⟩

theorem loaderMap_bounded : ∀ e ∈ loaderMap, ¬ e.Boundless ∧ e.size ≠ 2 ^ 32 := by decide

theorem reclaimsExactly_loader :
    ReclaimsExactly ⟨fun _ => BitVec.allOnes 8, 16, 2, []⟩ loaderMap := by
  apply (reclaimsExactly_iff _ _ loaderMap_formed).mpr
  constructor
  · rintro page - ⟨e, member, -, boundless, -⟩
    exact absurd boundless (loaderMap_bounded e member).1
  · intro e member _ full
    exact absurd full (loaderMap_bounded e member).2

end Laomb.PMM
