import Laomb.Base.Intervals
import Laomb.PMM.Boot

/-! What a boot memory map means, independently of the passes over it: which
pages are usable, how many pages the entries hold and which page range the
unsigned arithmetic of the clearing pass derives from one entry. -/
namespace Laomb.PMM
open Intervals Word

namespace MemoryMapEntry

def Covers (e : MemoryMapEntry) (address : Nat) : Prop :=
  Intervals.Covers physicalAddress size e address

/-- The page lies wholly inside the entry. -/
def WholePage (e : MemoryMapEntry) (page : Nat) : Prop :=
  e.physicalAddress ≤ page * pageSize ∧ (page + 1) * pageSize ≤ e.physicalAddress + e.size

/-- Number of the first page that starts inside the entry or right behind it. -/
def firstPage (e : MemoryMapEntry) : Nat := (e.physicalAddress + pageSize - 1) / pageSize

/-- No page boundary lies in the entry or at its end. -/
def Boundless (e : MemoryMapEntry) : Prop :=
  e.physicalAddress + e.size < e.firstPage * pageSize

instance (e : MemoryMapEntry) : Decidable e.Boundless := inferInstanceAs (Decidable (_ < _))

end MemoryMapEntry

/-- Entries cover no address twice and end at or below 4 GiB. -/
structure WellFormedMap (map : List MemoryMapEntry) : Prop where
  separated : Separated MemoryMapEntry.physicalAddress MemoryMapEntry.size map
  below : ∀ e ∈ map, e.physicalAddress + e.size ≤ 2 ^ 32

/-- The page lies wholly inside a `FREE` or `RECLAIMABLE` entry. -/
def UsablePage (map : List MemoryMapEntry) (page : Nat) : Prop :=
  ∃ e ∈ map, e.isUsable = true ∧ e.WholePage page

/-- The sum of the page counts of the usable entries, without truncation. -/
def usableTotal (map : List MemoryMapEntry) : Nat :=
  ((map.filter MemoryMapEntry.isUsable).map (fun e => e.size / pageSize)).sum

variable {map : List MemoryMapEntry} {e : MemoryMapEntry}

theorem sum_div_le (sizes : List Nat) :
    (sizes.map (· / pageSize)).sum ≤ sizes.sum / pageSize := by
  induction sizes with
  | nil => exact Nat.le_refl 0
  | cons size rest ih =>
    simp only [List.map_cons, List.sum_cons]
    unfold pageSize at *
    omega

/-- Disjoint entries below 4 GiB hold at most 2^20 pages. -/
theorem usableTotal_le (formed : WellFormedMap map) : usableTotal map ≤ 2 ^ 20 := by
  have usable := formed.separated.sublist (List.filter_sublist (p := MemoryMapEntry.isUsable))
  have bytes := sum_lengths_le usable
    (fun e member => formed.below e (List.mem_of_mem_filter member))
  have pages := sum_div_le ((map.filter MemoryMapEntry.isUsable).map MemoryMapEntry.size)
  rw [List.map_map] at pages
  unfold usableTotal
  unfold pageSize at *
  exact pages.trans (by omega)

theorem countPages_foldl (entries : List MemoryMapEntry) (total : Nat)
    (bound : total + usableTotal entries < 2 ^ 32) :
    entries.foldl (fun total e =>
      if e.isUsable then u32 (total + e.size / pageSize) else total) total =
      total + usableTotal entries := by
  induction entries generalizing total with
  | nil => rfl
  | cons e rest ih =>
    rw [List.foldl_cons]
    by_cases usable : e.isUsable = true
    · have split : usableTotal (e :: rest) = e.size / pageSize + usableTotal rest := by
        simp only [usableTotal, List.filter_cons, usable, if_true, List.map_cons, List.sum_cons]
      rw [if_pos usable, u32_of_lt (by omega), ih _ (by omega)]
      omega
    · have split : usableTotal (e :: rest) = usableTotal rest := by
        simp only [usableTotal, List.filter_cons, usable, Bool.false_eq_true, if_false]
      rw [if_neg usable, ih _ (by omega), split]

/-- The truncating first pass computes the untruncated sum. -/
theorem countPages_eq (formed : WellFormedMap map) : countPages map = usableTotal map := by
  have bound := usableTotal_le formed
  rw [countPages, countPages_foldl map 0 (by omega), Nat.zero_add]

theorem bitmapBytes_small {total : Nat} (h : total < 2 ^ 20) : bitmapBytes total = total / 8 := by
  unfold bitmapBytes u32 pageSize
  omega

/-- The product that sizes the bitmap wraps to zero when all 4 GiB are usable. -/
theorem bitmapBytes_full : bitmapBytes (2 ^ 20) = 0 := by decide

theorem bitmapBytes_le {total : Nat} (h : total ≤ 2 ^ 20) : 8 * bitmapBytes total ≤ total := by
  rcases Nat.lt_or_eq_of_le h with small | full
  · rw [bitmapBytes_small small]
    omega
  · rw [full, bitmapBytes_full]
    omega

namespace MemoryMapEntry

theorem alignedAddress_eq (bound : e.physicalAddress ≤ 2 ^ 32) :
    e.alignedAddress = u32 (e.firstPage * pageSize) := by
  rw [alignedAddress, firstPage]
  have aligned := alignUp_pow (w := 64) (k := 12) (x := e.physicalAddress) (by decide)
  rw [Nat.mod_eq_of_lt (by omega)] at aligned
  exact congrArg u32 aligned

theorem alignedAddress_page (bound : e.physicalAddress ≤ 2 ^ 32) :
    e.alignedAddress = e.firstPage % 2 ^ 20 * pageSize := by
  rw [alignedAddress_eq bound]
  unfold u32 pageSize
  omega

/-- The page range `[first, first + count)` the clearing pass visits for this
entry: its whole pages, unless the entry is all 4 GiB (no page at all), or
contains no page boundary (the unsigned difference wraps: almost every page
from the next boundary on, and from page zero if that boundary is 4 GiB). -/
theorem swept_range (bound : e.physicalAddress + e.size ≤ 2 ^ 32) :
    (e.Boundless → e.numPages = 2 ^ 20 - 1) ∧
    (¬ e.Boundless → e.size = 2 ^ 32 → e.numPages = 0) ∧
    (¬ e.Boundless → e.size ≠ 2 ^ 32 →
      e.numPages = (e.physicalAddress + e.size) / pageSize - e.firstPage) := by
  have aligned := alignedAddress_page (e := e) (by omega)
  have near : e.firstPage * pageSize < e.physicalAddress + pageSize := by
    unfold firstPage pageSize
    omega
  have above : e.physicalAddress ≤ e.firstPage * pageSize := by
    unfold firstPage pageSize
    omega
  unfold numPages endAddress sub32 Boundless u32
  rw [aligned]
  unfold pageSize at *
  refine ⟨?_, ?_, ?_⟩
  · intro boundless
    omega
  · intro _ full
    omega
  · intro _ _
    omega

/-- Pages the clearing pass visits for this entry. -/
def Sweeps (e : MemoryMapEntry) (page : Nat) : Prop :=
  (e.WholePage page ∧ e.size ≠ 2 ^ 32) ∨
  (e.Boundless ∧ (e.firstPage ≤ page ∨ e.firstPage = 2 ^ 20 ∧ page + 1 < 2 ^ 20))

theorem boundless_no_whole (boundless : e.Boundless) (page : Nat) : ¬ e.WholePage page := by
  rintro ⟨low, high⟩
  unfold Boundless firstPage at boundless
  unfold pageSize at *
  omega

theorem wholePage_iff (page : Nat) :
    e.WholePage page ↔ e.firstPage ≤ page ∧ page < (e.physicalAddress + e.size) / pageSize := by
  unfold WholePage firstPage pageSize
  omega

theorem wholePage_lt (bound : e.physicalAddress + e.size ≤ 2 ^ 32) {page : Nat}
    (whole : e.WholePage page) : page < 2 ^ 20 := by
  unfold WholePage pageSize at whole
  omega

theorem swept_iff (bound : e.physicalAddress + e.size ≤ 2 ^ 32) {page : Nat} (small : page < 2 ^ 20) :
    e.alignedAddress / pageSize ≤ page ∧ page < e.alignedAddress / pageSize + e.numPages ↔
      e.Sweeps page := by
  have first : e.alignedAddress / pageSize = e.firstPage % 2 ^ 20 := by
    rw [alignedAddress_page (by omega)]
    unfold pageSize
    omega
  have firstBound : e.firstPage ≤ 2 ^ 20 := by
    unfold firstPage pageSize
    omega
  obtain ⟨wrapped, full, ordinary⟩ := swept_range bound
  rw [first]
  by_cases boundless : e.Boundless
  · have positive : 0 < e.firstPage := by
      unfold Boundless at boundless
      unfold pageSize at boundless
      omega
    simp only [Sweeps, boundless_no_whole boundless, false_and, false_or, boundless, true_and,
      wrapped boundless]
    omega
  · simp only [Sweeps, boundless, false_and, or_false]
    by_cases whole : e.size = 2 ^ 32
    · simp only [full boundless whole, whole, ne_eq, not_true_eq_false, and_false, iff_false]
      omega
    · rw [ordinary boundless whole, wholePage_iff]
      simp only [ne_eq, whole, not_false_eq_true, and_true]
      unfold Boundless at boundless
      unfold pageSize at *
      omega

end MemoryMapEntry
end Laomb.PMM
