import Laomb.PMM.AllocatorProofs
import Laomb.PMM.MemoryMap
import Mathlib.Algebra.Order.Group.Nat
import Mathlib.Data.List.Find

/-! The bitmap `pmm_init` leaves behind, bit by bit, and the bit indices it
touches on the way, both in terms of the memory map alone. -/
namespace Laomb.PMM
open BitMemory Word

/-- Bytes the bitmap occupies; `pmm_init`'s own size computation. -/
def bitmapLength (map : List MemoryMapEntry) : Nat := bitmapBytes (usableTotal map)

/-- The first usable entry with room for the bitmap, judged by its size alone. -/
def bitmapHome (map : List MemoryMapEntry) : Option MemoryMapEntry :=
  map.find? (fun e => e.isUsable && decide (bitmapLength map ≤ e.size / pageSize * pageSize))

/-- The page holds a byte of the bitmap. -/
def BitmapPage (map : List MemoryMapEntry) (page : Nat) : Prop :=
  ∃ e, bitmapHome map = some e ∧
    e.firstPage ≤ page ∧ page * pageSize < e.firstPage * pageSize + bitmapLength map

/-- Pages set aside for the bitmap: those that hold it, unless it ends in the
last page below 4 GiB, where the rounded-up end address wraps to zero. -/
def ReservedPage (map : List MemoryMapEntry) (page : Nat) : Prop :=
  BitmapPage map page ∧ ¬ BitmapPage map (2 ^ 20 - 1)

/-- Pages whose bit the third pass clears. -/
def ReleasedPage (map : List MemoryMapEntry) (page : Nat) : Prop :=
  ¬ ReservedPage map page ∧ ∃ e ∈ map, e.isUsable = true ∧ e.Sweeps page

variable {map : List MemoryMapEntry} {memory : Words 8}

theorem bitmapLength_le (formed : WellFormedMap map) : 8 * bitmapLength map ≤ usableTotal map :=
  bitmapBytes_le (usableTotal_le formed)

/-- The truncated size test of the second pass agrees with the plain one. -/
theorem holdsBitmap_eq (formed : WellFormedMap map) {e : MemoryMapEntry} (member : e ∈ map) :
    e.holdsBitmap (bitmapLength map) =
      (e.isUsable && decide (bitmapLength map ≤ e.size / pageSize * pageSize)) := by
  rw [MemoryMapEntry.holdsBitmap]
  by_cases usable : e.isUsable = true
  · have bound := formed.below e member
    rcases Nat.lt_or_ge e.size (2 ^ 32) with small | large
    · congr 2
      unfold u32 pageSize
      apply propext
      omega
    · -- a 4 GiB entry counts 2^20 pages, for which the bitmap has no byte
      have total := usableTotal_le formed
      have counted : e.size / pageSize ≤ usableTotal map :=
        List.single_le_sum (fun _ _ => Nat.zero_le _) _
          (List.mem_map.mpr ⟨e, List.mem_filter.mpr ⟨member, usable⟩, rfl⟩)
      have full : usableTotal map = 2 ^ 20 := by
        unfold pageSize at counted
        omega
      rw [bitmapLength, full, bitmapBytes_full]
      simp
  · simp [usable]

theorem placeBitmap_eq_find (bytes : Nat) (entries : List MemoryMapEntry) :
    placeBitmap bytes entries =
      (entries.find? (·.holdsBitmap bytes)).map (placementIn · bytes) := by
  induction entries with
  | nil => rfl
  | cons e rest ih =>
    rw [placeBitmap, List.find?_cons]
    by_cases holds : e.holdsBitmap bytes = true
    · simp only [holds, if_true, Option.map_some]
    · simp only [holds, if_false, ih, Bool.false_eq_true]

theorem placement_eq (formed : WellFormedMap map) :
    placeBitmap (bitmapBytes (countPages map)) map =
      (bitmapHome map).map (placementIn · (bitmapLength map)) := by
  rw [countPages_eq formed, placeBitmap_eq_find]
  exact congrArg _ (List.find?_congr fun e member => holdsBitmap_eq formed member)

/-- What is known of the entry the bitmap goes to. -/
theorem bitmapHome_spec (formed : WellFormedMap map) {e : MemoryMapEntry}
    (home : bitmapHome map = some e) :
    e ∈ map ∧ e.isUsable = true ∧ bitmapLength map ≤ e.size / pageSize * pageSize ∧
      e.physicalAddress + e.size ≤ 2 ^ 32 := by
  have member := List.mem_of_find?_eq_some home
  have holds := List.find?_some home
  simp only [Bool.and_eq_true, decide_eq_true_eq] at holds
  exact ⟨member, holds.1, holds.2, formed.below e member⟩

theorem placementIn_startPage (e : MemoryMapEntry) (bound : e.physicalAddress ≤ 2 ^ 32) (bytes : Nat) :
    (placementIn e bytes).startPage = e.firstPage % 2 ^ 20 := by
  have aligned := e.alignedAddress_page bound
  have down := alignDown_pow (w := 32) (k := 12) (x := e.alignedAddress) (by decide) (u32_lt _)
  change alignDown 32 e.alignedAddress (2 ^ 12) / pageSize = _
  rw [down, aligned]
  unfold pageSize
  omega

theorem placementIn_endPage (e : MemoryMapEntry) (bound : e.physicalAddress ≤ 2 ^ 32) (bytes : Nat) :
    (placementIn e bytes).endPage =
      ((e.firstPage % 2 ^ 20 * 4096 + bytes) % 2 ^ 32 + 4095) % 2 ^ 32 / 4096 := by
  have aligned := e.alignedAddress_page bound
  have up := alignUp_pow (w := 32) (k := 12) (x := u32 (e.alignedAddress + bytes)) (by decide)
  change alignUp 32 (u32 (e.alignedAddress + bytes)) pageSize / pageSize = _
  rw [show pageSize = 2 ^ 12 from rfl, up, aligned]
  unfold u32 pageSize
  omega

theorem reserved_iff (formed : WellFormedMap map) (page : Nat) :
    reservedBy (placeBitmap (bitmapBytes (countPages map)) map) page = true ↔
      ReservedPage map page := by
  rw [placement_eq formed]
  unfold ReservedPage BitmapPage
  cases home : bitmapHome map with
  | none => simp [reservedBy]
  | some e =>
    obtain ⟨_, _, room, bound⟩ := bitmapHome_spec formed home
    have near : e.firstPage * pageSize < e.physicalAddress + pageSize := by
      unfold MemoryMapEntry.firstPage pageSize
      omega
    have short := bitmapLength_le formed
    have total := usableTotal_le formed
    simp only [Option.map_some, reservedBy, Placement.reserves, Bool.and_eq_true, decide_eq_true_eq,
      placementIn_startPage e (by omega), placementIn_endPage e (by omega), Option.some.injEq,
      exists_eq_left']
    unfold pageSize at *
    omega

theorem clearUnless_used {skip : Nat → Bool} (p : Pmm) {first count : Nat}
    (fits : first + count ≤ 2 ^ 32) (page : Nat) :
    (clearUnless skip p first count).Used page ↔
      ¬ (skip page = false ∧ first ≤ page ∧ page < first + count) ∧ p.Used page := by
  induction count with
  | zero =>
    simp only [clearUnless, Nat.add_zero]
    constructor
    · intro used
      exact ⟨by omega, used⟩
    · exact And.right
  | succ count ih =>
    have here : u32 (first + count) = first + count := u32_of_lt (by omega)
    have previous := ih (by omega)
    simp only [clearUnless, here]
    cases skipped : skip (first + count) with
    | true =>
      rw [if_pos rfl, previous]
      apply and_congr_left
      intro _
      by_cases same : page = first + count
      · subst same
        simp [skipped]
      · have range : page < first + (count + 1) ↔ page < first + count := by omega
        rw [range]
    | false =>
      rw [if_neg (by simp), Pmm.clearBit_used, previous, ← and_assoc]
      apply and_congr_left
      intro _
      by_cases same : page = first + count
      · subst same
        simp [skipped]
      · have range : page < first + (count + 1) ↔ page < first + count := by omega
        rw [range]
        exact and_iff_right same

theorem clearUnless_touched {skip : Nat → Bool} (p : Pmm) {first count : Nat}
    (fits : first + count ≤ 2 ^ 32) (bit : Nat) :
    bit ∈ (clearUnless skip p first count).touched ↔
      bit ∈ p.touched ∨ (skip bit = false ∧ first ≤ bit ∧ bit < first + count) := by
  induction count with
  | zero =>
    simp only [clearUnless, Nat.add_zero, iff_self_or]
    omega
  | succ count ih =>
    have here : u32 (first + count) = first + count := u32_of_lt (by omega)
    have previous := ih (by omega)
    simp only [clearUnless, here]
    by_cases same : bit = first + count
    · subst same
      cases skipped : skip (first + count) with
      | true => simp [previous, skipped]
      | false => simp
    · have range : bit < first + (count + 1) ↔ bit < first + count := by omega
      rw [range, ← previous]
      split
      · rfl
      · rw [Pmm.clearBit_touched, List.mem_cons]
        exact or_iff_right same

@[simp] theorem clearUnless_totalPages (skip : Nat → Bool) (p : Pmm) (first count : Nat) :
    (clearUnless skip p first count).totalPages = p.totalPages := by
  induction count with
  | zero => rfl
  | succ count ih =>
    simp only [clearUnless]
    split
    · exact ih
    · simpa only [Pmm.clearBit_totalPages] using ih

@[simp] theorem clearUnless_bitmapSize (skip : Nat → Bool) (p : Pmm) (first count : Nat) :
    (clearUnless skip p first count).bitmapSize = p.bitmapSize := by
  induction count with
  | zero => rfl
  | succ count ih =>
    simp only [clearUnless]
    split
    · exact ih
    · simpa only [Pmm.clearBit_bitmapSize] using ih

/-- One entry's visited page range never wraps the 32-bit page index. -/
theorem sweep_fits (e : MemoryMapEntry) : e.alignedAddress / pageSize + e.numPages ≤ 2 ^ 32 := by
  have first := u32_lt (alignUp 64 e.physicalAddress pageSize)
  have count := u32_lt (u32 e.endAddress + 2 ^ 32 - u32 e.alignedAddress)
  unfold MemoryMapEntry.numPages MemoryMapEntry.alignedAddress sub32 at *
  unfold pageSize at *
  omega

/-- The visited range of some usable entry, before skipping. -/
def Swept (entries : List MemoryMapEntry) (page : Nat) : Prop :=
  ∃ e ∈ entries, e.isUsable = true ∧
    e.alignedAddress / pageSize ≤ page ∧ page < e.alignedAddress / pageSize + e.numPages

theorem swept_cons {e : MemoryMapEntry} {rest : List MemoryMapEntry} {page : Nat} :
    Swept (e :: rest) page ↔
      (e.isUsable = true ∧
        e.alignedAddress / pageSize ≤ page ∧ page < e.alignedAddress / pageSize + e.numPages) ∨
      Swept rest page := by
  simp only [Swept, List.mem_cons, exists_eq_or_imp]

theorem clearUsable_used {skip : Nat → Bool} (entries : List MemoryMapEntry) (p : Pmm) (page : Nat) :
    (clearUsable skip p entries).Used page ↔
      ¬ (skip page = false ∧ Swept entries page) ∧ p.Used page := by
  induction entries generalizing p with
  | nil => simp [clearUsable, Swept]
  | cons e rest ih =>
    rw [clearUsable, List.foldl_cons]
    change (clearUsable skip _ rest).Used page ↔ _
    rw [ih, swept_cons]
    by_cases usable : e.isUsable = true
    · rw [if_pos usable, clearEntry, clearUnless_used p (sweep_fits e), ← and_assoc]
      apply and_congr_left
      intro _
      simp only [usable, true_and]
      tauto
    · rw [if_neg usable]
      apply and_congr_left
      intro _
      simp only [usable, Bool.false_eq_true, false_and, false_or]

theorem clearUsable_touched {skip : Nat → Bool} (entries : List MemoryMapEntry) (p : Pmm) (bit : Nat) :
    bit ∈ (clearUsable skip p entries).touched ↔
      bit ∈ p.touched ∨ (skip bit = false ∧ Swept entries bit) := by
  induction entries generalizing p with
  | nil => simp [clearUsable, Swept]
  | cons e rest ih =>
    rw [clearUsable, List.foldl_cons]
    change bit ∈ (clearUsable skip _ rest).touched ↔ _
    rw [ih, swept_cons]
    by_cases usable : e.isUsable = true
    · rw [if_pos usable, clearEntry, clearUnless_touched p (sweep_fits e)]
      simp only [usable, true_and]
      tauto
    · rw [if_neg usable]
      simp only [usable, Bool.false_eq_true, false_and, false_or]

theorem clearUsable_sizes (skip : Nat → Bool) (entries : List MemoryMapEntry) (p : Pmm) :
    (clearUsable skip p entries).totalPages = p.totalPages ∧
      (clearUsable skip p entries).bitmapSize = p.bitmapSize := by
  induction entries generalizing p with
  | nil => exact ⟨rfl, rfl⟩
  | cons e rest ih =>
    rw [clearUsable, List.foldl_cons]
    change (clearUsable skip _ rest).totalPages = _ ∧ (clearUsable skip _ rest).bitmapSize = _
    obtain ⟨total, size⟩ := ih (if e.isUsable then clearEntry skip p e else p)
    rw [total, size]
    split
    · exact ⟨clearUnless_totalPages _ _ _ _, clearUnless_bitmapSize _ _ _ _⟩
    · exact ⟨rfl, rfl⟩

theorem swept_iff_sweeps (formed : WellFormedMap map) {page : Nat} (small : page < 2 ^ 20) :
    Swept map page ↔ ∃ e ∈ map, e.isUsable = true ∧ e.Sweeps page := by
  constructor
  · rintro ⟨e, member, usable, range⟩
    exact ⟨e, member, usable, (e.swept_iff (formed.below e member) small).mp range⟩
  · rintro ⟨e, member, usable, sweeps⟩
    exact ⟨e, member, usable, (e.swept_iff (formed.below e member) small).mpr sweeps⟩

theorem pmmInitMap_totalPages (memory : Words 8) (formed : WellFormedMap map) :
    (pmmInitMap map memory).totalPages = usableTotal map := by
  rw [pmmInitMap, (clearUsable_sizes _ _ _).1, ← countPages_eq formed]
  cases placeBitmap (bitmapBytes (countPages map)) map with
  | none => rfl
  | some placed => simp [reserveBitmap]

theorem pmmInitMap_bitmapSize (memory : Words 8) (formed : WellFormedMap map) :
    (pmmInitMap map memory).bitmapSize = bitmapLength map := by
  rw [pmmInitMap, (clearUsable_sizes _ _ _).2, bitmapLength, ← countPages_eq formed]
  cases placeBitmap (bitmapBytes (countPages map)) map with
  | none => rfl
  | some placed => simp [reserveBitmap]

/-- The set-bit loop of the second pass covers exactly the reserved pages. -/
theorem placementIn_range (e : MemoryMapEntry) (bound : e.physicalAddress ≤ 2 ^ 32) (bytes page : Nat) :
    (placementIn e bytes).startPage +
        ((placementIn e bytes).endPage - (placementIn e bytes).startPage) ≤ 2 ^ 32 ∧
      ((placementIn e bytes).startPage ≤ page ∧ page < (placementIn e bytes).startPage +
          ((placementIn e bytes).endPage - (placementIn e bytes).startPage) ↔
        (placementIn e bytes).reserves page = true) := by
  have first := placementIn_startPage e bound bytes
  have last := placementIn_endPage e bound bytes
  simp only [Placement.reserves, Bool.and_eq_true, decide_eq_true_eq]
  omega

theorem reserveBitmap_used {placement : Option Placement} (placed : placement = none ∨
      ∃ e bytes, e.physicalAddress ≤ 2 ^ 32 ∧ placement = some (placementIn e bytes))
    (p : Pmm) (page : Nat) :
    (reserveBitmap placement p).Used page ↔
      page = 0 ∨ reservedBy placement page = true ∨
        (placement.isSome = true ∧ page < 8 * p.bitmapSize) ∨ p.Used page := by
  rcases placed with rfl | ⟨e, bytes, bound, rfl⟩
  · simp [reserveBitmap, reservedBy]
  · obtain ⟨fits, range⟩ := placementIn_range e bound bytes page
    rw [reserveBitmap, Pmm.setBit_used, setPages_used _ fits, range]
    simp only [Pmm.Used, bitAt_fill_ones (by decide : 0 < 8), Bool.or_eq_true, decide_eq_true_eq,
      reservedBy, Option.isSome_some, true_and, Nat.mul_comm 8]

theorem reserveBitmap_touched {placement : Option Placement} (placed : placement = none ∨
      ∃ e bytes, e.physicalAddress ≤ 2 ^ 32 ∧ placement = some (placementIn e bytes))
    (p : Pmm) (bit : Nat) :
    bit ∈ (reserveBitmap placement p).touched ↔
      bit = 0 ∨ reservedBy placement bit = true ∨ bit ∈ p.touched := by
  rcases placed with rfl | ⟨e, bytes, bound, rfl⟩
  · simp [reserveBitmap, reservedBy]
  · obtain ⟨fits, range⟩ := placementIn_range e bound bytes bit
    rw [reserveBitmap, Pmm.setBit_touched, List.mem_cons, setPages_touched]
    have indexed : (∃ j < (placementIn e bytes).endPage - (placementIn e bytes).startPage,
        bit = u32 ((placementIn e bytes).startPage + j)) ↔ (placementIn e bytes).reserves bit = true := by
      rw [← range]
      constructor
      · rintro ⟨j, below, rfl⟩
        rw [u32_of_lt (by omega)]
        omega
      · rintro ⟨low, high⟩
        refine ⟨bit - (placementIn e bytes).startPage, by omega, ?_⟩
        rw [u32_of_lt (by omega)]
        omega
    rw [indexed, reservedBy]
    exact or_congr_right or_comm

theorem placement_shape (formed : WellFormedMap map) :
    placeBitmap (bitmapBytes (countPages map)) map = none ∨ ∃ e bytes, e.physicalAddress ≤ 2 ^ 32 ∧
      placeBitmap (bitmapBytes (countPages map)) map = some (placementIn e bytes) := by
  rw [placement_eq formed]
  cases home : bitmapHome map with
  | none => exact Or.inl rfl
  | some e =>
    have bound := (bitmapHome_spec formed home).2.2.2
    exact Or.inr ⟨e, bitmapLength map, by omega, rfl⟩

/-- Every bit below 2^20 after `pmm_init`. -/
theorem pmmInitMap_used (formed : WellFormedMap map) {page : Nat} (small : page < 2 ^ 20) :
    (pmmInitMap map memory).Used page ↔ ¬ ReleasedPage map page ∧
      (page = 0 ∨ ReservedPage map page ∨
        ((bitmapHome map).isSome = true ∧ page < 8 * bitmapLength map) ∨ bitAt memory page = true) := by
  have placed : (placeBitmap (bitmapBytes (countPages map)) map).isSome = (bitmapHome map).isSome := by
    rw [placement_eq formed, Option.isSome_map]
  rw [pmmInitMap, clearUsable_used, reserveBitmap_used (placement_shape formed), placed,
    reserved_iff formed, ReleasedPage, swept_iff_sweeps formed small, ← reserved_iff formed,
    bitmapLength, countPages_eq formed, Bool.not_eq_true]
  rfl

/-- Every bit index `pmm_init` passes to `set_bit` or `clear_bit`. -/
theorem pmmInitMap_touched (formed : WellFormedMap map) (bit : Nat) :
    bit ∈ (pmmInitMap map memory).touched ↔
      bit = 0 ∨ ReservedPage map bit ∨ Swept map bit := by
  rw [pmmInitMap, clearUsable_touched, reserveBitmap_touched (placement_shape formed),
    reserved_iff formed, ← Bool.not_eq_true, reserved_iff formed]
  simp only [List.not_mem_nil, or_false]
  tauto

/-- Sixteen free pages from address zero; the bitmap sits in page zero. -/
def flatMap : List MemoryMapEntry := [⟨0, 0x10000, memoryTypeFree⟩]

theorem flatMap_formed : WellFormedMap flatMap :=
  ⟨by simp [Intervals.Separated, flatMap], by simp [flatMap]⟩

theorem flatMap_bitmapPage (page : Nat) : BitmapPage flatMap page ↔ page = 0 := by
  have home : bitmapHome flatMap = some ⟨0, 0x10000, memoryTypeFree⟩ := by decide
  have length : bitmapLength flatMap = 2 := by decide
  have first : (⟨0, 0x10000, memoryTypeFree⟩ : MemoryMapEntry).firstPage = 0 := by decide
  simp only [BitmapPage, home, Option.some.injEq, exists_eq_left', length, first]
  unfold pageSize
  omega

theorem flatMap_usable (page : Nat) : UsablePage flatMap page ↔ page < 16 := by
  have usable : (⟨0, 0x10000, memoryTypeFree⟩ : MemoryMapEntry).isUsable = true := by decide
  simp only [UsablePage, flatMap, List.mem_singleton, exists_eq_left, usable, true_and,
    MemoryMapEntry.WholePage]
  unfold pageSize
  omega

end Laomb.PMM
