import Laomb.PMM.BootProofs
import Mathlib.Data.List.Perm.Basic

/-! Draining the allocator after boot: which pages repeated calls of `pmm_alloc`
return before the first `NULL`, compared with the memory the map calls usable. -/
namespace Laomb.PMM
open FirstFit BitMemory Word

/-- Call `pmm_alloc` until it returns `NULL`; the list holds the other results. -/
inductive Drains : Pmm → List Nat → Prop where
  | done {p : Pmm} : (pmmAlloc p).1 = null → Drains p []
  | next {p : Pmm} {addresses : List Nat} : (pmmAlloc p).1 ≠ null →
      Drains (pmmAlloc p).2 addresses → Drains p ((pmmAlloc p).1 :: addresses)

theorem Drains.unique {p : Pmm} {as bs : List Nat} (left : Drains p as) (right : Drains p bs) :
    as = bs := by
  induction left generalizing bs with
  | done stop =>
    cases right with
    | done => rfl
    | next more => exact absurd stop more
  | next more _ ih =>
    cases right with
    | done stop => exact absurd stop more
    | next _ rest => rw [ih rest]

/-- A free page zero is returned first, as `NULL`: the caller sees exhaustion. -/
theorem drains_zero_free {p : Pmm} (fits : p.totalPages ≤ 2 ^ 20) (counted : 0 < p.totalPages)
    (free : p.Free 0) : Drains p [] := by
  apply Drains.done
  generalize same : pmmAlloc p = result
  have out := pmmAlloc_outcome p (by omega)
  rw [same] at out
  cases out with
  | exhausted => rfl
  | found start q first _ =>
    have zero : start = 0 := by
      by_contra later
      exact first.least 0 (by omega) (runAt_one.mpr ⟨by omega, free⟩)
    subst zero
    rfl

/-- Otherwise every free page below `totalPages` is returned exactly once. The
scan restarts at zero each time; the induction is on the pages not yet known
to be used. -/
theorem drains_free (p : Pmm) (known : Nat) (fits : p.totalPages ≤ 2 ^ 20)
    (zero : 0 < p.totalPages → p.Used 0) (used : ∀ page < known, p.Used page) :
    ∃ addresses, Drains p addresses ∧ addresses.Nodup ∧
      ∀ a, a ∈ addresses ↔ ∃ page < p.totalPages, p.Free page ∧ a = pageAddress page := by
  generalize left : p.totalPages - known = remaining
  induction remaining using Nat.strong_induction_on generalizing p known with
  | h remaining ih =>
    generalize same : pmmAlloc p = result
    have out := pmmAlloc_outcome p (by omega)
    rw [same] at out
    cases out with
    | exhausted q noRun _ _ =>
      refine ⟨[], .done (by rw [same]), .nil, ?_⟩
      intro a
      simp only [List.not_mem_nil, false_iff, not_exists, not_and]
      exact fun page below free _ => noRun page (runAt_one.mpr ⟨below, free⟩)
    | found start q first viewed =>
      obtain ⟨bound, free⟩ := runAt_one.mp first.fits
      have beyond : known ≤ start := by
        by_contra early
        exact free (used start (by omega))
      have nonzero : start ≠ 0 := by
        rintro rfl
        exact free (zero (by omega))
      have total : (setPages q start 1).totalPages = p.totalPages := by
        rw [setPages_totalPages, viewed.totalPages]
      have after : ∀ page, (setPages q start 1).Used page ↔ page = start ∨ p.Used page := by
        intro page
        rw [setPages_used q (by omega), viewed.used]
        apply or_congr_left
        omega
      have passed : ∀ page < start + 1, (setPages q start 1).Used page := by
        intro page below
        rw [after]
        by_cases last : page = start
        · exact Or.inl last
        · right
          by_contra unused
          exact first.least page (by omega) (runAt_one.mpr ⟨by omega, unused⟩)
      obtain ⟨addresses, drains, distinct, spec⟩ := ih (p.totalPages - (start + 1)) (by omega)
        (setPages q start 1) (start + 1) (by omega) (fun _ => passed 0 (by omega)) passed
        (by rw [total])
      have nonnull : pageAddress start ≠ null :=
        fun h => nonzero ((pageAddress_null (by omega)).mp h)
      refine ⟨pageAddress start :: addresses, ?_, ?_, ?_⟩
      · have step : Drains p ((pmmAlloc p).1 :: addresses) := .next (by rwa [same]) (by rwa [same])
        rwa [same] at step
      · refine List.nodup_cons.mpr ⟨?_, distinct⟩
        intro member
        obtain ⟨page, below, unused, equal⟩ := (spec _).mp member
        have pages := congrArg addressPage equal
        rw [pageAddress_page (by omega), pageAddress_page (by omega)] at pages
        exact unused ((after page).mpr (Or.inl pages.symm))
      · intro a
        rw [List.mem_cons, spec]
        constructor
        · rintro (rfl | ⟨page, below, unused, rfl⟩)
          · exact ⟨start, by omega, free, rfl⟩
          · exact ⟨page, by omega, fun taken => unused ((after page).mpr (Or.inr taken)), rfl⟩
        · rintro ⟨page, below, unused, rfl⟩
          by_cases last : page = start
          · exact Or.inl (last ▸ rfl)
          · exact Or.inr ⟨page, by omega,
              fun taken => ((after page).mp taken).elim last unused, rfl⟩

/-- The pages an allocator should hand out: usable, not page zero and not
holding the bitmap. -/
def WantedPage (map : List MemoryMapEntry) (page : Nat) : Prop :=
  UsablePage map page ∧ page ≠ 0 ∧ ¬ BitmapPage map page

/-- Repeated `pmm_alloc` returns precisely the wanted pages, each once. -/
def HandsOutUsable (map : List MemoryMapEntry) (memory : Words 8) : Prop :=
  ∃ addresses, Drains (pmmInitMap map memory) addresses ∧ addresses.Nodup ∧
    ∀ a, a ∈ addresses ↔ ∃ page, WantedPage map page ∧ a = pageAddress page

/-- The page's bit lies behind the `memset` and was clear before boot. -/
def StalePage (map : List MemoryMapEntry) (memory : Words 8) (page : Nat) : Prop :=
  page ≠ 0 ∧ ¬ ReservedPage map page ∧ 8 * bitmapLength map ≤ page ∧ bitAt memory page = false

/-- Page zero is cleared by the third pass although `set_bit(0)` reserved it. -/
def LosesPageZero (map : List MemoryMapEntry) : Prop :=
  0 < usableTotal map ∧ ReleasedPage map 0

/-- The three passes agree about a map: wanted page numbers stay below the page
count, their bits end up clear, and no other bit below the count does. -/
structure PassesAgree (map : List MemoryMapEntry) (memory : Words 8) : Prop where
  counted : ∀ page, WantedPage map page → page < usableTotal map
  cleared : ∀ page, WantedPage map page → ReleasedPage map page ∨ StalePage map memory page
  exclusive : ∀ page < usableTotal map, page ≠ 0 → ¬ WantedPage map page →
    ¬ ReleasedPage map page ∧ ¬ StalePage map memory page

variable {map : List MemoryMapEntry} {memory : Words 8}

theorem wantedPage_lt (formed : WellFormedMap map) {page : Nat} (wanted : WantedPage map page) :
    page < 2 ^ 20 := by
  obtain ⟨⟨e, member, _, whole⟩, _⟩ := wanted
  exact e.wholePage_lt (formed.below e member) whole

theorem free_after_init (formed : WellFormedMap map) (home : (bitmapHome map).isSome = true)
    {page : Nat} (small : page < 2 ^ 20) :
    (pmmInitMap map memory).Free page ↔ ReleasedPage map page ∨ StalePage map memory page := by
  rw [Pmm.Free, pmmInitMap_used formed small, home, StalePage]
  simp only [true_and, ← Bool.not_eq_true, ne_eq, ← Nat.not_lt]
  tauto

/-- A drain only returns pages numbered below the page count. -/
theorem drains_below {p : Pmm} {addresses : List Nat} (fits : p.totalPages ≤ 2 ^ 20)
    (drains : Drains p addresses) :
    ∀ a ∈ addresses, ∃ page < p.totalPages, a = pageAddress page := by
  induction drains with
  | done => exact fun a member => absurd member List.not_mem_nil
  | @next p addresses more _ ih =>
    generalize same : pmmAlloc p = result at more ih
    have out := pmmAlloc_outcome p (by omega)
    rw [same] at out
    cases out with
    | exhausted => exact absurd rfl more
    | found start q first viewed =>
      have bound := first.fits.1
      have total : (setPages q start 1).totalPages = p.totalPages := by
        rw [setPages_totalPages, viewed.totalPages]
      intro a member
      rcases List.mem_cons.mp member with rfl | later
      · exact ⟨start, by omega, rfl⟩
      · obtain ⟨page, below, equal⟩ := ih (total.trans_le fits) a later
        exact ⟨page, below.trans_eq total, equal⟩

theorem pageAddress_inj {a b : Nat} (ha : a < 2 ^ 20) (hb : b < 2 ^ 20)
    (same : pageAddress a = pageAddress b) : a = b := by
  rw [← pageAddress_page ha, ← pageAddress_page hb, same]

/-- With page zero lost, a caller sees exhaustion at once. -/
theorem handsOutUsable_lost (formed : WellFormedMap map) (home : (bitmapHome map).isSome = true)
    (lost : LosesPageZero map) : HandsOutUsable map memory ↔ ∀ page, ¬ WantedPage map page := by
  have total := pmmInitMap_totalPages memory formed
  have bound := usableTotal_le formed
  have free : (pmmInitMap map memory).Free 0 :=
    (free_after_init formed home (by decide)).mpr (Or.inl lost.2)
  have empty := drains_zero_free (by omega) (total ▸ lost.1) free
  constructor
  · rintro ⟨addresses, drains, _, spec⟩ page wanted
    have nothing := drains.unique empty
    subst nothing
    exact absurd ((spec _).mpr ⟨page, wanted, rfl⟩) List.not_mem_nil
  · intro nothing
    refine ⟨[], empty, .nil, ?_⟩
    intro a
    simp only [List.not_mem_nil, false_iff, not_exists, not_and]
    exact fun page wanted => absurd wanted (nothing page)

/-- With page zero kept, the drain is the free part of the bitmap. -/
theorem drain_members (memory : Words 8) (formed : WellFormedMap map) (home : (bitmapHome map).isSome = true)
    (kept : ¬ LosesPageZero map) :
    ∃ addresses, Drains (pmmInitMap map memory) addresses ∧ addresses.Nodup ∧
      ∀ a, a ∈ addresses ↔ ∃ page < usableTotal map, page ≠ 0 ∧
        (ReleasedPage map page ∨ StalePage map memory page) ∧ a = pageAddress page := by
  have total := pmmInitMap_totalPages memory formed
  have bound := usableTotal_le formed
  have zero : 0 < (pmmInitMap map memory).totalPages → (pmmInitMap map memory).Used 0 := by
    intro positive
    rw [pmmInitMap_used formed (by decide)]
    exact ⟨fun released => kept ⟨total ▸ positive, released⟩, Or.inl rfl⟩
  obtain ⟨addresses, drains, distinct, spec⟩ := drains_free (pmmInitMap map memory) 0 (by omega) zero
    (fun _ h => absurd h (Nat.not_lt_zero _))
  refine ⟨addresses, drains, distinct, ?_⟩
  intro a
  rw [spec, total]
  constructor
  · rintro ⟨page, below, unused, rfl⟩
    have nonzero : page ≠ 0 := by
      rintro rfl
      exact unused (zero (total ▸ below))
    exact ⟨page, below, nonzero, (free_after_init formed home (by omega)).mp unused, rfl⟩
  · rintro ⟨page, below, _, available, rfl⟩
    exact ⟨page, below, (free_after_init formed home (by omega)).mpr available, rfl⟩

theorem handsOutUsable_kept (formed : WellFormedMap map) (home : (bitmapHome map).isSome = true)
    (kept : ¬ LosesPageZero map) : HandsOutUsable map memory ↔ PassesAgree map memory := by
  have bound := usableTotal_le formed
  obtain ⟨addresses, drains, distinct, spec⟩ := drain_members memory formed home kept
  constructor
  · rintro ⟨others, drains', _, wanted_iff⟩
    have same := drains'.unique drains
    subst same
    have available : ∀ page, WantedPage map page → page < usableTotal map ∧
        (ReleasedPage map page ∨ StalePage map memory page) := by
      intro page wanted
      obtain ⟨other, below, _, free, equal⟩ := (spec _).mp ((wanted_iff _).mpr ⟨page, wanted, rfl⟩)
      have pages := pageAddress_inj (wantedPage_lt formed wanted) (by omega) equal
      exact pages ▸ ⟨below, free⟩
    refine ⟨fun page wanted => (available page wanted).1,
      fun page wanted => (available page wanted).2, ?_⟩
    intro page below nonzero unwanted
    rw [← not_or]
    intro free
    obtain ⟨other, wanted, equal⟩ :=
      (wanted_iff _).mp ((spec _).mpr ⟨page, below, nonzero, free, rfl⟩)
    have pages := pageAddress_inj (by omega) (wantedPage_lt formed wanted) equal
    exact unwanted (pages ▸ wanted)
  · intro agree
    refine ⟨addresses, drains, distinct, ?_⟩
    intro a
    rw [spec]
    constructor
    · rintro ⟨page, below, nonzero, free, rfl⟩
      refine ⟨page, ?_, rfl⟩
      by_contra unwanted
      obtain ⟨unreleased, fresh⟩ := agree.exclusive page below nonzero unwanted
      exact free.elim unreleased fresh
    · rintro ⟨page, wanted, rfl⟩
      exact ⟨page, agree.counted page wanted, wanted.2.1, agree.cleared page wanted, rfl⟩

/-- The exact condition: either page zero is lost and nothing was wanted, or
page zero is kept and the passes agree. -/
theorem handsOutUsable_iff (formed : WellFormedMap map) (home : (bitmapHome map).isSome = true) :
    HandsOutUsable map memory ↔
      (LosesPageZero map ∧ ∀ page, ¬ WantedPage map page) ∨
      (¬ LosesPageZero map ∧ PassesAgree map memory) := by
  by_cases lost : LosesPageZero map
  · simp only [handsOutUsable_lost formed home lost, lost, true_and, not_true_eq_false, false_and,
      or_false]
  · simp only [handsOutUsable_kept formed home lost, lost, false_and, not_false_eq_true, true_and,
      false_or]

/-- Eight free pages, a hole of eight pages, eight free pages. -/
def splitMap : List MemoryMapEntry :=
  [⟨0x0000, 0x8000, memoryTypeFree⟩, ⟨0x8000, 0x8000, memoryTypeReserved⟩,
    ⟨0x10000, 0x8000, memoryTypeFree⟩]

theorem splitMap_formed : WellFormedMap splitMap := by
  constructor
  · simp only [Intervals.Separated, splitMap, List.pairwise_cons, List.mem_cons, List.not_mem_nil,
      or_false, forall_eq_or_imp, forall_eq, false_imp_iff, implies_true, List.Pairwise.nil,
      and_true, Intervals.Covers]
    refine ⟨⟨?_, ?_⟩, ?_⟩ <;> intro x inside other <;> omega
  · simp [splitMap]

theorem splitMap_home : bitmapHome splitMap = some ⟨0x0000, 0x8000, memoryTypeFree⟩ := by decide

/-- Behind the hole page numbers reach the page count, so the second region is
never returned, whatever the memory held before boot. -/
theorem splitMap_loses_pages :
    WellFormedMap splitMap ∧ (bitmapHome splitMap).isSome = true ∧
      ∀ memory, ¬ HandsOutUsable splitMap memory := by
  refine ⟨splitMap_formed, by rw [splitMap_home]; rfl, ?_⟩
  rintro memory ⟨addresses, drains, _, spec⟩
  have total := pmmInitMap_totalPages memory splitMap_formed
  have count : usableTotal splitMap = 16 := by decide
  have wanted : WantedPage splitMap 16 := by
    refine ⟨⟨⟨0x10000, 0x8000, memoryTypeFree⟩, by decide, by decide, by decide, by decide⟩,
      by decide, ?_⟩
    rintro ⟨e, home, _, held⟩
    cases Option.some.inj (splitMap_home.symm.trans home)
    revert held
    decide
  have member := (spec _).mpr ⟨16, wanted, rfl⟩
  obtain ⟨page, below, equal⟩ := drains_below (by omega) drains _ member
  have pages := pageAddress_inj (by decide) (by omega) equal
  omega

theorem flatMap_released (page : Nat) : ReleasedPage flatMap page ↔ page ≠ 0 ∧ page < 16 := by
  have bounded : ¬ (⟨0, 0x10000, memoryTypeFree⟩ : MemoryMapEntry).Boundless := by decide
  have sweeps : (∃ e ∈ flatMap, e.isUsable = true ∧ e.Sweeps page) ↔ UsablePage flatMap page := by
    simp only [UsablePage, flatMap, List.mem_singleton, exists_eq_left, MemoryMapEntry.Sweeps,
      bounded, false_and, or_false]
    simp
  rw [ReleasedPage, ReservedPage, sweeps, flatMap_usable, flatMap_bitmapPage, flatMap_bitmapPage]
  omega

theorem handsOutUsable_flat : HandsOutUsable flatMap (fun _ => 0#8) := by
  refine (handsOutUsable_iff flatMap_formed (by decide)).mpr (Or.inr ⟨?_, ?_, ?_, ?_⟩)
  · rintro ⟨_, released⟩
    exact ((flatMap_released 0).mp released).1 rfl
  · rintro page ⟨usable, _⟩
    exact (flatMap_usable page).mp usable
  · rintro page ⟨usable, nonzero, _⟩
    exact Or.inl ((flatMap_released page).mpr ⟨nonzero, (flatMap_usable page).mp usable⟩)
  · intro page below nonzero unwanted
    refine absurd ⟨(flatMap_usable page).mpr below, nonzero, ?_⟩ unwanted
    rwa [flatMap_bitmapPage]

end Laomb.PMM
