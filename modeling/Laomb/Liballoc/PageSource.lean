import Laomb.PMM.Ownership

/-! The heap's page source: `liballoc_alloc` and `liballoc_free` on top of the
page allocator, and the `nullptr` test of `allocate_new_page` behind which the
heap handles exhaustion. `base` is `higher_half_base`, the distance between a
page's physical address and the address the heap uses. -/
namespace Laomb.Liballoc
open FirstFit Word Transition PMM

def liballocAlloc (base : Nat) (p : Pmm) (pages : Nat) : Nat × Pmm :=
  (u32 ((pmmAllocPages p pages).1 + base), (pmmAllocPages p pages).2)

def liballocFree (base : Nat) (p : Pmm) (ptr pages : Nat) : Pmm :=
  pmmFreePages p (sub32 ptr base) pages

/-- The header `allocate_new_page` writes at the start of a new block. -/
structure Major where
  address : Nat
  prev : Nat
  next : Nat
  pages : Nat
  size : Nat
  usage : Nat
  first : Nat
deriving DecidableEq, Repr

/-- `liballoc`'s running totals next to the page allocator. -/
structure HeapState where
  pmm : Pmm
  allocated : Nat
  warningCount : Nat

def sizeofMajor : Nat := 24
def sizeofMinor : Nat := 24
def pageCount : Nat := 16

/-- Pages requested for an allocation of `size` bytes. -/
def newPageCount (size : Nat) : Nat :=
  let st := u32 (u32 (size + sizeofMajor) + sizeofMinor)
  let st := if st % pageSize = 0 then st / pageSize else st / pageSize + 1
  if st < pageCount then pageCount else st

def allocateNewPage (base : Nat) (h : HeapState) (size : Nat) : Option Major × HeapState :=
  let st := newPageCount size
  let (maj, pmm) := liballocAlloc base h.pmm st
  if maj = null then (none, { h with pmm, warningCount := h.warningCount + 1 })
  else
    let major : Major := ⟨maj, null, null, st, u32 (st * pageSize), sizeofMajor, null⟩
    (some major, { h with pmm, allocated := (h.allocated + major.size) % 2 ^ 64 })

/-- The call reports exhaustion exactly when the bitmap has no run of `n` pages. -/
def ReportsExhaustion (base : Nat) (p : Pmm) (n : Nat) : Prop :=
  (liballocAlloc base p n).1 = null ↔ ¬ ∃ start, RunAt p.Free p.totalPages n start

/-- The call's own outcome can be told from `nullptr`: without a run the base
is zero, and the lowest run does not land on address zero. -/
def Distinguishable (base : Nat) (p : Pmm) (n : Nat) : Prop :=
  ((¬ ∃ start, RunAt p.Free p.totalPages n start) → u32 base = null) ∧
  ∀ start, First p.Free p.totalPages n start → u32 (pageAddress start + base) ≠ null

theorem reportsExhaustion_iff (base : Nat) (p : Pmm) {n : Nat} (positive : 0 < n) :
    ReportsExhaustion base p n ↔ Distinguishable base p n := by
  have out := pmmAllocPages_outcome p positive
  unfold ReportsExhaustion Distinguishable liballocAlloc
  generalize pmmAllocPages p n = result at out
  cases out with
  | exhausted q absent _ _ =>
    have nowhere : ¬ ∃ start, RunAt p.Free p.totalPages n start := fun ⟨start, run⟩ => absent start run
    simp only [nowhere, not_false_eq_true, iff_true, forall_const, null, Nat.zero_add]
    constructor
    · exact fun zero => ⟨zero, fun start first => absurd first.fits (absent start)⟩
    · exact And.left
  | found start q first _ =>
    have somewhere : ∃ start, RunAt p.Free p.totalPages n start := ⟨start, first.fits⟩
    simp only [somewhere, not_true_eq_false, iff_false, false_imp_iff, true_and, null]
    constructor
    · intro nonzero other firstOther
      exact firstOther.unique first ▸ nonzero
    · exact fun all => all start first

/-- `allocate_new_page` notices exhaustion exactly when the page source reports
it: the warning counter moves and the heap gets no block. -/
theorem allocateNewPage_none (base : Nat) (h : HeapState) (size : Nat) :
    (allocateNewPage base h size).1 = none ↔
      (liballocAlloc base h.pmm (newPageCount size)).1 = null := by
  simp only [allocateNewPage]
  split <;> simp_all

/-! ## Runs of the page source -/

/-- Physical page numbers behind a heap block. -/
def Backs (base : Nat) (b : Block) (page : Nat) : Prop :=
  (⟨sub32 b.address base, b.pages⟩ : Block).Holds page

/-- Heap addresses inside a block, which may wrap around the address space. -/
def Contains (b : Block) (address : Nat) : Prop :=
  ∃ k < b.pages * pageSize, address = u32 (b.address + k)

inductive PageRequest where
  | alloc (pages : Nat)
  | free (ptr pages : Nat)

/-- Requests of at least one page, and frees of live blocks. -/
inductive PageStep (base : Nat) : Client → PageRequest → Client → Prop where
  | alloc (c : Client) (n : Nat) : 0 < n →
      PageStep base c (.alloc n) ⟨(liballocAlloc base c.pmm n).2,
        grant (liballocAlloc base c.pmm n).1 n c.live⟩
  | free (c : Client) (b : Block) : b ∈ c.live →
      PageStep base c (.free b.address b.pages)
        ⟨liballocFree base c.pmm b.address b.pages, c.live.erase b⟩

/-- The condition on a step: an allocation's outcome is distinguishable, and
the run it finds lies inside the 32-bit page space. -/
def Admits (base : Nat) (c : Client) : PageRequest → Prop
  | .alloc n => Distinguishable base c.pmm n ∧
      ∀ start, First c.pmm.Free c.pmm.totalPages n start → start + n ≤ 2 ^ 20
  | .free _ _ => True

/-- Live blocks are disjoint as address ranges and backed by used pages. -/
structure Backed (base : Nat) (c : Client) : Prop where
  disjoint : c.live.Pairwise (fun a b => ∀ address, Contains a address → ¬ Contains b address)
  used : ∀ b ∈ c.live, ∀ page, Backs base b page → c.pmm.Used page

/-- The same in page numbers: every live block is the image of a run of used
pages, and the runs are disjoint. -/
structure PageOwned (base : Nat) (c : Client) : Prop where
  placed : ∀ b ∈ c.live, ∃ start, b.address = u32 (pageAddress start + base) ∧
    start + b.pages ≤ 2 ^ 20 ∧ 0 < b.pages
  disjoint : c.live.Pairwise (fun a b => ∀ page, Backs base a page → ¬ Backs base b page)
  used : ∀ b ∈ c.live, ∀ page, Backs base b page → c.pmm.Used page

variable {base : Nat} {c c' : Client}

theorem sub32_add (x base : Nat) : sub32 (u32 (x + base)) base = u32 x := by
  unfold sub32 u32
  omega

/-- Undoing the translation finds the run a block was made of. -/
theorem backs_image (base page : Nat) {start n : Nat} (fits : start + n ≤ 2 ^ 20) (positive : 0 < n) :
    Backs base ⟨u32 (pageAddress start + base), n⟩ page ↔ start ≤ page ∧ page < start + n := by
  have inner : sub32 (u32 (pageAddress start + base)) base = pageAddress start := by
    rw [sub32_add]
    exact u32_of_lt (u32_lt _)
  simp only [Backs, inner]
  exact Owned.holds_found (by omega) page

/-- Two blocks made of disjoint runs share no address, wherever the
translation puts them. -/
theorem contains_disjoint {a b : Block} {s t : Nat} (ha : a.address = u32 (pageAddress s + base))
    (hb : b.address = u32 (pageAddress t + base)) (fitsA : s + a.pages ≤ 2 ^ 20)
    (fitsB : t + b.pages ≤ 2 ^ 20) (apart : s + a.pages ≤ t ∨ t + b.pages ≤ s) (address : Nat) :
    Contains a address → ¬ Contains b address := by
  rintro ⟨k, insideA, rfl⟩ ⟨l, insideB, same⟩
  rw [ha, hb] at same
  unfold pageAddress u32 at same
  unfold pageSize at *
  omega

theorem PageOwned.backed (owned : PageOwned base c) : Backed base c := by
  refine ⟨?_, owned.used⟩
  apply owned.disjoint.imp_of_mem
  intro a b memberA memberB apart address
  obtain ⟨s, placeA, fitsA, positiveA⟩ := owned.placed a memberA
  obtain ⟨t, placeB, fitsB, positiveB⟩ := owned.placed b memberB
  have pagesA : ∀ page, Backs base a page ↔ s ≤ page ∧ page < s + a.pages := fun page => by
    have image := backs_image base page fitsA positiveA
    rwa [← placeA] at image
  have pagesB : ∀ page, Backs base b page ↔ t ≤ page ∧ page < t + b.pages := fun page => by
    have image := backs_image base page fitsB positiveB
    rwa [← placeB] at image
  refine contains_disjoint placeA placeB fitsA fitsB ?_ address
  have clash := apart (max s t)
  rw [pagesA, pagesB] at clash
  omega

theorem PageOwned.alloc {n : Nat} (positive : 0 < n) (owned : PageOwned base c)
    (admits : Admits base c (.alloc n)) :
    PageOwned base ⟨(liballocAlloc base c.pmm n).2, grant (liballocAlloc base c.pmm n).1 n c.live⟩ := by
  obtain ⟨⟨exhaustion, distinct⟩, space⟩ := admits
  have out := pmmAllocPages_outcome c.pmm positive
  unfold liballocAlloc
  generalize pmmAllocPages c.pmm n = result at out
  cases out with
  | exhausted q absent viewed _ =>
    have zero : u32 (null + base) = null := by
      simpa only [null, Nat.zero_add] using exhaustion (fun ⟨start, run⟩ => absent start run)
    rw [zero, grant, if_pos rfl]
    exact ⟨owned.placed, owned.disjoint,
      fun b member page backs => (viewed.used page).mpr (owned.used b member page backs)⟩
  | found start q first viewed =>
    have fits := space start first
    have pages : ∀ page, Backs base ⟨u32 (pageAddress start + base), n⟩ page ↔
        start ≤ page ∧ page < start + n := fun page => backs_image _ _ fits positive
    have after : ∀ page, (setPages q start n).Used page ↔
        (start ≤ page ∧ page < start + n) ∨ c.pmm.Used page := by
      intro page
      rw [setPages_used q (by omega), viewed.used]
    simp only
    rw [grant, if_neg (distinct start first)]
    refine ⟨?_, ?_, ?_⟩
    · intro b member
      rcases List.mem_cons.mp member with rfl | old
      · exact ⟨start, rfl, fits, positive⟩
      · exact owned.placed b old
    · refine List.pairwise_cons.mpr ⟨?_, owned.disjoint⟩
      intro b member page fresh taken
      obtain ⟨low, high⟩ := (pages page).mp fresh
      exact first.fits.2 page low high (owned.used b member page taken)
    · intro b member page backs
      rw [after]
      rcases List.mem_cons.mp member with rfl | old
      · exact Or.inl ((pages page).mp backs)
      · exact Or.inr (owned.used b old page backs)

theorem PageOwned.free {b : Block} (owned : PageOwned base c) (member : b ∈ c.live) :
    PageOwned base ⟨liballocFree base c.pmm b.address b.pages, c.live.erase b⟩ := by
  have split : c.live.Perm (b :: c.live.erase b) := List.perm_cons_erase member
  have apart := (split.pairwise_iff
    (fun {_ _} h => fun page hb ha => h page ha hb)).mp owned.disjoint
  obtain ⟨start, placed, fits, positive⟩ := owned.placed b member
  have pages : ∀ page, Backs base b page ↔ start ≤ page ∧ page < start + b.pages := fun page => by
    have image := backs_image base page fits positive
    rwa [← placed] at image
  refine ⟨fun other rest => owned.placed other (List.mem_of_mem_erase rest),
    (List.pairwise_cons.mp apart).2, ?_⟩
  intro other rest page backs
  have inner : addressPage (sub32 b.address base) = start := by
    rw [placed, sub32_add]
    exact (congrArg addressPage (u32_of_lt (u32_lt _))).trans (pageAddress_page (by omega))
  rw [liballocFree, pmmFreePages, inner, clearPages_used _ (by omega), ← pages]
  exact ⟨fun taken => (List.pairwise_cons.mp apart).1 other rest page taken backs,
    owned.used other (List.mem_of_mem_erase rest) page backs⟩

theorem PageOwned.step {r : PageRequest} (owned : PageOwned base c) (stepped : PageStep base c r c')
    (admits : Admits base c r) : PageOwned base c' := by
  cases stepped with
  | alloc n positive => exact owned.alloc positive admits
  | free b member => exact owned.free member

/-- From any bitmap, in every run whose allocations are all distinguishable:
the live blocks are disjoint and backed, and whatever admissible call comes
next reports exhaustion exactly when there is no run of free pages. -/
theorem pageSource_run {origin : Pmm} {rs : List PageRequest}
    (run : Run (Along (PageStep base) (Admits base)) ⟨origin, []⟩ rs c) :
    Backed base c ∧
      ∀ n, 0 < n → Admits base c (.alloc n) → ReportsExhaustion base c.pmm n := by
  have initial : PageOwned base ⟨origin, []⟩ := by
    refine ⟨?_, .nil, ?_⟩
    · exact fun b member => absurd member List.not_mem_nil
    · exact fun b member => absurd member List.not_mem_nil
  have owned : PageOwned base c := run.invariant
    (fun _ _ _ held stepped => held.step stepped.1 stepped.2) initial
  exact ⟨owned.backed, fun n positive admits => (reportsExhaustion_iff base c.pmm positive).mpr admits.1⟩

/-- Sixteen pages, all in use. -/
def fullPages : Pmm := ⟨fun _ => 0xFF#8, 16, 2, []⟩

/-- With the kernel's base, exhaustion is not reported: two requests on a full
bitmap both succeed, and the heap twice gets a block at physical address zero. -/
theorem fullPages_unreported :
    ¬ ReportsExhaustion 0xC0000000 fullPages 16 ∧
    (allocateNewPage 0xC0000000 ⟨fullPages, 0, 0⟩ 100).1 ≠ none ∧
    ∃ c, Run (PageStep 0xC0000000) ⟨fullPages, []⟩ [.alloc 16, .alloc 16] c ∧
      ¬ Backed 0xC0000000 c := by
  have full : ∀ start, ¬ RunAt fullPages.Free fullPages.totalPages 16 start := by
    rintro start ⟨fits, free⟩
    have zero : start = 0 := by
      have total : fullPages.totalPages = 16 := rfl
      omega
    subst zero
    exact free 0 (by decide) (by decide) (by decide)
  refine ⟨?_, by decide, ?_⟩
  · intro reports
    exact absurd (reports.mpr (fun ⟨start, run⟩ => full start run)) (by decide)
  · refine ⟨_, .next (.alloc _ 16 (by decide)) (.single (.alloc _ 16 (by decide))), ?_⟩
    intro backed
    have apart := (List.pairwise_cons.mp backed.disjoint).1 _ (List.mem_singleton.mpr rfl) 0xC0000000
    exact apart ⟨0, by decide, by decide⟩ ⟨0, by decide, by decide⟩

theorem admits_first {n start : Nat} (first : First c.pmm.Free c.pmm.totalPages n start)
    (lands : u32 (pageAddress start + base) ≠ null) (space : start + n ≤ 2 ^ 20) : Admits base c (.alloc n) := by
  refine ⟨⟨fun absent => absurd ⟨start, first.fits⟩ absent, fun other lowest => ?_⟩, fun other lowest => ?_⟩
  · exact lowest.unique first ▸ lands
  · exact lowest.unique first ▸ space

/-- One request, if the address that it gets is that of the lowest run. -/
def pageCall (base : Nat) (c : Client) : PageRequest → Option Client
  | .alloc n =>
    let result := liballocAlloc base c.pmm n
    let start := addressPage (sub32 result.1 base)
    if 0 < n ∧ First c.pmm.Free c.pmm.totalPages n start ∧ u32 (pageAddress start + base) ≠ null ∧
        start + n ≤ 2 ^ 20 then some ⟨result.2, grant result.1 n c.live⟩
    else none
  | .free ptr n =>
    if ⟨ptr, n⟩ ∈ c.live then some ⟨liballocFree base c.pmm ptr n, c.live.erase ⟨ptr, n⟩⟩ else none

theorem pageCall_step (c : Client) (r : PageRequest) (c' : Client) (done : pageCall base c r = some c') :
    Along (PageStep base) (Admits base) c r c' := by
  cases r with
  | alloc n =>
    obtain ⟨⟨positive, first, lands, space⟩, ⟨⟩⟩ := Option.ite_none_right_eq_some.mp done
    exact ⟨.alloc c n positive, admits_first first lands space⟩
  | free ptr n =>
    obtain ⟨member, ⟨⟩⟩ := Option.ite_none_right_eq_some.mp done
    exact ⟨.free c ⟨ptr, n⟩ member, trivial⟩

/-- The pages of a block that has been freed are handed out again, next to those of another. -/
theorem pageSource_run_sixteen : ∃ c, Run (Along (PageStep 0xC0000000) (Admits 0xC0000000)) ⟨sixteenPages, []⟩
      [.alloc 2, .alloc 3, .free 0xC0001000 2, .alloc 1] c ∧
    c.live = [⟨0xC0001000, 1⟩, ⟨0xC0003000, 3⟩] ∧ Backed 0xC0000000 c ∧
      ReportsExhaustion 0xC0000000 c.pmm 2 := by
  have tested : ([.alloc 2, .alloc 3, .free 0xC0001000 2, .alloc 1].foldlM (pageCall 0xC0000000)
      ⟨sixteenPages, []⟩).any (fun c => c.live = [⟨0xC0001000, 1⟩, ⟨0xC0003000, 3⟩] ∧
        First c.pmm.Free c.pmm.totalPages 2 6) = true := by
    decide +kernel
  obtain ⟨c, run, live, first⟩ := Run.of_tested pageCall_step tested
  obtain ⟨backed, reports⟩ := pageSource_run run
  exact ⟨c, run, live, backed, reports 2 (by decide) (admits_first first (by decide) (by decide))⟩

end Laomb.Liballoc
