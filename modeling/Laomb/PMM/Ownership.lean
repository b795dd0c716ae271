import Laomb.Base.Transition
import Laomb.PMM.AllocatorProofs
import Mathlib.Data.List.Perm.Basic

/-! Clients of the page allocator over whole runs. A client holds the blocks it
was granted and returns each of them at most once; the allocator itself keeps
no such record, only the bitmap. -/
namespace Laomb.PMM
open FirstFit Word Transition

/-- What one successful call returned: an address and a page count. -/
structure Block where
  address : Nat
  pages : Nat
deriving DecidableEq, Repr

/-- The block covers this page number. -/
def Block.Holds (b : Block) (page : Nat) : Prop :=
  addressPage b.address ≤ page ∧ page < addressPage b.address + b.pages

def DisjointBlocks (a b : Block) : Prop := ∀ page, a.Holds page → ¬ b.Holds page

structure Client where
  pmm : Pmm
  live : List Block

inductive Request where
  | alloc
  | allocPages (numPages : Nat)
  | free (ptr : Nat)
  | freePages (address numPages : Nat)

/-- A null return grants nothing. -/
def grant (address numPages : Nat) (live : List Block) : List Block :=
  if address = null then live else ⟨address, numPages⟩ :: live

/-- Every free names one live block, by its address and its page count. -/
inductive Step : Client → Request → Client → Prop where
  | alloc (c : Client) :
      Step c .alloc ⟨(pmmAlloc c.pmm).2, grant (pmmAlloc c.pmm).1 1 c.live⟩
  | allocPages (c : Client) (n : Nat) :
      Step c (.allocPages n) ⟨(pmmAllocPages c.pmm n).2, grant (pmmAllocPages c.pmm n).1 n c.live⟩
  | free (c : Client) (b : Block) : b ∈ c.live → b.pages = 1 →
      Step c (.free b.address) ⟨pmmFree c.pmm b.address, c.live.erase b⟩
  | freePages (c : Client) (b : Block) : b ∈ c.live →
      Step c (.freePages b.address b.pages) ⟨pmmFreePages c.pmm b.address b.pages, c.live.erase b⟩

/-- The bitmap below `totalPages` is the original one plus the live blocks,
which are disjoint from it and from each other. -/
structure Owned (origin : Pmm) (c : Client) : Prop where
  totalPages : c.pmm.totalPages = origin.totalPages
  disjoint : c.live.Pairwise DisjointBlocks
  inside : ∀ b ∈ c.live, ∀ page, b.Holds page → page < origin.totalPages
  unreserved : ∀ b ∈ c.live, ∀ page, b.Holds page → ¬ origin.Used page
  exact : ∀ page < origin.totalPages,
    c.pmm.Used page ↔ origin.Used page ∨ ∃ b ∈ c.live, b.Holds page

variable {origin : Pmm}

theorem disjointBlocks_symm {a b : Block} (h : DisjointBlocks a b) : DisjointBlocks b a :=
  fun page hb ha => h page ha hb

namespace Owned

theorem initial (origin : Pmm) : Owned origin ⟨origin, []⟩ := by
  refine ⟨rfl, .nil, ?_, ?_, ?_⟩
  · intro b member
    exact absurd member List.not_mem_nil
  · intro b member
    exact absurd member List.not_mem_nil
  · intro page _
    simp

/-- The block made of a found run of pages. -/
theorem holds_found {start n : Nat} (small : start < 2 ^ 20) (page : Nat) :
    (⟨pageAddress start, n⟩ : Block).Holds page ↔ start ≤ page ∧ page < start + n := by
  simp only [Block.Holds, pageAddress_page small]

/-- Every allocation outcome keeps ownership. Bit zero is set, so a found run
never starts at page zero and its address is not mistaken for `NULL`. -/
theorem outcome {p : Pmm} {live : List Block} {n : Nat} {result : Nat × Pmm}
    (zero : origin.Used 0) (fits : origin.totalPages ≤ 2 ^ 20) (positive : 0 < n)
    (owned : Owned origin ⟨p, live⟩) (out : Outcome p n result) :
    Owned origin ⟨result.2, grant result.1 n live⟩ := by
  have total : p.totalPages = origin.totalPages := owned.totalPages
  cases out with
  | exhausted q _ viewed _ =>
    have kept : grant null n live = live := if_pos rfl
    rw [kept]
    refine ⟨viewed.totalPages.trans total, owned.disjoint, owned.inside, owned.unreserved, ?_⟩
    intro page below
    exact (viewed.used page).trans (owned.exact page below)
  | found start q first viewed =>
    have bound := first.fits.1
    have small : start < 2 ^ 20 := by omega
    have fresh : ∀ page, start ≤ page → page < start + n →
        ¬ origin.Used page ∧ ∀ b ∈ live, ¬ b.Holds page := by
      intro page low high
      have unused : ¬ p.Used page := first.fits.2 page low high
      rw [owned.exact page (by omega), not_or] at unused
      exact ⟨unused.1, fun b member holds => unused.2 ⟨b, member, holds⟩⟩
    have nonzero : start ≠ 0 := by
      rintro rfl
      exact (fresh 0 (Nat.le_refl 0) (by omega)).1 zero
    have granted : grant (pageAddress start) n live = ⟨pageAddress start, n⟩ :: live :=
      if_neg (fun h => nonzero ((pageAddress_null small).mp h))
    rw [granted]
    refine ⟨by simpa using viewed.totalPages.trans total, ?_, ?_, ?_, ?_⟩
    · refine List.pairwise_cons.mpr ⟨?_, owned.disjoint⟩
      intro b member page holds
      obtain ⟨low, high⟩ := (holds_found small page).mp holds
      exact (fresh page low high).2 b member
    · intro b member page holds
      rcases List.mem_cons.mp member with rfl | old
      · obtain ⟨low, high⟩ := (holds_found small page).mp holds
        omega
      · exact owned.inside b old page holds
    · intro b member page holds
      rcases List.mem_cons.mp member with rfl | old
      · obtain ⟨low, high⟩ := (holds_found small page).mp holds
        exact (fresh page low high).1
      · exact owned.unreserved b old page holds
    · intro page below
      rw [setPages_used q (by omega), viewed.used, owned.exact page below]
      simp only [List.mem_cons, exists_eq_or_imp, holds_found small]
      exact or_left_comm

/-- Clearing exactly the pages of one live block keeps ownership of the rest. -/
theorem release {p q : Pmm} {live : List Block} {b : Block} (owned : Owned origin ⟨p, live⟩)
    (member : b ∈ live) (total : q.totalPages = p.totalPages)
    (cleared : ∀ page, q.Used page ↔ ¬ b.Holds page ∧ p.Used page) :
    Owned origin ⟨q, live.erase b⟩ := by
  have split : live.Perm (b :: live.erase b) := List.perm_cons_erase member
  have apart := (split.pairwise_iff (fun {_ _} => disjointBlocks_symm)).mp owned.disjoint
  refine ⟨total.trans owned.totalPages, (List.pairwise_cons.mp apart).2, ?_, ?_, ?_⟩
  · exact fun other inRest => owned.inside other (List.mem_of_mem_erase inRest)
  · exact fun other inRest => owned.unreserved other (List.mem_of_mem_erase inRest)
  · intro page below
    rw [cleared, owned.exact page below]
    constructor
    · rintro ⟨outside, reserved | ⟨other, held, holds⟩⟩
      · exact Or.inl reserved
      · have different : other ≠ b := fun same => outside (same ▸ holds)
        exact Or.inr ⟨other, (List.mem_erase_of_ne different).mpr held, holds⟩
    · rintro (reserved | ⟨other, held, holds⟩)
      · exact ⟨fun holds => owned.unreserved b member page holds reserved, Or.inl reserved⟩
      · exact ⟨fun taken => (List.pairwise_cons.mp apart).1 other held page taken holds,
          Or.inr ⟨other, List.mem_of_mem_erase held, holds⟩⟩

theorem freePages_cleared {p : Pmm} {b : Block} (fits : addressPage b.address + b.pages ≤ 2 ^ 32)
    (page : Nat) :
    (pmmFreePages p b.address b.pages).Used page ↔ ¬ b.Holds page ∧ p.Used page := by
  rw [pmmFreePages, clearPages_used p fits]
  rfl

/-- A live block ends below `totalPages`, so its page arithmetic cannot wrap. -/
theorem block_fits {c : Client} {b : Block} (fits : origin.totalPages ≤ 2 ^ 20)
    (owned : Owned origin c) (member : b ∈ c.live) (positive : 0 < b.pages) :
    addressPage b.address + b.pages ≤ 2 ^ 32 := by
  have last := owned.inside b member (addressPage b.address + b.pages - 1) ⟨by omega, by omega⟩
  omega

theorem step {c c' : Client} {r : Request} (zero : origin.Used 0)
    (fits : origin.totalPages ≤ 2 ^ 20) (owned : Owned origin c) (stepped : Step c r c') :
    Owned origin c' := by
  cases stepped with
  | alloc =>
    have word : c.pmm.totalPages ≤ 2 ^ 32 := by
      have := owned.totalPages
      omega
    exact outcome zero fits Nat.one_pos owned (pmmAlloc_outcome c.pmm word)
  | allocPages n =>
    rcases Nat.eq_zero_or_pos n with rfl | positive
    · obtain ⟨failed, viewed⟩ := pmmAllocPages_zero c.pmm
      rw [failed, grant, if_pos rfl]
      refine ⟨viewed.totalPages.trans owned.totalPages, owned.disjoint, owned.inside,
        owned.unreserved, ?_⟩
      intro page below
      exact (viewed.used page).trans (owned.exact page below)
    · exact outcome zero fits positive owned (pmmAllocPages_outcome c.pmm positive)
  | free b member single =>
    refine owned.release member rfl ?_
    intro page
    rw [pmmFree, Pmm.clearBit_used, Block.Holds, single]
    apply and_congr_left
    intro _
    omega
  | freePages b member =>
    rcases Nat.eq_zero_or_pos b.pages with empty | positive
    · apply owned.release member (by rw [pmmFreePages, clearPages_totalPages])
      intro page
      rw [empty, pmmFreePages, clearPages, Block.Holds, empty]
      constructor
      · intro used
        exact ⟨by omega, used⟩
      · exact And.right
    · exact owned.release member (by rw [pmmFreePages, clearPages_totalPages])
        (freePages_cleared (owned.block_fits fits member positive))

end Owned

/-- Physical pages are never handed out twice: ownership holds after every run
of allocations and matched frees, from any bitmap whose bit zero is set. -/
theorem run_owned {c : Client} {rs : List Request} (zero : origin.Used 0)
    (fits : origin.totalPages ≤ 2 ^ 20) (run : Run Step ⟨origin, []⟩ rs c) : Owned origin c :=
  run.invariant (fun _ _ _ owned stepped => owned.step zero fits stepped) (Owned.initial origin)

/-- Sixteen pages, page zero reserved. -/
def sixteenPages : Pmm := ⟨fun _ => 1#8, 16, 2, []⟩

theorem run_owned_sixteen :
    ∃ c, Run Step ⟨sixteenPages, []⟩ [.allocPages 2, .alloc, .freePages 4096 2, .alloc] c ∧
      c.live = [⟨4096, 1⟩, ⟨12288, 1⟩] ∧ Owned sixteenPages c := by
  have run : ∃ c, Run Step ⟨sixteenPages, []⟩ [.allocPages 2, .alloc, .freePages 4096 2, .alloc] c ∧
      c.live = [⟨4096, 1⟩, ⟨12288, 1⟩] :=
    ⟨_, .next (.allocPages _ 2) (.next (.alloc _)
      (.next (.freePages _ ⟨4096, 2⟩ (by decide)) (.single (.alloc _)))), by decide⟩
  obtain ⟨c, run, live⟩ := run
  exact ⟨c, run, live, run_owned (by decide) (by decide) run⟩

end Laomb.PMM
