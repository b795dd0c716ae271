import Laomb.Base.Rank
import Laomb.VMM.PageTable

/-! The page directory while `vmm_init_pd` builds it. The frames it takes are the lowest
free ones in order, so the rank of a frame tells which table it holds. -/
namespace Laomb.VMM
open PMM Word FirstFit Rank

variable {p q : Pmm} {m m' : Machine} {space : Nat → Nat} {map : List MemoryMapEntry} {kernel : KernelImage}
  {f c n i j page pd vaddr paddr flags : Nat} {g g' : Nat → Bool × Bool}

/-- The `rank`-th page that `pmm_alloc` would hand out. -/
abbrev Handed (p : Pmm) (rank page : Nat) : Prop := Ranked p.Free rank page

/-- There are `count` free pages among those that `pmm_alloc` looks at. -/
structure Enough (p : Pmm) (count : Nat) : Prop where
  word : p.totalPages < 2 ^ 32
  free : count ≤ Nat.count p.Free (min p.totalPages (2 ^ 20))

/-- `q` is `p` after `count` calls of `pmm_alloc`. -/
structure Taken (p : Pmm) (count : Nat) (q : Pmm) : Prop where
  total : q.totalPages = p.totalPages
  used : ∀ page, q.Used page ↔ p.Used page ∨ Nat.count p.Free page < count

theorem Taken.zero (p : Pmm) : Taken p 0 p :=
  ⟨rfl, fun _ => (or_iff_left (Nat.not_lt_zero _)).symm⟩

theorem Taken.alloc (taken : Taken p j q) (enough : Enough p n) (room : j < n) : ∃ page,
    Handed p j page ∧ page < 2 ^ 20 ∧ (pmmAlloc q).1 = pageAddress page ∧ Taken p (j + 1) (pmmAlloc q).2 := by
  obtain ⟨next, below, ranked⟩ := exists_ranked (Nat.lt_of_lt_of_le room enough.free)
  have inside := lt_min_iff.mp below
  have unused : q.Free next := by
    intro used
    rcases (taken.used next).mp used with earlier | early
    · exact ranked.member earlier
    · rw [ranked.count] at early
      exact Nat.lt_irrefl _ early
  have word := enough.word
  have outcome := pmmAlloc_outcome q (by rw [taken.total]; omega)
  generalize pmmAlloc q = result at outcome
  cases outcome with
  | exhausted r none => exact absurd (runAt_one.mpr ⟨by rw [taken.total]; exact inside.1, unused⟩) (none next)
  | found start r first viewed =>
    obtain ⟨low, free⟩ := runAt_one.mp first.fits
    have member : p.Free start := fun used => free ((taken.used start).mpr (.inl used))
    have least : ∀ k < start, p.Free k → Nat.count p.Free k < j := by
      intro k less freed
      by_contra late
      refine first.least k less (runAt_one.mpr ⟨Nat.lt_trans less low, fun used => ?_⟩)
      exact ((taken.used k).mp used).elim freed late
    have handed : Handed p j start :=
      ranked_least member (Nat.not_lt.mp fun early => free ((taken.used start).mpr (.inr early))) least
    have small : start < 2 ^ 20 := handed.unique ranked ▸ inside.2
    refine ⟨start, handed, small, rfl, ?_, fun page => ?_⟩
    · rw [setPages_totalPages, viewed.totalPages, taken.total]
    · rw [setPages_used r (by omega), viewed.used, taken.used]
      constructor
      · rintro (⟨above, behind⟩ | used | early)
        · have same : page = start := by omega
          exact .inr (by rw [same, handed.count]; omega)
        · exact .inl used
        · exact .inr (by omega)
      · rintro (used | early)
        · exact .inr (.inl used)
        · by_cases used : p.Used page
          · exact .inr (.inl used)
          · by_cases earlier : Nat.count p.Free page < j
            · exact .inr (.inr earlier)
            · have same := handed.unique ⟨used, by omega⟩
              exact .inl (by omega)

/-- The boot loader's mapping reaches the frames that `vmm_init_pd` takes: the first one
through the higher half, the others at their own addresses. -/
structure Reaches (space : Nat → Nat) (p : Pmm) : Prop where
  directory : ∀ page, Handed p 0 page → space (u32 (pageAddress page + 0xC0000000) / pageSize) = page
  tables : ∀ rank page, 0 < rank → rank < 257 → Handed p rank page → space page = page

/-- An entry for a physical page with these flags. -/
structure Leaf (entry : PageEntry) (flags : Bool × Bool) (page : Nat) : Prop where
  present : entry.present = flags.1
  readwrite : entry.readwrite = flags.2
  address : entry.address.toNat = page

/-- The directory in frame `f` with its first `c` tables of the higher half, whose first
`n` pages map themselves with the flags `g`. -/
structure Built (p : Pmm) (f c n : Nat) (g : Nat → Bool × Bool) (m : Machine) : Prop where
  first : Handed p 0 f
  taken : Taken p (c + 1) m.pmm
  count : c ≤ 256
  within : n ≤ c * 1024
  linked : ∀ k < c, ∃ t, Handed p (k + 1) t ∧ Leaf (m.frames f (768 + k)) (true, true) t
  unlinked : ∀ k < 256, c ≤ k → (m.frames f (768 + k)).present = false
  lower : ∀ k < 768, (m.frames f k).present = false
  pages : ∀ i < n, ∀ t, Handed p (i / 1024 + 1) t → Leaf (m.frames t (i % 1024)) (g i) i

theorem Built.congr (built : Built p f c n g m) (same : ∀ i < n, g i = g' i) : Built p f c n g' m :=
  { built with pages := fun i inside t handed => same i inside ▸ built.pages i inside t handed }

/-- The pointer to a page of the direct map. -/
def directAddress (page : Nat) : Nat := 0xC0000000 + page * pageSize

theorem dirIndex_direct (i : Nat) : dirIndex (directAddress i) = 768 + i / 1024 := by
  rw [dirIndex, directAddress, Nat.shiftRight_eq_div_pow]
  unfold pageSize
  omega

theorem tableIndex_direct (i : Nat) : tableIndex (directAddress i) = i % 1024 := by
  have masked := Nat.and_two_pow_sub_one_eq_mod (directAddress i >>> 12) 10
  rw [tableIndex, show (0x03FF : Nat) = 2 ^ 10 - 1 from rfl, masked, directAddress, Nat.shiftRight_eq_div_pow]
  unfold pageSize
  omega

theorem set_leaf (entry : PageEntry) (flags : Nat) (inside : page < 2 ^ 20) :
    Leaf (entry.set (page * pageSize) flags) (flags &&& pagePresent != 0, flags &&& pageRw != 0) page := by
  refine ⟨rfl, rfl, ?_⟩
  simp only [PageEntry.set, BitVec.toNat_ofNat]
  unfold pageSize
  omega

theorem handed_ne {j k t t' : Nat} (left : Handed p j t) (right : Handed p k t') (other : j ≠ k) :
    t ≠ t' := by
  rintro rfl
  exact other (left.count.symm.trans right.count)

namespace Built

/-- A frame that nothing points to yet becomes the next table. -/
theorem addTable {e : PageEntry} {t : Nat} (built : Built p f c n g m) (room : c < 256)
    (handed : Handed p (c + 1) t) (taken : Taken p (c + 2) q) (leaf : Leaf e (true, true) t) :
    Built p f (c + 1) n g (({ m with pmm := q } : Machine).put f (768 + c) e) := by
  have within : n ≤ (c + 1) * 1024 := built.within.trans (Nat.mul_le_mul_right 1024 (Nat.le_succ c))
  refine ⟨built.first, taken, room, within, fun k old => ?_, fun k bound new => ?_, fun k low => ?_,
    fun i inside t' table => ?_⟩
  · rw [Machine.put_frames]
    by_cases last : k = c
    · subst last
      rw [if_pos ⟨rfl, rfl⟩]
      exact ⟨t, handed, leaf⟩
    · rw [if_neg (by omega)]
      exact built.linked k (by omega)
  · rw [Machine.put_frames, if_neg (by omega)]
    exact built.unlinked k bound (by omega)
  · rw [Machine.put_frames, if_neg (by omega)]
    exact built.lower k low
  · have apart : t' ≠ f := handed_ne table built.first (Nat.succ_ne_zero _)
    rw [Machine.put_frames, if_neg fun same => apart same.1]
    exact built.pages i inside t' table

theorem setEntry {e : PageEntry} {t : Nat} {flags : Bool × Bool} (built : Built p f c n g m) (next : i ≤ n)
    (inside : i < c * 1024) (handed : Handed p (i / 1024 + 1) t) (leaf : Leaf e flags i) :
    Built p f c (max n (i + 1)) (Function.update g i flags) (m.put t (i % 1024) e) := by
  have within := built.within
  have apart : f ≠ t := (handed_ne handed built.first (Nat.succ_ne_zero _)).symm
  refine ⟨built.first, built.taken, built.count, by omega, fun k old => ?_, fun k bound new => ?_,
    fun k low => ?_, fun i' inside' t' table => ?_⟩
  · rw [Machine.put_frames, if_neg fun same => apart same.1]
    exact built.linked k old
  · rw [Machine.put_frames, if_neg fun same => apart same.1]
    exact built.unlinked k bound new
  · rw [Machine.put_frames, if_neg fun same => apart same.1]
    exact built.lower k low
  · rw [Machine.put_frames]
    by_cases here : i' = i
    · subst here
      rw [if_pos ⟨table.unique handed, rfl⟩, Function.update_self]
      exact leaf
    · rw [Function.update_of_ne here, if_neg]
      · exact built.pages i' (by omega) t' table
      · rintro ⟨rfl, index⟩
        have rank := table.count.symm.trans handed.count
        omega

/-- After its first half, the loop has a table for the page. -/
theorem link (built : Built p f c n g m) (enough : Enough p 257)
    (inside : i < 2 ^ 18) (near : i / 1024 ≤ c) :
    ∃ m', m.linkTable f (directAddress i) = (true, m') ∧ Built p f (max c (i / 1024 + 1)) n g m' := by
  by_cases old : i / 1024 < c
  · obtain ⟨t, _, leaf⟩ := built.linked (i / 1024) old
    refine ⟨m, ?_, ?_⟩
    · rw [Machine.linkTable, dirIndex_direct, if_pos leaf.present]
    · rw [max_eq_left (by omega)]
      exact built
  · have new : i / 1024 = c := by omega
    have absent := built.unlinked (i / 1024) (by omega) (by omega)
    obtain ⟨t, handed, small, address, taken⟩ := built.taken.alloc enough (by omega)
    have pointer : pageAddress t = t * pageSize := u32_of_lt (by unfold pageSize; omega)
    have nonzero : ¬ t * pageSize = null := by
      rw [← pointer, pageAddress_null small]
      exact handed.pos (Nat.succ_pos c)
    have leaf := set_leaf (m.frames f (768 + c)) (pagePresent ||| pageRw) small
    refine ⟨({ m with pmm := (pmmAlloc m.pmm).2 } : Machine).put f (768 + c)
      ((m.frames f (768 + c)).set (t * pageSize) (pagePresent ||| pageRw)), ?_, ?_⟩
    · rw [Machine.linkTable, dirIndex_direct, if_neg (by rw [absent]; decide)]
      simp only [address, pointer, if_neg nonzero, new]
    · rw [new, max_eq_right (by omega)]
      exact built.addTable (by omega) handed taken leaf

/-- After its second half, the entry of the page holds the page and the flags. -/
theorem setPage (built : Built p f c n g m) (reaches : Reaches space p)
    (flags : Nat) (next : i ≤ n) (inside : i < c * 1024) :
    Built p f c (max n (i + 1)) (Function.update g i (flags &&& pagePresent != 0, flags &&& pageRw != 0))
      (m.setPage space f (directAddress i) (i * pageSize) flags) := by
  have count := built.count
  have bound : i < 2 ^ 18 := by omega
  obtain ⟨t, handed, entry⟩ := built.linked (i / 1024) (by omega)
  have table : space ((m.frames f (768 + i / 1024)).target / pageSize) = t := by
    rw [PageEntry.target, entry.address, Nat.mul_div_cancel _ (by decide)]
    exact reaches.tables (i / 1024 + 1) t (Nat.succ_pos _) (by omega) handed
  rw [Machine.setPage]
  simp only [dirIndex_direct, table, tableIndex_direct]
  exact built.setEntry next inside handed (set_leaf _ flags (by omega))

/-- One iteration of `vmm_map_page` on a page of the direct map. -/
theorem mapPage (built : Built p f c n g m) (enough : Enough p 257) (reaches : Reaches space p)
    (flags : Nat) (inside : i < 2 ^ 18) (next : i ≤ n) (near : i / 1024 ≤ c) :
    ∃ m', m.linkTable f (directAddress i) = (true, m') ∧
      Built p f (max c (i / 1024 + 1)) (max n (i + 1))
        (Function.update g i (flags &&& pagePresent != 0, flags &&& pageRw != 0))
        (m'.setPage space f (directAddress i) (i * pageSize) flags) := by
  obtain ⟨m', linked, built'⟩ := built.link enough inside near
  exact ⟨m', linked, built'.setPage reaches flags next (by omega)⟩

end Built

end Laomb.VMM
