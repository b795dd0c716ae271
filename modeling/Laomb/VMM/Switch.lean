import Laomb.VMM.InitPd

/-! The step of `_start` that switches to the new directory, and what the calls that follow
find at the pointers they make of directory entries. -/
namespace Laomb.VMM
open PMM Word FirstFit

variable {p q : Pmm} {m m' : Machine} {space : Nat → Nat} {kernel : KernelImage}
    {f c i j t dir vaddr paddr flags cr3 : Nat}
  {g : Nat → Bool × Bool}

/-- The fields of the framebuffer attribute that `_start` reads. -/
structure Framebuffer where
  width : Nat
  height : Nat
  physicalAddress : Nat

def Framebuffer.size (fb : Framebuffer) : Nat := u32 (fb.width * fb.height * 4)

namespace Machine

/-- `vmm_init_pd`, the framebuffer mapping and `vmm_switch_pd`, in the mapping of the boot
loader: the value of `cr3` and the memory at the switch. -/
def startPaging (m : Machine) (space : Nat → Nat) (higherHalfBase : Nat) (map : List MemoryMapEntry)
    (kernel : KernelImage) (fb : Framebuffer) : Option (Nat × Machine) := do
  let (pd, m) ← m.vmmInitPd space higherHalfBase map kernel
  let dir := space (pd / pageSize)
  let m := (m.vmmUnmapPage space dir 0xfc000000).2
  let m := (m.vmmMapPage space dir 0xfc000000 fb.size (u32 fb.physicalAddress) (pagePresent ||| pageRw)).2
  pure (sub32 pd higherHalfBase, m)

/-- The pointer is mapped and reaches the frame of its own number. -/
def Own (m : Machine) (cr3 pointer : Nat) : Prop := ∃ writable, m.walk cr3 pointer = some (pointer, writable)

/-- The pointers to tables that the loop of `vmm_map_page` follows, each with the memory in
which it does, when every one reaches its frame. -/
def mapPointers (dir flags : Nat) : (count vaddr paddr : Nat) → Machine → List (Nat × Machine)
  | 0, _, _, _ => []
  | count + 1, vaddr, paddr, m =>
    match m.linkTable dir vaddr with
    | (false, _) => []
    | (true, m) =>
      ((m.frames dir (dirIndex vaddr)).target, m) ::
        mapPointers dir flags count (u32 (vaddr + pageSize)) (u32 (paddr + pageSize))
          (m.setPage id dir vaddr paddr flags)

end Machine

/-- A later call on `kernel_page_directory`. -/
inductive Call where
  | map (vaddr size paddr flags : Nat)
  | unmap (virtualAddress : Nat)

namespace Call

def run (dir : Nat) (m : Machine) : Call → Machine
  | map vaddr size paddr flags => (m.vmmMapPage id dir vaddr size paddr flags).2
  | unmap virtualAddress => (m.vmmUnmapPage id dir virtualAddress).2

/-- The pointers to tables that the call follows. -/
def pointers (dir : Nat) (m : Machine) : Call → List (Nat × Machine)
  | map vaddr size paddr flags =>
    Machine.mapPointers dir flags (roundUpToPage size / pageSize) vaddr paddr m
  | unmap virtualAddress =>
    let pageDirEntry := m.frames dir (dirIndex (roundDownToPage virtualAddress))
    if pageDirEntry.present then [(pageDirEntry.target, m)] else []

end Call

/-- After any calls, every pointer to a table that a further call follows is mapped to the
frame of its own number. -/
def TablesMapped (m : Machine) (cr3 : Nat) : Prop :=
  ∀ (history : List Call) (call : Call),
    ∀ pointer ∈ call.pointers (cr3 / pageSize) (history.foldl (Call.run (cr3 / pageSize)) m),
      pointer.2.Own cr3 pointer.1

theorem dirIndex_page (page : Nat) : dirIndex (page * pageSize) = page / 1024 := by
  rw [dirIndex, Nat.shiftRight_eq_div_pow]
  unfold pageSize
  omega

theorem tableIndex_page (page : Nat) : tableIndex (page * pageSize) = page % 1024 := by
  have masked := Nat.and_two_pow_sub_one_eq_mod ((page * pageSize) >>> 12) 10
  rw [tableIndex, show (0x03FF : Nat) = 2 ^ 10 - 1 from rfl, masked, Nat.shiftRight_eq_div_pow]
  unfold pageSize
  omega

theorem roundDown_page (small : t < 2 ^ 20) : roundDownToPage (t * pageSize) = t * pageSize := by
  rw [roundDownToPage, show pageSize = 2 ^ 12 from rfl, alignDown_pow (by decide) (by omega),
    Nat.mul_div_cancel _ (by decide)]

/-- What it takes for a table's pointer to reach it. -/
theorem own_page (own : m.Own (f * pageSize) (t * pageSize)) :
    (m.frames f (t / 1024)).present = true ∧
      (m.frames (m.frames f (t / 1024)).address.toNat (t % 1024)).present = true := by
  obtain ⟨writable, walk⟩ := own
  rw [Machine.walk, Nat.mul_div_cancel _ (by decide), dirIndex_page, tableIndex_page] at walk
  by_cases dir : (m.frames f (t / 1024)).present = true
  · refine ⟨dir, ?_⟩
    by_contra absent
    simp only [dir, if_true, if_neg absent] at walk
    cases walk
  · rw [if_neg dir] at walk
    cases walk

/-- The entry `j` of the directory refers to the table in frame `t`. -/
structure Links (m : Machine) (f j t : Nat) : Prop where
  index : j < 1024
  present : (m.frames f j).present = true
  address : (m.frames f j).address.toNat = t

theorem Links.small (links : Links m f j t) : t < 2 ^ 20 := links.address ▸ (m.frames f j).address.isLt

theorem Links.pointer (links : Links m f j t) :
    (t * pageSize, m) ∈ (Call.unmap (j * 1024 * pageSize)).pointers f m := by
  have index : dirIndex (roundDownToPage (j * 1024 * pageSize)) = j := by
    rw [roundDown_page (by have := links.index; omega), dirIndex_page]
    omega
  simp only [Call.pointers, index, links.present, if_true, List.mem_singleton, PageEntry.target,
    links.address]

theorem TablesMapped.own (mapped : TablesMapped m (f * pageSize)) (links : Links m f j t) :
    m.Own (f * pageSize) (t * pageSize) := by
  apply mapped [] (.unmap (j * 1024 * pageSize)) (t * pageSize, m)
  rw [Nat.mul_div_cancel _ (by decide)]
  exact links.pointer

/-- Clearing the present bit of one entry. -/
def Machine.clearPresent (m : Machine) (frame index : Nat) : Machine :=
  m.put frame index { m.frames frame index with present := false }

theorem clearPresent_address (m : Machine) (frame index frame' index' : Nat) :
    ((m.clearPresent frame index).frames frame' index').address = (m.frames frame' index').address := by
  rw [Machine.clearPresent, Machine.put_frames]
  by_cases here : frame' = frame ∧ index' = index
  · rw [if_pos here, here.1, here.2]
  · rw [if_neg here]

theorem clearPresent_self (m : Machine) (frame index : Nat) :
    ((m.clearPresent frame index).frames frame index).present = false := by
  rw [Machine.clearPresent, Machine.put_frames, if_pos ⟨rfl, rfl⟩]

/-- Unmapping the page of a table makes its pointer useless, unless that clears the entry
that refers to the table. -/
theorem TablesMapped.unmap (mapped : TablesMapped m (f * pageSize)) (links : Links m f j t) :
    (m.frames f (t / 1024)).address.toNat = f ∧ t % 1024 = j := by
  by_contra apart
  have small := links.small
  obtain ⟨dir, page⟩ := own_page (mapped.own links)
  generalize table : (m.frames f (t / 1024)).address.toNat = frame at apart page
  have call : (Call.unmap (t * pageSize)).run f m =
      ({ m with pmm := pmmFree m.pmm (m.frames frame (t % 1024)).target } : Machine).clearPresent
        frame (t % 1024) := by
    simp only [Call.run, Machine.vmmUnmapPage, roundDown_page small, dirIndex_page, tableIndex_page,
      dir, if_true, PageEntry.target, Nat.mul_div_cancel _ (show 0 < pageSize by decide), id, table,
      page, Machine.clearPresent]
  have kept : Links ((Call.unmap (t * pageSize)).run f m) f j t := by
    rw [call]
    refine ⟨links.index, ?_, by rw [clearPresent_address]; exact links.address⟩
    rw [Machine.clearPresent, Machine.put_frames, if_neg fun same => apart ⟨same.1.symm, same.2.symm⟩]
    exact links.present
  have own := mapped [.unmap (t * pageSize)] (.unmap (j * 1024 * pageSize)) _ (by
    rw [Nat.mul_div_cancel _ (by decide)]
    exact kept.pointer)
  have still := (own_page own).2
  rw [call, clearPresent_address] at still
  simp only [table, clearPresent_self] at still
  cases still

/-- A directory that keeps its tables in reach of every later call refers to itself, in the
entry that both halves of its page number select. -/
theorem TablesMapped.recursive (mapped : TablesMapped m (f * pageSize)) (links : Links m f j t)
    (small : f < 2 ^ 20) :
    ∃ a, f = a * 1024 + a ∧ Links m f a f := by
  obtain ⟨first, index⟩ := mapped.unmap links
  have present := (own_page (mapped.own links)).1
  have self : Links m f (t / 1024) f := ⟨by have := links.small; omega, present, first⟩
  obtain ⟨second, index'⟩ := mapped.unmap self
  have present' := (own_page (mapped.own self)).1
  have self' : Links m f (f / 1024) f := ⟨by omega, present', second⟩
  obtain ⟨_, index''⟩ := mapped.unmap self'
  exact ⟨f / 1024, by omega, self'⟩

namespace Machine

theorem linkTable_present (linked : (m.linkTable dir vaddr).1 = true) :
    ((m.linkTable dir vaddr).2.frames dir (dirIndex vaddr)).present = true := by
  unfold linkTable at *
  by_cases present : (m.frames dir (dirIndex vaddr)).present = true
  · rw [if_pos present]
    exact present
  · rw [if_neg present] at linked ⊢
    simp only at linked ⊢
    by_cases failed : (pmmAlloc m.pmm).1 = null
    · rw [if_pos failed] at linked
      cases linked
    · rw [if_neg failed, put_frames, if_pos ⟨rfl, rfl⟩]
      rfl

/-- What both halves of an iteration preserve, the loop preserves. -/
theorem mapPages_preserves {P : Machine → Prop}
    (link : ∀ m vaddr, vaddr < 2 ^ 32 → P m → P (m.linkTable dir vaddr).2)
    (set : ∀ m vaddr paddr, vaddr < 2 ^ 32 → (m.frames dir (dirIndex vaddr)).present = true → P m →
      P (m.setPage space dir vaddr paddr flags))
    (count : Nat) (small : vaddr < 2 ^ 32) (holds : P m) :
    P (mapPages space dir flags count vaddr paddr m).2 := by
  induction count generalizing vaddr paddr m with
  | zero => exact holds
  | succ count ih =>
    have linked := link m vaddr small holds
    have present : (m.linkTable dir vaddr).1 = true →
        ((m.linkTable dir vaddr).2.frames dir (dirIndex vaddr)).present = true := linkTable_present
    rw [mapPages]
    generalize m.linkTable dir vaddr = result at linked present
    obtain ⟨done, m'⟩ := result
    cases done with
    | false => exact linked
    | true => exact ih (u32_lt _) (set m' vaddr paddr small (present rfl) linked)

/-- Mapping with the present bit never clears a present bit. -/
theorem mapPages_present (frame index : Nat) (count : Nat) (small : vaddr < 2 ^ 32)
    (present : (m.frames frame index).present = true) :
    ((mapPages space dir (pagePresent ||| pageRw) count vaddr paddr m).2.frames frame
      index).present = true := by
  refine mapPages_preserves (P := fun m => (m.frames frame index).present = true) ?_ ?_ count small present
  · intro m vaddr _ present
    unfold linkTable
    by_cases old : (m.frames dir (dirIndex vaddr)).present = true
    · rw [if_pos old]
      exact present
    · rw [if_neg old]
      simp only
      by_cases failed : (pmmAlloc m.pmm).1 = null
      · rw [if_pos failed]
        exact present
      · rw [if_neg failed, put_frames]
        split
        · rfl
        · exact present
  · intro m vaddr paddr _ _ present
    rw [setPage, put_frames]
    split
    · rfl
    · exact present

end Machine

/-- The directory's frame stays apart from every table and from every page that may become
one, also behind the pointer in the mapping of the boot loader. -/
structure Apart (space : Nat → Nat) (f : Nat) (m : Machine) : Prop where
  total : m.pmm.totalPages ≤ 2 ^ 20
  free : ∀ page < m.pmm.totalPages, m.pmm.Free page → page ≠ f ∧ space page ≠ f
  linked : ∀ j t, Links m f j t → t ≠ f ∧ space t ≠ f

/-- Allocation only takes pages away, and hands out one that was free. -/
theorem pmmAlloc_takes (total : q.totalPages ≤ 2 ^ 20) :
    (pmmAlloc q).2.totalPages = q.totalPages ∧ (∀ page, (pmmAlloc q).2.Free page → q.Free page) ∧
      ((pmmAlloc q).1 ≠ null → ∃ page < q.totalPages, q.Free page ∧ (pmmAlloc q).1 = page * pageSize) := by
  have outcome := pmmAlloc_outcome q (by omega)
  generalize pmmAlloc q = result at outcome
  cases outcome with
  | exhausted r none viewed =>
    exact ⟨viewed.totalPages, fun page free used => free ((viewed.used page).mpr used), fun some =>
      absurd rfl some⟩
  | found start r first viewed =>
    obtain ⟨low, member⟩ := runAt_one.mp first.fits
    refine ⟨by rw [setPages_totalPages, viewed.totalPages], fun page free used => free ?_, fun _ => ?_⟩
    · exact (setPages_used r (by omega) page).mpr (.inr ((viewed.used page).mpr used))
    · exact ⟨start, low, member, u32_of_lt (by unfold pageSize; omega)⟩

namespace Apart

theorem link (apart : Apart space f m) : Apart space f (m.linkTable f vaddr).2 := by
  obtain ⟨total, fewer, handed⟩ := pmmAlloc_takes apart.total
  unfold Machine.linkTable
  by_cases old : (m.frames f (dirIndex vaddr)).present = true
  · rw [if_pos old]
    exact apart
  · rw [if_neg old]
    simp only
    have free : ∀ page < (pmmAlloc m.pmm).2.totalPages, (pmmAlloc m.pmm).2.Free page → page ≠ f ∧
        space page ≠ f :=
      fun page below free => apart.free page (total ▸ below) (fewer page free)
    by_cases failed : (pmmAlloc m.pmm).1 = null
    · rw [if_pos failed]
      exact ⟨total.trans_le apart.total, free, fun j t links =>
        apart.linked j t ⟨links.index, links.present, links.address⟩⟩
    · rw [if_neg failed]
      obtain ⟨page, below, member, address⟩ := handed failed
      refine ⟨total.trans_le apart.total, free, fun j t links => ?_⟩
      by_cases here : j = dirIndex vaddr
      · have leaf :=
          set_leaf (m.frames f (dirIndex vaddr)) (pagePresent ||| pageRw) (below.trans_le apart.total)
        have same := links.address
        rw [Machine.put_frames, if_pos ⟨rfl, here⟩, address, leaf.address] at same
        exact same ▸ apart.free page below member
      · refine apart.linked j t ⟨links.index, ?_, ?_⟩
        · have present := links.present
          rwa [Machine.put_frames, if_neg fun same => here same.2] at present
        · have address := links.address
          rwa [Machine.put_frames, if_neg fun same => here same.2] at address

/-- A write behind another frame changes nothing. -/
theorem put {frame index : Nat} {e : PageEntry} (apart : Apart space f m) (other : frame ≠ f) :
    Apart space f (m.put frame index e) := by
  refine ⟨apart.total, apart.free, fun j t links => apart.linked j t ⟨links.index, ?_, ?_⟩⟩
  · have present := links.present
    rwa [Machine.put_frames, if_neg fun same => other same.1.symm] at present
  · have address := links.address
    rwa [Machine.put_frames, if_neg fun same => other same.1.symm] at address

theorem set (apart : Apart space f m) (small : vaddr < 2 ^ 32)
    (present : (m.frames f (dirIndex vaddr)).present = true) :
    Apart space f (m.setPage space f vaddr paddr flags) := by
  have index : dirIndex vaddr < 1024 := by
    rw [dirIndex, Nat.shiftRight_eq_div_pow]
    omega
  have other := (apart.linked _ _ ⟨index, present, rfl⟩).2
  rw [Machine.setPage, PageEntry.target, Nat.mul_div_cancel _ (by decide)]
  exact apart.put other

theorem mapPages (apart : Apart space f m) (count : Nat) (small : vaddr < 2 ^ 32) :
    Apart space f (Machine.mapPages space f flags count vaddr paddr m).2 :=
  Machine.mapPages_preserves (fun _ _ _ holds => holds.link)
    (fun _ _ _ small present holds => holds.set small present)
    count small apart

end Apart

/-- The boot loader's mapping also reaches the pages that the framebuffer mapping may take:
those left over, and the one that unmapping the window gives back. -/
structure ReachesLater (space : Nat → Nat) (p : Pmm) : Prop where
  tables : ∀ rank page, 257 ≤ rank → page < p.totalPages → Handed p rank page → space page = page
  window : space 0x3C000 = 0x3C000

namespace Built

/-- The tables of a directory that is built to the end. -/
theorem table (built : Built p f c (2 ^ 18) g m) (reaches : Reaches space p) {k : Nat} (inside : k < 256) :
    ∃ t, Handed p (k + 1) t ∧ Leaf (m.frames f (768 + k)) (true, true) t ∧ t ≠ f ∧ space t = t := by
  have within := built.within
  obtain ⟨t, handed, leaf⟩ := built.linked k (by omega)
  exact ⟨t, handed, leaf, handed_ne handed built.first (Nat.succ_ne_zero k),
    reaches.tables (k + 1) t (Nat.succ_pos k) (by omega) handed⟩

/-- Unmapping the window leaves the directory alone and may free the frame behind it. -/
theorem unmapWindow (built : Built p f c (2 ^ 18) g m) (reaches : Reaches space p) :
    (m.vmmUnmapPage space f 0xfc000000).2.frames f = m.frames f ∧
      ((m.vmmUnmapPage space f 0xfc000000).2.pmm = m.pmm ∨
        (m.vmmUnmapPage space f 0xfc000000).2.pmm = pmmFree m.pmm (0x3C000 * pageSize)) := by
  obtain ⟨t, handed, dir, other, reach⟩ := built.table reaches (k := 240) (by decide)
  have leaf := built.pages 0x3C000 (by decide) t handed
  have vaddr : roundDownToPage 0xfc000000 = 0xfc000000 := by decide
  have directory : dirIndex 0xfc000000 = 768 + 240 := by decide
  have index : tableIndex 0xfc000000 = 0x3C000 % 1024 := by decide
  unfold Machine.vmmUnmapPage
  simp only [vaddr, directory, index, dir.present, if_true, PageEntry.target, dir.address,
    Nat.mul_div_cancel t (show 0 < pageSize by decide), reach]
  by_cases present : (m.frames t (0x3C000 % 1024)).present = true
  · rw [if_pos present, leaf.address]
    refine ⟨funext fun i => ?_, .inr rfl⟩
    rw [Machine.put_frames, if_neg fun same => other same.1.symm]
  · rw [if_neg present]
    exact ⟨rfl, .inl rfl⟩

/-- Where the directory is not the frame behind the window, it stays apart. -/
theorem apart (built : Built p f c (2 ^ 18) g m) (total : p.totalPages ≤ 2 ^ 20) (reaches : Reaches space p)
    (later : ReachesLater space p) (elsewhere : f ≠ 0x3C000) :
    Apart space f (m.vmmUnmapPage space f 0xfc000000).2 := by
  obtain ⟨same, pmm⟩ := built.unmapWindow reaches
  generalize (m.vmmUnmapPage space f 0xfc000000).2 = m' at same pmm
  have within := built.within
  have count := built.count
  have untouched : ∀ page < p.totalPages, m.pmm.Free page → page ≠ f ∧ space page ≠ f := by
    intro page below free
    have unused : ¬ (p.Used page ∨ Nat.count p.Free page < c + 1) := fun used =>
      free ((built.taken.used page).mpr used)
    obtain ⟨member, high⟩ := not_or.mp unused
    have handed : Handed p (Nat.count p.Free page) page := ⟨member, rfl⟩
    have other : page ≠ f := handed_ne handed built.first (by omega)
    rw [later.tables _ page (by omega) below handed]
    exact ⟨other, other⟩
  have kept : m'.pmm.totalPages = p.totalPages := by
    rcases pmm with pmm | pmm
    · rw [pmm, built.taken.total]
    · rw [pmm, pmmFree, Pmm.clearBit_totalPages, built.taken.total]
  refine ⟨kept.trans_le total, fun page below free => ?_, fun j t links => ?_⟩
  · rcases pmm with pmm | pmm
    · exact untouched page (kept ▸ below) (pmm ▸ free)
    · by_cases window : page = 0x3C000
      · rw [window, later.window]
        exact ⟨elsewhere.symm, elsewhere.symm⟩
      · refine untouched page (kept ▸ below) fun used => free ?_
        rw [pmm, pmmFree, Pmm.clearBit_used]
        exact ⟨window, used⟩
  · have present := links.present
    have address := links.address
    have index := links.index
    rw [same] at present address
    have high : 768 ≤ j := by
      by_contra low
      rw [built.lower j (by omega)] at present
      cases present
    obtain ⟨t', _, leaf, other, reach⟩ := built.table reaches (k := j - 768) (by omega)
    have place : 768 + (j - 768) = j := by omega
    rw [place] at leaf
    obtain rfl : t' = t := leaf.address.symm.trans address
    rw [reach]
    exact ⟨other, other⟩

end Built

/-- Inside the window the loop never links a table. -/
theorem mapPages_window (tables : ∀ k, 1008 ≤ k → k < 1024 →
      (m.frames f k).present = true ∧ space (m.frames f k).address.toNat ≠ f)
    (count : Nat) (low : 0xfc000000 ≤ vaddr) (high : vaddr + count * pageSize ≤ 2 ^ 32) :
    (Machine.mapPages space f flags count vaddr paddr m).2.frames f = m.frames f := by
  induction count generalizing vaddr paddr m with
  | zero => rfl
  | succ count ih =>
    rw [Nat.succ_mul] at high
    have index : 1008 ≤ dirIndex vaddr ∧ dirIndex vaddr < 1024 := by
      rw [dirIndex, Nat.shiftRight_eq_div_pow]
      unfold pageSize at high
      omega
    obtain ⟨present, other⟩ := tables _ index.1 index.2
    have linked : m.linkTable f vaddr = (true, m) := by rw [Machine.linkTable, if_pos present]
    have kept : (m.setPage space f vaddr paddr flags).frames f = m.frames f := by
      funext i
      rw [Machine.setPage, PageEntry.target, Nat.mul_div_cancel _ (by decide), Machine.put_frames,
        if_neg fun same => other same.1.symm]
    rw [Machine.mapPages, linked]
    by_cases last : count = 0
    · subst last
      exact kept
    · have word : u32 (vaddr + pageSize) = vaddr + pageSize := u32_of_lt (by unfold pageSize at *; omega)
      simp only [word]
      rw [ih (by rw [kept]; exact tables) (by omega) (by omega), kept]

/-- The directory at the switch: no table lost since `vmm_init_pd`, none in the lower part
while the framebuffer fits the window, and none of it in the directory's own frame. -/
theorem startPaging_directory (map : List MemoryMapEntry) (kernel : KernelImage) (fb : Framebuffer)
    (enough : Enough m.pmm 257) (reaches : Reaches space m.pmm) : ∃ f m', f < 2 ^ 20 ∧
      m.startPaging space 0xC0000000 map kernel fb = some (f * pageSize, m') ∧
      (∃ t, Links m' f 768 t) ∧
      (fb.size ≤ 0x4000000 → (∀ k < 768, (m'.frames f k).present = false) ∧ ∃ t, Handed m.pmm 1 t ∧
        Links m' f 768 t) ∧
      (m.pmm.totalPages ≤ 2 ^ 20 → ReachesLater space m.pmm → f ≠ 0x3C000 → Apart space f m') := by
  obtain ⟨f, c, m₁, small, run, built⟩ := vmmInitPd_built map kernel enough reaches
  have dir := reaches.directory f built.first
  obtain ⟨same, -⟩ := built.unmapWindow reaches
  obtain ⟨t, handed, leaf, other, reach⟩ := built.table reaches (k := 0) (by decide)
  refine ⟨f, ((m₁.vmmUnmapPage space f 0xfc000000).2.vmmMapPage space f 0xfc000000 fb.size
    (u32 fb.physicalAddress) (pagePresent ||| pageRw)).2, small, ?_, ?_, ?_, ?_⟩
  · rw [Machine.startPaging, run, Option.bind_eq_bind, Option.bind_some]
    simp only [dir, cr3_directory small]
    rfl
  · refine ⟨_, by decide, Machine.mapPages_present f 768 _ (by decide) ?_, rfl⟩
    rw [same]
    exact leaf.present
  · intro fits
    have pages : roundUpToPage fb.size / pageSize * pageSize ≤ 0x4000000 := by
      rw [roundUpToPage, show pageSize = 2 ^ 12 from rfl, alignUp_pow (by decide),
        Nat.mul_div_cancel _ (by decide)]
      omega
    have kept : ∀ paddr flags,
        ((m₁.vmmUnmapPage space f 0xfc000000).2.vmmMapPage space f 0xfc000000 fb.size paddr
        flags).2.frames f = m₁.frames f := by
      intro paddr flags
      rw [Machine.vmmMapPage, mapPages_window _ _ (Nat.le_refl _) (by omega), same]
      intro k first last
      obtain ⟨t, _, leaf, other, reach⟩ := built.table reaches (k := k - 768) (by omega)
      have place : 768 + (k - 768) = k := by omega
      rw [place] at leaf
      rw [same, leaf.address, reach]
      exact ⟨leaf.present, other⟩
    refine ⟨fun k low => ?_, t, handed, by decide, ?_, ?_⟩
    · rw [kept]
      exact built.lower k low
    · rw [kept]
      exact leaf.present
    · rw [kept]
      exact leaf.address
  · intro total later elsewhere
    exact (built.apart total reaches later elsewhere).mapPages _ (by decide)

/-- The pointer of the first table: an address that the directory does not map. -/
theorem walk_lower {pointer : Nat} (lower : ∀ k < 768, (m.frames f k).present = false)
    (low : pointer < 0xC0000000) :
    m.walk (f * pageSize) pointer = none := by
  have absent := lower (dirIndex pointer) (by
    rw [dirIndex, Nat.shiftRight_eq_div_pow]
    omega)
  rw [Machine.walk, Nat.mul_div_cancel _ (by decide), if_neg (by rw [absent]; decide)]

/-- The code never keeps its tables in reach: some sequence of calls always makes it follow a
pointer that its directory does not map to the table. Where the framebuffer fits the window
this takes no earlier call, since the directory maps nothing below the higher half and the
pointers are physical numbers. -/
theorem startPaging_loses_tables (m : Machine) (space : Nat → Nat) (map : List MemoryMapEntry)
    (kernel : KernelImage) (fb : Framebuffer) (enough : Enough m.pmm 257)
    (total : m.pmm.totalPages ≤ 2 ^ 20) (reaches : Reaches space m.pmm)
    (later : ReachesLater space m.pmm) :
    ∃ cr3 m', m.startPaging space 0xC0000000 map kernel fb = some (cr3, m') ∧ ¬ TablesMapped m' cr3 ∧
      (fb.size ≤ 0x4000000 → ∀ vaddr, ∀ pointer ∈ (Call.unmap vaddr).pointers (cr3 / pageSize) m',
        pointer.1 < 0xC0000000 → pointer.2.walk cr3 pointer.1 = none) := by
  obtain ⟨f, m', small, run, ⟨t, links⟩, lower, apart⟩ := startPaging_directory map kernel fb enough reaches
  refine ⟨_, m', run, fun mapped => ?_, fun fits vaddr pointer member low => ?_⟩
  · obtain ⟨a, recursive, self⟩ := mapped.recursive links small
    exact ((apart total later (by omega)).linked a f self).1 rfl
  · have here : pointer.2 = m' := by
      simp only [Call.pointers] at member
      split at member
      · rw [List.mem_singleton.mp member]
      · cases member
    rw [here]
    exact walk_lower (lower fits).1 low

theorem loaderSpace_reachesLater : ReachesLater loaderSpace freshPmm where
  tables rank page _ below _ := by
    have low : page < 1024 := below
    rw [loaderSpace, if_neg (by omega)]
  window := by decide

/-- The framebuffer of an 800 by 600 screen. -/
def screen : Framebuffer := ⟨800, 600, 0xFD000000⟩

theorem startPaging_loses_tables_screen : ∃ cr3 m', freshMachine.startPaging loaderSpace 0xC0000000
    [⟨0, 0x400000, memoryTypeFree⟩] smallKernel screen = some (cr3, m') ∧ ¬ TablesMapped m' cr3 ∧
    (screen.size ≤ 0x4000000 → ∀ vaddr, ∀ pointer ∈ (Call.unmap vaddr).pointers (cr3 / pageSize) m',
      pointer.1 < 0xC0000000 → pointer.2.walk cr3 pointer.1 = none) :=
  startPaging_loses_tables freshMachine loaderSpace _ smallKernel screen freshPmm_enough (by decide)
    loaderSpace_reaches loaderSpace_reachesLater

/-- The first call after the switch, on the first page of the higher half, follows a pointer
that is not mapped. -/
theorem screen_firstCall : ∃ cr3 m', freshMachine.startPaging loaderSpace 0xC0000000
    [⟨0, 0x400000, memoryTypeFree⟩] smallKernel screen = some (cr3, m') ∧
    ∃ pointer ∈ (Call.unmap 0xC0000000).pointers (cr3 / pageSize) m', ¬ pointer.2.Own cr3 pointer.1 := by
  obtain ⟨f, m', small, run, -, fits, -⟩ :=
    startPaging_directory (m := freshMachine)
      [⟨0, 0x400000, memoryTypeFree⟩] smallKernel screen freshPmm_enough
      loaderSpace_reaches
  obtain ⟨lower, t, handed, links⟩ := fits (by decide)
  refine ⟨_, m', run, (t * pageSize, m'), ?_, fun ⟨writable, walk⟩ => ?_⟩
  · rw [Nat.mul_div_cancel _ (by decide)]
    exact links.pointer
  · rw [freshPmm_handed handed, walk_lower lower (show 1 * pageSize < 0xC0000000 by decide)] at walk
    cases walk

end Laomb.VMM
