import Laomb.VMM.DirectMap

/-! `vmm_init_pd` as a whole: the flags that its passes leave for every page of the direct
map, and the maps for which they are the intended ones. -/
namespace Laomb.VMM
open PMM Word

variable {p : Pmm} {m m' : Machine} {space : Nat → Nat} {map : List MemoryMapEntry} {kernel : KernelImage}
  {f c n i k page pd : Nat} {g : Nat → Bool × Bool}

def flagBits (flags : Nat) : Bool × Bool := (flags &&& pagePresent != 0, flags &&& pageRw != 0)

/-- The flags after `count` pages from `i` on were mapped with `flags`. -/
def remap (g : Nat → Bool × Bool) (i count flags : Nat) (k : Nat) : Bool × Bool :=
  if i ≤ k ∧ k < i + count then flagBits flags else g k

theorem directAddress_succ (i : Nat) :
    u32 (u32 (directAddress i) + pageSize) = u32 (directAddress (i + 1)) := by
  unfold u32 directAddress pageSize
  omega

theorem directAddress_lt (inside : i < 2 ^ 18) : u32 (directAddress i) = directAddress i :=
  u32_of_lt (by unfold directAddress pageSize; omega)

namespace Built

/-- A run of `vmm_map_page` over the pages from `i` on. -/
theorem mapPages (built : Built p f c n g m) (enough : Enough p 257) (reaches : Reaches space p)
    (flags count : Nat) (next : i ≤ n) (room : i + count ≤ 2 ^ 18) :
    ∃ c' m', Machine.mapPages space f flags count (u32 (directAddress i)) (i * pageSize) m = (true, m') ∧
      Built p f c' (max n (i + count)) (remap g i count flags) m' := by
  induction count generalizing i n c g m with
  | zero =>
    refine ⟨c, m, rfl, ?_⟩
    rw [Nat.add_zero, max_eq_left next]
    exact built.congr fun k _ => by rw [remap, if_neg (by omega)]
  | succ count ih =>
    have within := built.within
    have inside : i < 2 ^ 18 := by omega
    obtain ⟨m₁, linked, built₁⟩ := built.mapPage enough reaches flags inside next (by omega)
    obtain ⟨c', m', run, built'⟩ := ih built₁ (Nat.le_max_right n (i + 1)) (by omega)
    have paddr : u32 (i * pageSize + pageSize) = (i + 1) * pageSize := by
      rw [Nat.succ_mul, u32_of_lt]
      unfold pageSize
      omega
    refine ⟨c', m', ?_, ?_⟩
    · rw [Machine.mapPages, directAddress_lt inside, linked]
      simp only [paddr]
      rw [← directAddress_lt inside, directAddress_succ, directAddress_lt inside]
      exact run
    · have reached : max (max n (i + 1)) (i + 1 + count) = max n (i + (count + 1)) := by omega
      rw [reached] at built'
      refine built'.congr fun k _ => ?_
      unfold remap
      by_cases first : k = i
      · subst first
        rw [if_neg (by omega), if_pos (by omega), Function.update_self]
        rfl
      · rw [Function.update_of_ne first]
        by_cases later : i + 1 ≤ k ∧ k < i + 1 + count
        · rw [if_pos later, if_pos (by omega)]
        · rw [if_neg later, if_neg (by omega)]

/-- Mapping the page after the last one. -/
theorem mapNext (built : Built p f c n g m) (enough : Enough p 257) (reaches : Reaches space p)
    (flags : Nat) (room : n < 2 ^ 18) :
    ∃ c' m', m.vmmMapPage space f (u32 (0xC0000000 + n * pageSize)) pageSize (n * pageSize) flags =
      (true, m') ∧
      Built p f c' (n + 1) (Function.update g n (flagBits flags)) m' := by
  have single : roundUpToPage pageSize / pageSize = 1 := by decide
  obtain ⟨c', m', run, built'⟩ := built.mapPages enough reaches flags 1 (Nat.le_refl n) room
  refine ⟨c', m', ?_, ?_⟩
  · rw [Machine.vmmMapPage, single]
    exact run
  · rw [max_eq_right (Nat.le_succ n)] at built'
    refine built'.congr fun k _ => ?_
    unfold remap
    by_cases last : k = n
    · subst last
      rw [if_pos (by omega), Function.update_self]
    · rw [if_neg (by omega), Function.update_of_ne last]

/-- The pass over the memory map never runs out of tables. -/
theorem mapMemory (built : Built p f 0 0 g m) (enough : Enough p 257) (reaches : Reaches space p)
    (map : List MemoryMapEntry) {pages : Nat} (room : pages ≤ 2 ^ 18) :
    ∃ c' m', Machine.mapMemory space f 0xC0000000 map m pages = some m' ∧
      Built p f c' pages (fun i => (shouldMap map (i * pageSize), shouldMap map (i * pageSize))) m' := by
  induction pages with
  | zero => exact ⟨0, m, rfl, built.congr fun i below => absurd below (Nat.not_lt_zero i)⟩
  | succ pages ih =>
    obtain ⟨c₁, m₁, run, built₁⟩ := ih (by omega)
    rw [Machine.mapMemory, run, Option.bind_eq_bind, Option.bind_some]
    by_cases should : shouldMap map (pages * pageSize) = true
    · obtain ⟨c', m', mapped, built'⟩ := built₁.mapNext enough reaches (pagePresent ||| pageRw) room
      refine ⟨c', m', by simp only [if_pos should, mapped], built'.congr fun i _ => ?_⟩
      by_cases last : i = pages
      · subst last
        rw [Function.update_self, should]
        rfl
      · rw [Function.update_of_ne last]
    · obtain ⟨c', m', mapped, built'⟩ := built₁.mapNext enough reaches 0x0 room
      refine ⟨c', m', by simp only [if_neg should, mapped], built'.congr fun i _ => ?_⟩
      by_cases last : i = pages
      · subst last
        rw [Function.update_self, Bool.eq_false_iff.mpr should]
        rfl
      · rw [Function.update_of_ne last]

end Built

/-- The address lies in the section. -/
def Section.Holds (s : Section) (vaddr : Nat) : Prop := s.start ≤ vaddr ∧ vaddr < s.stop

instance (s : Section) (vaddr : Nat) : Decidable (s.Holds vaddr) := inferInstanceAs (Decidable (_ ∧ _))

/-- The number of pages that mapping a section takes. -/
def Section.pages (s : Section) : Nat := (s.stop - s.start + (pageSize - 1)) / pageSize

theorem Section.pages_eq {s : Section} (high : s.stop ≤ 2 ^ 32) (low : 0xC0000000 ≤ s.start) :
    roundUpToPage (s.stop - s.start) / pageSize = s.pages := by
  rw [roundUpToPage, show pageSize = 2 ^ 12 from rfl, alignUp_pow (by decide),
    Nat.mul_div_cancel _ (by decide)]
  unfold Section.pages pageSize
  omega

theorem Section.holds_iff {s : Section} (start : s.start = directAddress i) (order : s.start ≤ s.stop) :
    s.Holds (directAddress k) ↔ i ≤ k ∧ k < i + s.pages := by
  rw [Section.Holds, Section.pages, start]
  rw [start] at order
  unfold directAddress pageSize at *
  omega

/-- The pages of a section get its flags, the others keep theirs. -/
theorem Built.mapSection {s : Section} (built : Built p f c (2 ^ 18) g m) (enough : Enough p 257)
    (reaches : Reaches space p) (aligned : pageSize ∣ s.start)
    (inside : 0xC0000000 ≤ s.start ∧ s.start ≤ s.stop ∧ s.stop ≤ 2 ^ 32) (flags : Nat) :
    ∃ c', Built p f c' (2 ^ 18) (fun k => if s.Holds (directAddress k) then flagBits flags else g k)
      (m.mapSection space f 0xC0000000 s flags) := by
  obtain ⟨low, order, high⟩ := inside
  obtain ⟨i, start⟩ : ∃ i, s.start = directAddress i := by
    obtain ⟨a, same⟩ := aligned
    refine ⟨a - 0xC0000, ?_⟩
    unfold directAddress
    unfold pageSize at *
    omega
  have bound : i + s.pages ≤ 2 ^ 18 := by
    unfold Section.pages
    unfold directAddress pageSize at *
    omega
  obtain ⟨c', m', run, built'⟩ := built.mapPages enough reaches flags s.pages (by omega) bound
  have after : m.mapSection space f 0xC0000000 s flags = m' := by
    rw [Machine.mapSection, Machine.vmmMapPage, Section.pages_eq high low]
    by_cases nonempty : s.start < 2 ^ 32
    · have physical : s.start - 0xC0000000 = i * pageSize := by
        rw [start, directAddress, Nat.add_sub_cancel_left]
      rw [← start, u32_of_lt nonempty] at run
      rw [physical, run]
    · have empty : s.pages = 0 := by
        unfold Section.pages pageSize
        omega
      rw [empty, Machine.mapPages] at run
      rw [empty, Machine.mapPages]
      exact (Prod.mk.inj run).2
  rw [max_eq_left bound] at built'
  rw [after]
  exact ⟨c', built'.congr fun k _ => by simp only [remap, Section.holds_iff start order]⟩

namespace KernelImage

/-- The address lies in one of the four sections. -/
def Holds (kernel : KernelImage) (vaddr : Nat) : Prop :=
  kernel.text.Holds vaddr ∨ kernel.rodata.Holds vaddr ∨ kernel.data.Holds vaddr ∨ kernel.bss.Holds vaddr

def ReadOnly (kernel : KernelImage) (vaddr : Nat) : Prop :=
  kernel.text.Holds vaddr ∨ kernel.rodata.Holds vaddr

instance (kernel : KernelImage) (vaddr : Nat) : Decidable (kernel.Holds vaddr) :=
  inferInstanceAs (Decidable (_ ∨ _))

instance (kernel : KernelImage) (vaddr : Nat) : Decidable (kernel.ReadOnly vaddr) :=
  inferInstanceAs (Decidable (_ ∨ _))

/-- No page of the writable sections is one of the others. -/
theorem readOnly_apart {vaddr : Nat} (readOnly : kernel.ReadOnly vaddr) :
    ¬ kernel.data.Holds vaddr ∧ ¬ kernel.bss.Holds vaddr := by
  obtain ⟨first, second, third⟩ := kernel.ordered
  obtain ⟨_, text, _⟩ := kernel.inside kernel.text (by simp)
  obtain ⟨_, rodata, _⟩ := kernel.inside kernel.rodata (by simp)
  obtain ⟨_, data, _⟩ := kernel.inside kernel.data (by simp)
  obtain ⟨_, bss, _⟩ := kernel.inside kernel.bss (by simp)
  unfold ReadOnly at readOnly
  unfold Section.Holds at *
  omega

end KernelImage

/-- The flags of a page after all passes. -/
def finalFlags (map : List MemoryMapEntry) (kernel : KernelImage) (i : Nat) : Bool × Bool :=
  if kernel.Holds (directAddress i) then (true, !decide (kernel.ReadOnly (directAddress i)))
  else (shouldMap map (i * pageSize), shouldMap map (i * pageSize))

/-- `vmm_init_pd` gets all the frames it asks for and leaves the whole direct map built. -/
theorem vmmInitPd_built (map : List MemoryMapEntry) (kernel : KernelImage) (enough : Enough m.pmm 257)
    (reaches : Reaches space m.pmm) : ∃ f c m', f < 2 ^ 20 ∧
      m.vmmInitPd space 0xC0000000 map kernel = some (u32 (pageAddress f + 0xC0000000), m') ∧
      Built m.pmm f c (2 ^ 18) (finalFlags map kernel) m' := by
  obtain ⟨f, handed, small, address, taken⟩ := (Taken.zero m.pmm).alloc enough (by decide)
  have reach := reaches.directory f handed
  generalize pointer : u32 (pageAddress f + 0xC0000000) = pd at reach
  have cleared : Built m.pmm f 0 0 (fun _ => (false, false))
      (({ m with pmm := (pmmAlloc m.pmm).2 } : Machine).clearFrame f) :=
    { first := handed
      taken := taken
      count := Nat.zero_le _
      within := Nat.le_refl _
      linked := fun k below => absurd below (Nat.not_lt_zero k)
      unlinked := fun k _ _ => by
        rw [Machine.clearFrame]
        simp only [Function.update_self]
        rfl
      lower := fun k _ => by
        rw [Machine.clearFrame]
        simp only [Function.update_self]
        rfl
      pages := fun i below => absurd below (Nat.not_lt_zero i) }
  obtain ⟨c₁, m₁, run, built₁⟩ := cleared.mapMemory enough reaches map (Nat.le_refl _)
  obtain ⟨c₂, built₂⟩ := built₁.mapSection enough reaches (kernel.aligned kernel.text (by simp))
    (kernel.inside kernel.text (by simp)) pagePresent
  obtain ⟨c₃, built₃⟩ := built₂.mapSection enough reaches (kernel.aligned kernel.rodata (by simp))
    (kernel.inside kernel.rodata (by simp)) pagePresent
  obtain ⟨c₄, built₄⟩ := built₃.mapSection enough reaches (kernel.aligned kernel.data (by simp))
    (kernel.inside kernel.data (by simp)) (pagePresent ||| pageRw)
  obtain ⟨c₅, built₅⟩ := built₄.mapSection enough reaches (kernel.aligned kernel.bss (by simp))
    (kernel.inside kernel.bss (by simp)) (pagePresent ||| pageRw)
  refine ⟨f, c₅, _, small, ?_, built₅.congr fun i _ => ?_⟩
  · rw [Machine.vmmInitPd]
    simp only [address, pointer, reach]
    rw [show 0x40000000 / pageSize = 2 ^ 18 from rfl, run]
    rfl
  · by_cases readOnly : kernel.ReadOnly (directAddress i)
    · obtain ⟨data, bss⟩ := KernelImage.readOnly_apart readOnly
      have holds : kernel.Holds (directAddress i) := readOnly.elim .inl fun rodata => .inr (.inl rodata)
      rw [finalFlags, if_pos holds, if_neg bss, if_neg data, decide_eq_true readOnly]
      by_cases rodata : kernel.rodata.Holds (directAddress i)
      · rw [if_pos rodata]
        rfl
      · rw [if_neg rodata, if_pos (readOnly.resolve_right rodata)]
        rfl
    · have text : ¬ kernel.text.Holds (directAddress i) := fun held => readOnly (.inl held)
      have rodata : ¬ kernel.rodata.Holds (directAddress i) := fun held => readOnly (.inr held)
      rw [finalFlags, if_neg text, if_neg rodata, decide_eq_false readOnly]
      simp only [KernelImage.Holds, text, rodata, false_or]
      by_cases data : kernel.data.Holds (directAddress i)
      · simp only [data, true_or, if_true]
        exact ite_self _
      · simp only [data, false_or, if_false]
        rfl

/-- What a walk of the two levels from `cr3` finds at a virtual address: the physical
address and whether both levels are writable. -/
def Machine.walk (m : Machine) (cr3 vaddr : Nat) : Option (Nat × Bool) :=
  let dir := m.frames (cr3 / pageSize) (dirIndex vaddr)
  if dir.present then
    let page := m.frames dir.address.toNat (tableIndex vaddr)
    if page.present then some (page.target + vaddr % pageSize, dir.readwrite && page.readwrite) else none
  else none

/-- The address lies in an entry of one of the seven types. -/
def InMapped (map : List MemoryMapEntry) (addr : Nat) : Prop :=
  ∃ e ∈ map, isMapped e = true ∧ e.Covers addr

/-- The intended direct map of the first GiB. -/
structure DirectMap (map : List MemoryMapEntry) (kernel : KernelImage) (m : Machine) (cr3 : Nat) : Prop where
  present : ∀ page < 2 ^ 18, (∃ found, m.walk cr3 (directAddress page) = some found) ↔
    InMapped map (page * pageSize) ∨ kernel.Holds (directAddress page)
  exact : ∀ page < 2 ^ 18, ∀ found, m.walk cr3 (directAddress page) = some found →
    found.1 = page * pageSize ∧ (found.2 = true ↔ ¬ kernel.ReadOnly (directAddress page))

/-- The walk of a directory that is built to the end. -/
theorem Built.walk (built : Built p f c (2 ^ 18) g m) (inside : i < 2 ^ 18) :
    m.walk (f * pageSize) (directAddress i) = if (g i).1 then some (i * pageSize, (g i).2) else none := by
  have within := built.within
  obtain ⟨t, handed, dir⟩ := built.linked (i / 1024) (by omega)
  have leaf := built.pages i inside t handed
  have offset : directAddress i % pageSize = 0 := by
    unfold directAddress pageSize
    omega
  rw [Machine.walk, Nat.mul_div_cancel _ (by decide), dirIndex_direct, tableIndex_direct]
  simp only [dir.present, dir.address, dir.readwrite, leaf.present, leaf.readwrite,
    PageEntry.target, leaf.address, offset, Nat.add_zero, Bool.true_and, if_true]

theorem finalFlags_writable (found : (finalFlags map kernel i).1 = true) :
    (finalFlags map kernel i).2 = true ↔ ¬ kernel.ReadOnly (directAddress i) := by
  unfold finalFlags at *
  by_cases holds : kernel.Holds (directAddress i)
  · rw [if_pos holds]
    simp
  · rw [if_neg holds] at found ⊢
    exact iff_of_true found fun readOnly => holds (readOnly.elim .inl fun rodata => .inr (.inl rodata))

/-- The search agrees with the entries, up to those that end at 4 GiB. -/
theorem shouldMap_iff (below : ∀ e ∈ map, e.physicalAddress + e.size ≤ 2 ^ 32) {addr : Nat}
    (low : addr < 2 ^ 30) :
    shouldMap map addr = true ↔
      ∃ e ∈ map, isMapped e = true ∧ e.Covers addr ∧ e.physicalAddress + e.size ≠ 2 ^ 32 := by
  rw [shouldMap, List.any_eq_true]
  refine exists_congr fun e => and_congr_right fun member => ?_
  have ends := below e member
  simp only [Bool.and_eq_true, decide_eq_true_eq, and_assoc]
  refine and_congr_right fun _ => ?_
  unfold MemoryMapEntry.endAddress MemoryMapEntry.Covers Intervals.Covers u32
  omega

/-- `vmm_switch_pd` loads the frame of the directory. -/
theorem cr3_directory (small : f < 2 ^ 20) :
    sub32 (u32 (pageAddress f + 0xC0000000)) 0xC0000000 = f * pageSize := by
  unfold sub32 u32 pageAddress u32 pageSize
  omega

/-- The directory is the intended one exactly when every page that lies in an entry up to
4 GiB also lies in another mapped entry or in a section: `entry_end` of such an entry
wraps to zero, and its pages are left out. -/
theorem vmmInitPd_directMap_iff (m : Machine) (space : Nat → Nat) (map : List MemoryMapEntry)
    (kernel : KernelImage) (enough : Enough m.pmm 257) (reaches : Reaches space m.pmm)
    (below : ∀ e ∈ map, e.physicalAddress + e.size ≤ 2 ^ 32) :
    ∃ pd m', m.vmmInitPd space 0xC0000000 map kernel = some (pd, m') ∧
      (DirectMap map kernel m' (sub32 pd 0xC0000000) ↔
        ∀ page < 2 ^ 18, ∀ e ∈ map, isMapped e = true → e.Covers (page * pageSize) →
          e.physicalAddress + e.size = 2 ^ 32 →
          (∃ e' ∈ map, isMapped e' = true ∧ e'.Covers (page * pageSize) ∧
            e'.physicalAddress + e'.size ≠ 2 ^ 32) ∨
            kernel.Holds (directAddress page)) := by
  obtain ⟨f, c, m', small, run, built⟩ := vmmInitPd_built map kernel enough reaches
  refine ⟨_, m', run, ?_⟩
  have walked : ∀ page < 2 ^ 18, (∃ found, m'.walk (f * pageSize) (directAddress page) = some found) ↔
      shouldMap map (page * pageSize) = true ∨ kernel.Holds (directAddress page) := by
    intro page inside
    rw [built.walk inside, finalFlags]
    by_cases holds : kernel.Holds (directAddress page)
    · simp [holds]
    · simp [holds]
  rw [cr3_directory small]
  constructor
  · intro direct page inside e member mapped covers _
    have present :=
      (walked page inside).mp ((direct.present page inside).mpr (.inl ⟨e, member, mapped, covers⟩))
    refine present.imp_left fun should => (shouldMap_iff below ?_).mp should
    unfold pageSize
    omega
  · intro condition
    constructor
    · intro page inside
      have low : page * pageSize < 2 ^ 30 := by
        unfold pageSize
        omega
      rw [walked page inside, shouldMap_iff below low]
      constructor
      · exact Or.imp_left fun ⟨e, member, mapped, covers, _⟩ => ⟨e, member, mapped, covers⟩
      · rintro (⟨e, member, mapped, covers⟩ | holds)
        · by_cases top : e.physicalAddress + e.size = 2 ^ 32
          · exact condition page inside e member mapped covers top
          · exact .inl ⟨e, member, mapped, covers, top⟩
        · exact .inr holds
    · intro page inside found walk
      rw [built.walk inside] at walk
      by_cases present : (finalFlags map kernel page).1 = true
      · rw [if_pos present] at walk
        obtain rfl := Option.some.inj walk
        exact ⟨rfl, finalFlags_writable present⟩
      · rw [if_neg present] at walk
        cases walk

/-- Four MiB of memory, all of it free. -/
def freshPmm : Pmm := ⟨fun _ => 0, 1024, 128, []⟩

/-- Frames that hold anything but zeros. -/
def freshMachine : Machine := ⟨fun _ _ => ⟨true, true, true, 1, 5⟩, freshPmm⟩

/-- The boot loader's mapping: the higher half on the first GiB, everything else on itself. -/
def loaderSpace (page : Nat) : Nat := if 0xC0000 ≤ page then page - 0xC0000 else page

def smallKernel : KernelImage where
  text := ⟨0xC0100000, 0xC0100800⟩
  rodata := ⟨0xC0101000, 0xC0101010⟩
  data := ⟨0xC0102000, 0xC0102010⟩
  bss := ⟨0xC0103000, 0xC0105000⟩
  aligned := by decide
  inside := by decide
  ordered := by decide

theorem freshPmm_free (page : Nat) : freshPmm.Free page := by
  unfold Pmm.Free Pmm.Used BitMemory.bitAt freshPmm
  simp

theorem freshPmm_handed {rank : Nat} (handed : Handed freshPmm rank page) : page = rank :=
  (Nat.count_of_forall fun page _ => freshPmm_free page).symm.trans handed.count

theorem freshPmm_enough : Enough freshPmm 257 where
  word := by decide
  free := by
    rw [Nat.count_of_forall fun page _ => freshPmm_free page]
    decide

theorem loaderSpace_reaches : Reaches loaderSpace freshPmm where
  directory page handed := by
    rw [freshPmm_handed handed]
    decide
  tables rank page _ low handed := by
    rw [freshPmm_handed handed, loaderSpace, if_neg (by omega)]

theorem vmmInitPd_directMap_small : ∃ pd m', freshMachine.vmmInitPd loaderSpace 0xC0000000
    [⟨0, 0x400000, memoryTypeFree⟩] smallKernel = some (pd, m') ∧
    (DirectMap [⟨0, 0x400000, memoryTypeFree⟩] smallKernel m' (sub32 pd 0xC0000000) ↔
      ∀ page < 2 ^ 18, ∀ e ∈ [(⟨0, 0x400000, memoryTypeFree⟩ : MemoryMapEntry)], isMapped e = true →
        e.Covers (page * pageSize) → e.physicalAddress + e.size = 2 ^ 32 →
        (∃ e' ∈ [(⟨0, 0x400000, memoryTypeFree⟩ : MemoryMapEntry)], isMapped e' = true ∧
          e'.Covers (page * pageSize) ∧ e'.physicalAddress + e'.size ≠ 2 ^ 32) ∨
          smallKernel.Holds (directAddress page)) :=
  vmmInitPd_directMap_iff freshMachine loaderSpace _ smallKernel freshPmm_enough loaderSpace_reaches
    (by decide)

/-- A free entry from 1 MiB to 4 GiB is not mapped at all. -/
theorem topEntry_unmapped : ∃ pd m', freshMachine.vmmInitPd loaderSpace 0xC0000000
    [⟨0x100000, 0xFFF00000, memoryTypeFree⟩] smallKernel = some (pd, m') ∧
    ¬ DirectMap [⟨0x100000, 0xFFF00000, memoryTypeFree⟩] smallKernel m' (sub32 pd 0xC0000000) := by
  obtain ⟨f, c, m', small, run, built⟩ :=
    vmmInitPd_built (m := freshMachine) [⟨0x100000, 0xFFF00000, memoryTypeFree⟩] smallKernel freshPmm_enough
      loaderSpace_reaches
  refine ⟨_, m', run, fun direct => ?_⟩
  have covered : InMapped [⟨0x100000, 0xFFF00000, memoryTypeFree⟩] (0x200 * pageSize) :=
    ⟨_, List.mem_singleton_self _, by decide, show _ ≤ _ ∧ _ < _ from by decide⟩
  obtain ⟨found, walk⟩ := (direct.present 0x200 (by decide)).mpr (.inl covered)
  rw [cr3_directory small, built.walk (by decide), if_neg (by decide)] at walk
  cases walk

end Laomb.VMM
