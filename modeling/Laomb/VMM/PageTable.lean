import Laomb.PMM.MemoryMap
import Laomb.PMM.AllocatorProofs

/-! `vmm.c`: two-level page tables in physical frames. The code reaches a frame by a
pointer; `space` is the mapping in force, from the page number of a pointer to its frame. -/
namespace Laomb.VMM
open PMM Word

def pagePresent : Nat := 0x1
def pageRw : Nat := 0x2
def pageUser : Nat := 0x4

/-- `page_dir_entry` and `page_table_entry`: the first three flags and the address are in
the same places in both, and the code leaves the other bits alone. -/
structure PageEntry where
  present : Bool
  readwrite : Bool
  user : Bool
  other : BitVec 9
  address : BitVec 20
deriving DecidableEq, Repr

/-- The entry of a cleared page. -/
def PageEntry.zero : PageEntry := ⟨false, false, false, 0, 0⟩

/-- `set_page_entry`. -/
def PageEntry.set (entry : PageEntry) (addr flags : Nat) : PageEntry :=
  { entry with
    present := flags &&& pagePresent != 0
    readwrite := flags &&& pageRw != 0
    user := flags &&& pageUser != 0
    address := BitVec.ofNat 20 (addr / 2 ^ 12) }

/-- `entry->address << 12`. -/
def PageEntry.target (entry : PageEntry) : Nat := entry.address.toNat * pageSize

/-- The entries of every frame, read as a table, and the allocator. Its bitmap is a component
apart: no table is in a page of the bitmap, since `pmm_init` marks these as used and `pmm_alloc`
hands out free pages only. -/
structure Machine where
  frames : Nat → Nat → PageEntry
  pmm : Pmm

/-- `ROUND_UP_TO_PAGE`. -/
def roundUpToPage (size : Nat) : Nat := alignUp 32 size pageSize

/-- `ROUND_DOWN_TO_PAGE`. -/
def roundDownToPage (addr : Nat) : Nat := alignDown 32 addr pageSize

def dirIndex (vaddr : Nat) : Nat := vaddr >>> 22

def tableIndex (vaddr : Nat) : Nat := (vaddr >>> 12) &&& 0x03FF

namespace Machine

/-- Writing one entry of a frame. -/
def put (m : Machine) (frame index : Nat) (entry : PageEntry) : Machine :=
  { m with frames := Function.update m.frames frame (Function.update (m.frames frame) index entry) }

/-- `memset(..., 0, PAGE_SIZE)`. -/
def clearFrame (m : Machine) (frame : Nat) : Machine :=
  { m with frames := Function.update m.frames frame fun _ => .zero }

@[simp] theorem put_pmm (m : Machine) (frame index : Nat) (entry : PageEntry) :
    (m.put frame index entry).pmm = m.pmm := rfl

theorem put_frames (m : Machine) (frame index : Nat) (entry : PageEntry) (frame' index' : Nat) :
    (m.put frame index entry).frames frame' index' =
      if frame' = frame ∧ index' = index then entry else m.frames frame' index' := by
  unfold put
  by_cases same : frame' = frame
  · subst same
    simp only [Function.update_self, Function.update_apply, true_and]
  · simp only [Function.update_of_ne same, same, false_and, if_false]

/-- The first half of the loop of `vmm_map_page`: an entry of the directory in frame
`dir` without a table gets one, or the call fails. -/
def linkTable (m : Machine) (dir vaddr : Nat) : Bool × Machine :=
  let pageDirEntry := m.frames dir (dirIndex vaddr)
  if pageDirEntry.present then (true, m)
  else
    let (newPageTable, pmm) := pmmAlloc m.pmm
    let m := { m with pmm := pmm }
    if newPageTable = null then (false, m)
    else (true, m.put dir (dirIndex vaddr) (pageDirEntry.set newPageTable (pagePresent ||| pageRw)))

/-- The second half: the entry of the page in its table, which the code reaches by a pointer. -/
def setPage (m : Machine) (space : Nat → Nat) (dir vaddr paddr flags : Nat) : Machine :=
  let pageTable := space ((m.frames dir (dirIndex vaddr)).target / pageSize)
  m.put pageTable (tableIndex vaddr) ((m.frames pageTable (tableIndex vaddr)).set paddr flags)

/-- The loop of `vmm_map_page` with `count` pages to go. -/
def mapPages (space : Nat → Nat) (dir flags : Nat) : (count vaddr paddr : Nat) → Machine → Bool × Machine
  | 0, _, _, m => (true, m)
  | count + 1, vaddr, paddr, m =>
    match m.linkTable dir vaddr with
    | (false, m) => (false, m)
    | (true, m) =>
      mapPages space dir flags count (u32 (vaddr + pageSize)) (u32 (paddr + pageSize))
        (m.setPage space dir vaddr paddr flags)

/-- `vmm_map_page` on the directory in frame `dir`. -/
def vmmMapPage (m : Machine) (space : Nat → Nat) (dir vaddr size paddr flags : Nat) : Bool × Machine :=
  mapPages space dir flags (roundUpToPage size / pageSize) vaddr paddr m

def vmmUnmapPage (m : Machine) (space : Nat → Nat) (dir virtualAddress : Nat) : Bool × Machine :=
  let vaddr := roundDownToPage virtualAddress
  let pageDirEntry := m.frames dir (dirIndex vaddr)
  if pageDirEntry.present then
    let pageTable := space (pageDirEntry.target / pageSize)
    let pageEntry := m.frames pageTable (tableIndex vaddr)
    if pageEntry.present then
      let m := { m with pmm := pmmFree m.pmm pageEntry.target }
      (true, m.put pageTable (tableIndex vaddr) { pageEntry with present := false })
    else (false, m)
  else (false, m)

end Machine

/-- A section between two symbols of the linker script. -/
structure Section where
  start : Nat
  stop : Nat

/-- The four sections that `linker.ld` lays out: each starts on a page, in this order, in
the first GiB of the higher half. -/
structure KernelImage where
  text : Section
  rodata : Section
  data : Section
  bss : Section
  aligned : ∀ s ∈ [text, rodata, data, bss], pageSize ∣ s.start
  inside : ∀ s ∈ [text, rodata, data, bss], 0xC0000000 ≤ s.start ∧ s.start ≤ s.stop ∧ s.stop ≤ 2 ^ 32
  ordered : text.stop ≤ rodata.start ∧ rodata.stop ≤ data.start ∧ data.stop ≤ bss.start

def memoryTypeNvs : Nat := 0x00000004
def memoryTypeModule : Nat := 0xFFFF0002
def memoryTypeKernelStack : Nat := 0xFFFF0003
def memoryTypeKernelBinary : Nat := 0xFFFF0004

/-- The seven types that `vmm_init_pd` maps. -/
def isMapped (e : MemoryMapEntry) : Bool :=
  e.type == memoryTypeFree || e.type == memoryTypeReclaimable || e.type == memoryTypeNvs ||
    e.type == memoryTypeLoaderReclaimable || e.type == memoryTypeKernelStack || e.type == memoryTypeModule ||
    e.type == memoryTypeKernelBinary

/-- The search over the entries, whose bounds are `uintptr_t`. -/
def shouldMap (map : List MemoryMapEntry) (addr : Nat) : Bool :=
  map.any fun e => isMapped e && decide (u32 e.physicalAddress ≤ addr) && decide (addr < e.endAddress)

namespace Machine

/-- The loop over the addresses below `pages * PAGE_SIZE`. A page that should be mapped and
cannot be ends in `hlt`, here `none`; otherwise a failure is only reported. -/
def mapMemory (space : Nat → Nat) (dir higherHalfBase : Nat) (map : List MemoryMapEntry) (m : Machine) :
    (pages : Nat) → Option Machine
  | 0 => some m
  | pages + 1 => do
    let m ← mapMemory space dir higherHalfBase map m pages
    let addr := pages * pageSize
    if shouldMap map addr then
      match m.vmmMapPage space dir (u32 (higherHalfBase + addr)) pageSize addr (pagePresent ||| pageRw) with
      | (true, m) => some m
      | (false, _) => none
    else some (m.vmmMapPage space dir (u32 (higherHalfBase + addr)) pageSize addr 0x0).2

def mapSection (space : Nat → Nat) (dir higherHalfBase : Nat) (s : Section) (flags : Nat)
    (m : Machine) : Machine :=
  (m.vmmMapPage space dir s.start (s.stop - s.start) (s.start - higherHalfBase) flags).2

/-- `vmm_init_pd`: the directory pointer and the memory it leaves. -/
def vmmInitPd (m : Machine) (space : Nat → Nat) (higherHalfBase : Nat) (map : List MemoryMapEntry)
    (kernel : KernelImage) : Option (Nat × Machine) := do
  let (page, pmm) := pmmAlloc m.pmm
  let pd := u32 (page + higherHalfBase)
  let dir := space (pd / pageSize)
  let m := { m with pmm := pmm }.clearFrame dir
  let m ← mapMemory space dir higherHalfBase map m (0x40000000 / pageSize)
  let m := mapSection space dir higherHalfBase kernel.text pagePresent m
  let m := mapSection space dir higherHalfBase kernel.rodata pagePresent m
  let m := mapSection space dir higherHalfBase kernel.data (pagePresent ||| pageRw) m
  let m := mapSection space dir higherHalfBase kernel.bss (pagePresent ||| pageRw) m
  pure (pd, m)

end Machine

end Laomb.VMM
