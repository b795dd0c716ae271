import Laomb.PMM.Allocator

/-! Boot-time setup of the page allocator from the boot loader's memory map:
`pmm_init` counts pages, places the bitmap and clears the bits of usable
memory; `pmm_reclaim_bootloader_memory` later clears more of them. The bytes
of the bitmap before `pmm_init` are an arbitrary argument. -/
namespace Laomb.PMM
open BitMemory Word

structure MemoryMapEntry where
  physicalAddress : Nat
  size : Nat
  type : Nat
deriving DecidableEq, Repr

def memoryTypeFree : Nat := 0x00000001
def memoryTypeReserved : Nat := 0x00000002
def memoryTypeReclaimable : Nat := 0x00000003
def memoryTypeLoaderReclaimable : Nat := 0xFFFF0001

inductive Attribute where
  | memoryMap (entries : List MemoryMapEntry)
  | other (type : Nat)

/-- The attribute walk of `pmm_init`; a context without a memory map sends the
C loop past the end of the list. -/
def findMemoryMap : List Attribute → Option (List MemoryMapEntry)
  | [] => none
  | .memoryMap entries :: _ => some entries
  | .other _ :: rest => findMemoryMap rest

namespace MemoryMapEntry

/-- `FREE` or `RECLAIMABLE`. -/
def isUsable (e : MemoryMapEntry) : Bool :=
  e.type == memoryTypeFree || e.type == memoryTypeReclaimable

/-- `ALIGN_UP(entry->physical_address, PAGE_SIZE)` stored in a `uintptr_t`. -/
def alignedAddress (e : MemoryMapEntry) : Nat := u32 (alignUp 64 e.physicalAddress pageSize)

/-- `entry->physical_address + entry->size` stored in a `uintptr_t`. -/
def endAddress (e : MemoryMapEntry) : Nat := u32 (e.physicalAddress + e.size)

/-- `(end_address - aligned_address) / PAGE_SIZE`, an unsigned difference. -/
def numPages (e : MemoryMapEntry) : Nat := sub32 e.endAddress e.alignedAddress / pageSize

end MemoryMapEntry

/-- The first pass: `total_pages` is the sum of the entries' page counts. -/
def countPages (map : List MemoryMapEntry) : Nat :=
  map.foldl (fun total e => if e.isUsable then u32 (total + e.size / pageSize) else total) 0

/-- `BITMAP_SIZE(total_pages * PAGE_SIZE)`. -/
def bitmapBytes (totalPages : Nat) : Nat := u32 (totalPages * pageSize) / pageSize / 8

/-- Where the second pass puts the bitmap: its first byte and the page range it
reserves, `startPage` up to but excluding `endPage`. -/
structure Placement where
  start : Nat
  startPage : Nat
  endPage : Nat
deriving DecidableEq, Repr

def Placement.reserves (placement : Placement) (page : Nat) : Bool :=
  decide (placement.startPage ≤ page) && decide (page < placement.endPage)

/-- The entry can hold the bitmap, as the second pass tests it. -/
def MemoryMapEntry.holdsBitmap (e : MemoryMapEntry) (bitmapSize : Nat) : Bool :=
  e.isUsable && decide (bitmapSize ≤ u32 (u32 (e.size / pageSize) * pageSize))

def placementIn (e : MemoryMapEntry) (bitmapSize : Nat) : Placement where
  start := e.alignedAddress
  startPage := alignDown 32 e.alignedAddress pageSize / pageSize
  endPage := alignUp 32 (u32 (e.alignedAddress + bitmapSize)) pageSize / pageSize

def placeBitmap (bitmapSize : Nat) : List MemoryMapEntry → Option Placement
  | [] => none
  | e :: rest =>
    if e.holdsBitmap bitmapSize then some (placementIn e bitmapSize)
    else placeBitmap bitmapSize rest

/-- The page range skipped by the third pass; empty when nothing was placed. -/
def reservedBy (placement : Option Placement) (page : Nat) : Bool :=
  match placement with
  | none => false
  | some placed => placed.reserves page

/-- The inner loop of the third pass over one entry: `clear_bit(first + j)` for
each `j` below `count`, except for skipped pages. -/
def clearUnless (skip : Nat → Bool) (p : Pmm) (first : Nat) : (count : Nat) → Pmm
  | 0 => p
  | count + 1 =>
    let p := clearUnless skip p first count
    let page := u32 (first + count)
    if skip page then p else p.clearBit page

def clearEntry (skip : Nat → Bool) (p : Pmm) (e : MemoryMapEntry) : Pmm :=
  clearUnless skip p (e.alignedAddress / pageSize) e.numPages

/-- The third pass: every usable entry's pages become available. -/
def clearUsable (skip : Nat → Bool) (p : Pmm) (map : List MemoryMapEntry) : Pmm :=
  map.foldl (fun p e => if e.isUsable then clearEntry skip p e else p) p

/-- The bitmap after the second pass and the `set_bit(0)` that follows it. The
`memset` covers `bitmapSize` bytes; whatever lies behind them stays. -/
def reserveBitmap (placement : Option Placement) (p : Pmm) : Pmm :=
  match placement with
  | none => p.setBit 0
  | some placed =>
    (setPages { p with bitmap := fill p.bitmap p.bitmapSize (BitVec.allOnes 8) }
      placed.startPage (placed.endPage - placed.startPage)).setBit 0

/-- `pmm_init` once it found the memory map. -/
def pmmInitMap (map : List MemoryMapEntry) (memory : Words 8) : Pmm :=
  let totalPages := countPages map
  let bitmapSize := bitmapBytes totalPages
  let placement := placeBitmap bitmapSize map
  clearUsable (reservedBy placement)
    (reserveBitmap placement ⟨memory, totalPages, bitmapSize, []⟩) map

def pmmInit (attributes : List Attribute) (memory : Words 8) : Option Pmm :=
  (findMemoryMap attributes).map (fun map => pmmInitMap map memory)

def pmmReclaimBootloaderMemory (p : Pmm) (map : List MemoryMapEntry) : Pmm :=
  map.foldl (fun p e =>
    if e.type = memoryTypeLoaderReclaimable then clearEntry (fun _ => false) p e else p) p

end Laomb.PMM
