import Laomb.Base.BitMemory
import Laomb.Base.Word

/-! The physical page allocator of `pmm.c`: one bit per page, set while the page
is in use. Page numbers index bits; returned addresses are 32-bit, and address
zero doubles as `NULL`. -/
namespace Laomb.PMM
open BitMemory Word

def pageSize : Nat := 4096

def null : Nat := 0

/-- The allocator's globals. Memory behind `bitmap` is unbounded here, so that
leaving the `bitmapSize` bytes is visible instead of impossible; `touched`
is a ghost log of every bit index tested or written, newest first. -/
structure Pmm where
  bitmap : Words 8
  totalPages : Nat
  bitmapSize : Nat
  touched : List Nat

namespace Pmm

def touch (p : Pmm) (bit : Nat) : Pmm := { p with touched := bit :: p.touched }

def setBit (p : Pmm) (bit : Nat) : Pmm := { p.touch bit with bitmap := orMask p.bitmap bit }

def clearBit (p : Pmm) (bit : Nat) : Pmm := { p.touch bit with bitmap := clearMask p.bitmap bit }

def testBit (p : Pmm) (bit : Nat) : Bool := p.bitmap (bit / 8) &&& mask 8 bit != 0#8

/-- The page's bit is set: it is not available. -/
def Used (p : Pmm) (page : Nat) : Prop := bitAt p.bitmap page = true

instance (p : Pmm) (page : Nat) : Decidable (p.Used page) := inferInstanceAs (Decidable (_ = _))

@[simp] theorem touch_touched (p : Pmm) (bit : Nat) : (p.touch bit).touched = bit :: p.touched := rfl
@[simp] theorem setBit_totalPages (p : Pmm) (bit : Nat) : (p.setBit bit).totalPages = p.totalPages := rfl
@[simp] theorem setBit_bitmapSize (p : Pmm) (bit : Nat) : (p.setBit bit).bitmapSize = p.bitmapSize := rfl
@[simp] theorem setBit_touched (p : Pmm) (bit : Nat) : (p.setBit bit).touched = bit :: p.touched := rfl
@[simp] theorem clearBit_totalPages (p : Pmm) (bit : Nat) :
    (p.clearBit bit).totalPages = p.totalPages := rfl
@[simp] theorem clearBit_bitmapSize (p : Pmm) (bit : Nat) :
    (p.clearBit bit).bitmapSize = p.bitmapSize := rfl
@[simp] theorem clearBit_touched (p : Pmm) (bit : Nat) : (p.clearBit bit).touched = bit :: p.touched := rfl

@[simp] theorem setBit_used (p : Pmm) (bit page : Nat) :
    (p.setBit bit).Used page ↔ page = bit ∨ p.Used page := by
  simp only [Used, setBit, bitAt_orMask (by decide : 0 < 8), Bool.or_eq_true, decide_eq_true_eq]

@[simp] theorem clearBit_used (p : Pmm) (bit page : Nat) :
    (p.clearBit bit).Used page ↔ page ≠ bit ∧ p.Used page := by
  simp only [Used, clearBit, bitAt_clearMask (by decide : 0 < 8), Bool.and_eq_true,
    Bool.not_eq_true', decide_eq_false_iff_not, ne_eq]

theorem testBit_iff (p : Pmm) (bit : Nat) : p.testBit bit = true ↔ p.Used bit := by
  rw [testBit, and_mask_ne_zero (by decide), Used]

end Pmm

/-- `(void*)(page * PAGE_SIZE)`. -/
def pageAddress (page : Nat) : Nat := u32 (page * pageSize)

def addressPage (address : Nat) : Nat := address / pageSize

/-- The loop of `pmm_alloc` with `left` iterations to go. -/
def pmmAllocLoop (p : Pmm) (i : Nat) : (left : Nat) → Nat × Pmm
  | 0 => (null, p)
  | left + 1 =>
    if p.testBit i then pmmAllocLoop (p.touch i) (i + 1) left
    else (pageAddress i, (p.touch i).setBit i)

def pmmAlloc (p : Pmm) : Nat × Pmm := pmmAllocLoop p 0 p.totalPages

/-- `set_bit(start + j)` for each `j` below `count`, in order. -/
def setPages (p : Pmm) (start : Nat) : (count : Nat) → Pmm
  | 0 => p
  | count + 1 => (setPages p start count).setBit (u32 (start + count))

/-- The loop of `pmm_alloc_pages`: `startPage` opens the free run of
`contiguousCount` pages that ends just before `i`. -/
def pmmAllocPagesLoop (p : Pmm) (numPages startPage contiguousCount i : Nat) : (left : Nat) → Nat × Pmm
  | 0 => (null, p)
  | left + 1 =>
    if p.testBit i then pmmAllocPagesLoop (p.touch i) numPages startPage 0 (i + 1) left
    else
      let startPage := if contiguousCount = 0 then i else startPage
      let contiguousCount := contiguousCount + 1
      if contiguousCount = numPages then
        (pageAddress startPage, setPages (p.touch i) startPage numPages)
      else pmmAllocPagesLoop (p.touch i) numPages startPage contiguousCount (i + 1) left

def pmmAllocPages (p : Pmm) (numPages : Nat) : Nat × Pmm :=
  pmmAllocPagesLoop p numPages 0 0 0 p.totalPages

/-- `clear_bit(start + i)` for each `i` below `count`, in order. -/
def clearPages (p : Pmm) (start : Nat) : (count : Nat) → Pmm
  | 0 => p
  | count + 1 => (clearPages p start count).clearBit (u32 (start + count))

def pmmFreePages (p : Pmm) (address numPages : Nat) : Pmm :=
  clearPages p (addressPage address) numPages

def pmmFree (p : Pmm) (ptr : Nat) : Pmm := p.clearBit (addressPage ptr)

end Laomb.PMM
