import Laomb.Base.Loop
import Laomb.Liballoc.PageSource
import Laomb.Libc.Move

/-! The heap: `kmalloc`, `kfree` and `krealloc` on the bytes of the memory, with the interrupt flag
that serves as their lock. A block that comes from the page source is headed by a `liballoc_major`,
and each part of it that is in use by a `liballoc_minor`. -/
namespace Laomb.Liballoc
open Loop Word PMM Libc

/-- The interrupt flag, and how often it has been set. -/
structure Interrupts where
  enabled : Bool
  stis : Nat
deriving DecidableEq, Repr

def Interrupts.cli (i : Interrupts) : Interrupts := { i with enabled := false }

def Interrupts.sti (i : Interrupts) : Interrupts := ⟨true, i.stis + 1⟩

/-- The four bytes from `a` on, the lowest first. -/
def load32 (m : Memory) (a : Nat) : Nat :=
  (m (u32 a)).toNat + (m (u32 (a + 1))).toNat * 2 ^ 8 + (m (u32 (a + 2))).toNat * 2 ^ 16 +
    (m (u32 (a + 3))).toNat * 2 ^ 24

def store32 (m : Memory) (a v : Nat) : Memory :=
  let m := Function.update m (u32 a) (BitVec.ofNat 8 v)
  let m := Function.update m (u32 (a + 1)) (BitVec.ofNat 8 (v / 2 ^ 8))
  let m := Function.update m (u32 (a + 2)) (BitVec.ofNat 8 (v / 2 ^ 16))
  Function.update m (u32 (a + 3)) (BitVec.ofNat 8 (v / 2 ^ 24))

def alignment : Nat := 16
def alignInfo : Nat := 16

def liballocMagic : Nat := 0xc001c0de
def liballocDead : Nat := 0xdeaddead

/-! Where the fields of `struct liballoc_major` are. -/
def majorPrev : Nat := 0
def majorNext : Nat := 4
def majorPages : Nat := 8
def majorSize : Nat := 12
def majorUsage : Nat := 16
def majorFirst : Nat := 20

/-! Where the fields of `struct liballoc_minor` are. -/
def minorPrev : Nat := 0
def minorNext : Nat := 4
def minorBlock : Nat := 8
def minorMagic : Nat := 12
def minorSize : Nat := 16
def minorReqSize : Nat := 20

/-- The memory, the flag and what `liballoc.c` keeps; `l_allocated` and `l_warningCount` are in `pages`. -/
structure Heap where
  memory : Memory
  interrupts : Interrupts
  pages : HeapState
  memRoot : Nat
  bestBet : Nat
  inuse : Nat
  errorCount : Nat
  possibleOverruns : Nat

namespace Heap

def get (h : Heap) (p field : Nat) : Nat := load32 h.memory (p + field)

def set (h : Heap) (p field v : Nat) : Heap := { h with memory := store32 h.memory (p + field) v }

def liballocLock (h : Heap) : Heap := { h with interrupts := h.interrupts.cli }

def liballocUnlock (h : Heap) : Heap := { h with interrupts := h.interrupts.sti }

/-- `l_warningCount += 1`. -/
def warn (h : Heap) : Heap := { h with pages := { h.pages with warningCount := h.pages.warningCount + 1 } }

/-- `ALIGN`. -/
def align (h : Heap) (ptr : Nat) : Nat × Heap :=
  let ptr := u32 (ptr + alignInfo)
  let diff := ptr &&& (alignment - 1)
  let (ptr, diff) := if diff ≠ 0 then (u32 (ptr + (alignment - diff)), alignment - diff) else (ptr, diff)
  let info := BitVec.ofNat 8 (diff + alignInfo)
  (ptr, { h with memory := Function.update h.memory (sub32 ptr alignInfo) info })

/-- `UNALIGN`. -/
def unalign (h : Heap) (ptr : Nat) : Nat :=
  let diff := ((h.memory (sub32 ptr alignInfo)).signExtend 32).toNat
  if diff < alignment + alignInfo then sub32 ptr diff else ptr

/-- `allocate_new_page` and the header that it writes. -/
def newPage (h : Heap) (base size : Nat) : Nat × Heap :=
  match allocateNewPage base h.pages size with
  | (none, pages) => (null, { h with pages })
  | (some major, pages) =>
    let h := { h with pages }
    let h := h.set major.address majorPrev major.prev
    let h := h.set major.address majorNext major.next
    let h := h.set major.address majorPages major.pages
    let h := h.set major.address majorSize major.size
    let h := h.set major.address majorUsage major.usage
    let h := h.set major.address majorFirst major.first
    (major.address, h)

/-- `maj->usage += size + sizeof(struct liballoc_minor)` and `l_inuse += size`. -/
def account (h : Heap) (maj size : Nat) : Heap :=
  let h := h.set maj majorUsage (u32 (h.get maj majorUsage + u32 (size + sizeofMinor)))
  { h with inuse := (h.inuse + size) % 2 ^ 64 }

/-- The pointer behind the header `min`, and the release of the lock. -/
def handOut (h : Heap) (min : Nat) : Nat × Heap :=
  let (p, h) := h.align (u32 (min + sizeofMinor))
  (p, h.liballocUnlock)

/-- CASE 2. -/
def firstMinor (h : Heap) (maj size reqSize : Nat) : Nat × Heap :=
  let h := h.set maj majorFirst (u32 (maj + sizeofMajor))
  let h := h.set (h.get maj majorFirst) minorMagic liballocMagic
  let h := h.set (h.get maj majorFirst) minorPrev null
  let h := h.set (h.get maj majorFirst) minorNext null
  let h := h.set (h.get maj majorFirst) minorBlock maj
  let h := h.set (h.get maj majorFirst) minorSize size
  let h := h.set (h.get maj majorFirst) minorReqSize reqSize
  let h := h.account maj size
  h.handOut (h.get maj majorFirst)

/-- CASE 3. -/
def frontMinor (h : Heap) (maj size reqSize : Nat) : Nat × Heap :=
  let h := h.set (h.get maj majorFirst) minorPrev (u32 (maj + sizeofMajor))
  let h := h.set (h.get (h.get maj majorFirst) minorPrev) minorNext (h.get maj majorFirst)
  let h := h.set maj majorFirst (h.get (h.get maj majorFirst) minorPrev)
  let h := h.set (h.get maj majorFirst) minorMagic liballocMagic
  let h := h.set (h.get maj majorFirst) minorPrev null
  let h := h.set (h.get maj majorFirst) minorBlock maj
  let h := h.set (h.get maj majorFirst) minorSize size
  let h := h.set (h.get maj majorFirst) minorReqSize reqSize
  let h := h.account maj size
  h.handOut (h.get maj majorFirst)

/-- CASE 4.1. -/
def lastMinor (h : Heap) (maj size reqSize min : Nat) : Nat × Heap :=
  let h := h.set min minorNext (u32 (min + sizeofMinor + h.get min minorSize))
  let h := h.set (h.get min minorNext) minorPrev min
  let min := h.get min minorNext
  let h := h.set min minorNext null
  let h := h.set min minorMagic liballocMagic
  let h := h.set min minorBlock maj
  let h := h.set min minorSize size
  let h := h.set min minorReqSize reqSize
  let h := h.account maj size
  h.handOut min

/-- CASE 4.2. -/
def betweenMinors (h : Heap) (maj size reqSize min : Nat) : Nat × Heap :=
  let newMin := u32 (min + sizeofMinor + h.get min minorSize)
  let h := h.set newMin minorMagic liballocMagic
  let h := h.set newMin minorNext (h.get min minorNext)
  let h := h.set newMin minorPrev min
  let h := h.set newMin minorSize size
  let h := h.set newMin minorReqSize reqSize
  let h := h.set newMin minorBlock maj
  let h := h.set (h.get min minorNext) minorPrev newMin
  let h := h.set min minorNext newMin
  let h := h.account maj size
  h.handOut newMin

/-- The free bytes from the end of `min` to `stop`. -/
def gap (h : Heap) (min stop : Nat) : Nat :=
  sub32 (sub32 (sub32 stop min) sizeofMinor) (h.get min minorSize)

/-- `while (min != nullptr)`. -/
def minorStep (h : Heap) (maj size reqSize min : Nat) : Nat ⊕ Option (Nat × Heap) :=
  if min = null then .inr none
  else if h.get min minorNext = null ∧
      h.gap min (u32 (maj + h.get maj majorSize)) ≥ u32 (size + sizeofMinor) then
    .inr (some (h.lastMinor maj size reqSize min))
  else if h.get min minorNext ≠ null ∧ h.gap min (h.get min minorNext) ≥ u32 (size + sizeofMinor) then
    .inr (some (h.betweenMinors maj size reqSize min))
  else .inl (h.get min minorNext)

/-- `maj->next = allocate_new_page(size)` and the link back, or a null pointer. -/
def extend (h : Heap) (base maj size : Nat) : Nat × Heap :=
  let (new, h) := h.newPage base size
  let h := h.set maj majorNext new
  if h.get maj majorNext = null then (null, h)
  else
    let h := h.set (h.get maj majorNext) majorPrev maj
    (h.get maj majorNext, h)

end Heap

/-- The variables of the loop of `kmalloc`. -/
structure Search where
  heap : Heap
  maj : Nat
  startedBet : Bool
  bestSize : Nat

namespace Search

/-- The cases behind CASE 1. -/
def place (base fuel size reqSize : Nat) (s : Search) : Search ⊕ Option (Nat × Heap) :=
  let h := s.heap
  let front := sub32 (sub32 (h.get s.maj majorFirst) s.maj) sizeofMajor
  if h.get s.maj majorFirst = null then .inr (some (h.firstMinor s.maj size reqSize))
  else if front ≥ u32 (size + sizeofMinor) then .inr (some (h.frontMinor s.maj size reqSize))
  else
    match loop (h.minorStep s.maj size reqSize) fuel (h.get s.maj majorFirst) with
    | none => .inr none
    | some (some found) => .inr (some found)
    | some none =>
      if h.get s.maj majorNext = null then
        if s.startedBet then .inl { s with maj := h.memRoot, startedBet := false }
        else
          let (next, h) := h.extend base s.maj size
          if next = null then .inr (some (null, h.liballocUnlock)) else .inl { s with heap := h, maj := next }
      else .inl { s with maj := h.get s.maj majorNext }

/-- `while (maj != nullptr)`; no result if the loop over a block does not end. -/
def majorStep (base fuel size reqSize : Nat) (s : Search) : Search ⊕ Option (Nat × Heap) :=
  if s.maj = null then .inr (some (null, s.heap.liballocUnlock))
  else
    let diff := sub32 (s.heap.get s.maj majorSize) (s.heap.get s.maj majorUsage)
    let s :=
      if s.bestSize < diff then { s with heap := { s.heap with bestBet := s.maj }, bestSize := diff } else s
    if diff < u32 (size + sizeofMinor) then
      if s.heap.get s.maj majorNext ≠ null then .inl { s with maj := s.heap.get s.maj majorNext }
      else if s.startedBet then .inl { s with maj := s.heap.memRoot, startedBet := false }
      else
        let (next, h) := s.heap.extend base s.maj size
        if next = null then .inr (some (null, h.liballocUnlock))
        else place base fuel size reqSize { s with heap := h, maj := next }
    else place base fuel size reqSize s

end Search

namespace Heap

/-- `kmalloc` of a size that is not zero, behind `liballoc_lock`. -/
def lockedMalloc (h : Heap) (base fuel size reqSize : Nat) : Option (Nat × Heap) :=
  let h := if h.memRoot = null then
      let (root, h) := h.newPage base size
      { h with memRoot := root }
    else h
  if h.memRoot = null then some (null, h.liballocUnlock)
  else
    let bestSize :=
      if h.bestBet ≠ null then sub32 (h.get h.bestBet majorSize) (h.get h.bestBet majorUsage) else 0
    let startedBet := decide (h.bestBet ≠ null ∧ bestSize > u32 (size + sizeofMinor))
    let maj := if startedBet then h.bestBet else h.memRoot
    (loop (Search.majorStep base fuel size reqSize) fuel ⟨h, maj, startedBet, bestSize⟩).join

/-- `size + ALIGNMENT + ALIGN_INFO`. -/
def paddedSize (reqSize : Nat) : Nat := u32 (reqSize + (alignment + alignInfo))

def kmalloc (h : Heap) (base fuel reqSize : Nat) : Option (Nat × Heap) :=
  let size := paddedSize reqSize
  let h := h.liballocLock
  if size = 0 then
    let h := h.warn.liballocUnlock
    -- `return kmalloc(1)`, of which the size is not zero
    h.liballocLock.lockedMalloc base fuel (paddedSize 1) 1
  else h.lockedMalloc base fuel size reqSize

/-- The counters where a header does not have the magic number. -/
def badMagic (h : Heap) (min : Nat) : Heap :=
  let magic := h.get min minorMagic
  let h := { h with errorCount := h.errorCount + 1 }
  if magic % 2 ^ 24 = liballocMagic % 2 ^ 24 ∨ magic % 2 ^ 16 = liballocMagic % 2 ^ 16 ∨
      magic % 2 ^ 8 = liballocMagic % 2 ^ 8 then { h with possibleOverruns := h.possibleOverruns + 1 }
  else h

/-- `(int)x`. -/
def signed (x : Nat) : Int := (BitVec.ofNat 32 x).toInt

/-- What `kfree` does to the minor `min`. -/
def release (h : Heap) (base min : Nat) : Heap :=
  let maj := h.get min minorBlock
  let h := { h with inuse := (h.inuse + 2 ^ 64 - h.get min minorSize) % 2 ^ 64 }
  let h := h.set maj majorUsage (sub32 (h.get maj majorUsage) (h.get min minorSize + sizeofMinor))
  let h := h.set min minorMagic liballocDead
  let h :=
    if h.get min minorNext ≠ null then h.set (h.get min minorNext) minorPrev (h.get min minorPrev)
    else h
  let h :=
    if h.get min minorPrev ≠ null then h.set (h.get min minorPrev) minorNext (h.get min minorNext)
    else h
  let h := if h.get min minorPrev = null then h.set maj majorFirst (h.get min minorNext) else h
  if h.get maj majorFirst = null then
    let h := if h.memRoot = maj then { h with memRoot := h.get maj majorNext } else h
    let h := if h.bestBet = maj then { h with bestBet := null } else h
    let h :=
      if h.get maj majorPrev ≠ null then h.set (h.get maj majorPrev) majorNext (h.get maj majorNext)
      else h
    let h :=
      if h.get maj majorNext ≠ null then h.set (h.get maj majorNext) majorPrev (h.get maj majorPrev)
      else h
    { h with pages := { h.pages with
        allocated := (h.pages.allocated + 2 ^ 64 - h.get maj majorSize) % 2 ^ 64
        pmm := liballocFree base h.pages.pmm maj (h.get maj majorPages) } }
  else if h.bestBet ≠ null then
    let bestSize := signed (sub32 (h.get h.bestBet majorSize) (h.get h.bestBet majorUsage))
    let majSize := signed (sub32 (h.get maj majorSize) (h.get maj majorUsage))
    if majSize > bestSize then { h with bestBet := maj } else h
  else h

def kfree (h : Heap) (base ptr : Nat) : Heap :=
  if ptr = null then h.warn
  else
    let ptr := h.unalign ptr
    let h := h.liballocLock
    let min := sub32 ptr sizeofMinor
    if h.get min minorMagic ≠ liballocMagic then (h.badMagic min).liballocUnlock
    else (h.release base min).liballocUnlock

def krealloc (h : Heap) (base fuel p size : Nat) : Option (Nat × Heap) :=
  if size = 0 then some (null, h.kfree base p)
  else if p = null then h.kmalloc base fuel size
  else
    let ptr := h.unalign p
    let h := h.liballocLock
    let min := sub32 ptr sizeofMinor
    if h.get min minorMagic ≠ liballocMagic then some (null, (h.badMagic min).liballocUnlock)
    else
      let realSize := h.get min minorReqSize
      if realSize ≥ size then some (p, (h.set min minorReqSize size).liballocUnlock)
      else do
        let (ptr, h) ← h.liballocUnlock.kmalloc base fuel size
        let (_, memory) := memcpy h.memory ptr p realSize
        some (ptr, { h with memory }.kfree base p)

end Heap

/-! ## The flag afterwards -/

variable {h h' : Heap} {base fuel size reqSize maj min p : Nat} {σ : Type}

/-- The lock is released in a result. -/
def Released (result : Option (Nat × Heap)) : Prop :=
  ∀ p h, result = some (p, h) → h.interrupts.enabled = true

/-- If a step of a loop ends it, the lock is released in the result. -/
def Releases (next : σ ⊕ Option (Nat × Heap)) : Prop := ∀ result, next = .inr result → Released result

theorem released_none : Released none := fun _ _ ends => by cases ends

theorem unlock_enabled (h : Heap) : h.liballocUnlock.interrupts.enabled = true := rfl

theorem released_unlock (p : Nat) (h : Heap) : Released (some (p, h.liballocUnlock)) := by
  intro q u ends
  cases ends
  exact unlock_enabled h

theorem released_handOut (h : Heap) (min : Nat) : Released (some (h.handOut min)) := by
  unfold Heap.handOut
  obtain ⟨p, u⟩ := h.align (u32 (min + sizeofMinor))
  exact released_unlock p u

theorem firstMinor_released (h : Heap) (maj size reqSize : Nat) :
    Released (some (h.firstMinor maj size reqSize)) := by
  unfold Heap.firstMinor
  extract_lets
  exact released_handOut _ _

theorem frontMinor_released (h : Heap) (maj size reqSize : Nat) :
    Released (some (h.frontMinor maj size reqSize)) := by
  unfold Heap.frontMinor
  extract_lets
  exact released_handOut _ _

theorem lastMinor_released (h : Heap) (maj size reqSize min : Nat) :
    Released (some (h.lastMinor maj size reqSize min)) := by
  unfold Heap.lastMinor
  extract_lets
  exact released_handOut _ _

theorem betweenMinors_released (h : Heap) (maj size reqSize min : Nat) :
    Released (some (h.betweenMinors maj size reqSize min)) := by
  unfold Heap.betweenMinors
  extract_lets
  exact released_handOut _ _

theorem releases_inl (s : σ) : Releases (.inl s) := fun _ ends => by cases ends

theorem releases_inr {result : Option (Nat × Heap)} (released : Released result) :
    Releases (σ := σ) (.inr result) := by
  intro r ends
  cases ends
  exact released

theorem minorStep_releases (h : Heap) (maj size reqSize min : Nat) :
    Releases (h.minorStep maj size reqSize min) := by
  unfold Heap.minorStep
  split
  · exact releases_inr released_none
  split
  · exact releases_inr (lastMinor_released _ _ _ _ _)
  split
  · exact releases_inr (betweenMinors_released _ _ _ _ _)
  · exact releases_inl _

namespace Search

theorem place_releases (base fuel size reqSize : Nat) (s : Search) :
    Releases (s.place base fuel size reqSize) := by
  unfold place
  extract_lets h front
  split
  · exact releases_inr (firstMinor_released _ _ _ _)
  split
  · exact releases_inr (frontMinor_released _ _ _ _)
  split
  · exact releases_inr released_none
  · rename_i found
    obtain ⟨_, min, _, last⟩ := loop_result found
    exact releases_inr (minorStep_releases _ _ _ _ min _ last)
  split
  · split
    · exact releases_inl _
    obtain ⟨next, u⟩ := h.extend base s.maj size
    dsimp only
    split
    · exact releases_inr (released_unlock _ _)
    · exact releases_inl _
  · exact releases_inl _

theorem majorStep_releases (base fuel size reqSize : Nat) (s : Search) :
    Releases (s.majorStep base fuel size reqSize) := by
  unfold majorStep
  split
  · exact releases_inr (released_unlock _ _)
  extract_lets diff bet t
  split
  · split
    · exact releases_inl _
    split
    · exact releases_inl _
    obtain ⟨next, u⟩ := t.heap.extend base t.maj size
    dsimp only
    split
    · exact releases_inr (released_unlock _ _)
    · exact place_releases _ _ _ _ _
  · exact place_releases _ _ _ _ _

end Search

namespace Heap

theorem lockedMalloc_released (h : Heap) (base fuel size reqSize : Nat) :
    Released (h.lockedMalloc base fuel size reqSize) := by
  unfold lockedMalloc
  extract_lets u bestSize startedBet maj
  split
  · exact released_unlock _ _
  intro p h' ends
  obtain ⟨_, last, _, step⟩ := loop_result (Option.join_eq_some_iff.mp ends)
  exact Search.majorStep_releases base fuel size reqSize last _ step p h' rfl

theorem kmalloc_released (h : Heap) (base fuel reqSize : Nat) : Released (h.kmalloc base fuel reqSize) := by
  unfold kmalloc
  extract_lets size locked warned
  split
  · exact lockedMalloc_released _ _ _ _ _
  · exact lockedMalloc_released _ _ _ _ _

theorem kfree_null (h : Heap) (base : Nat) : (h.kfree base null).interrupts = h.interrupts := by
  rw [kfree, if_pos rfl]
  rfl

theorem kfree_unlocks (h : Heap) (base : Nat) {ptr : Nat} (some : ptr ≠ null) :
    ∃ u : Heap, h.kfree base ptr = u.liballocUnlock := by
  unfold kfree
  split
  · contradiction
  extract_lets ptr locked min
  split
  · exact ⟨_, rfl⟩
  · exact ⟨_, rfl⟩

theorem kfree_enabled (h : Heap) (base : Nat) {ptr : Nat} (some : ptr ≠ null) :
    (h.kfree base ptr).interrupts.enabled = true := by
  obtain ⟨u, freed⟩ := h.kfree_unlocks base some
  rw [freed]
  exact unlock_enabled u

/-- `krealloc` leaves the flag alone where there is neither a block nor a size. -/
theorem krealloc_null (h : Heap) (base fuel : Nat) :
    ∃ u, h.krealloc base fuel null 0 = some (null, u) ∧ u.interrupts = h.interrupts :=
  ⟨_, if_pos rfl, kfree_null h base⟩

theorem krealloc_released (h : Heap) (base fuel p size : Nat) (locks : p ≠ null ∨ size ≠ 0) :
    Released (h.krealloc base fuel p size) := by
  unfold krealloc
  split
  · rename_i zero
    intro q u ends
    cases ends
    exact kfree_enabled h base (locks.resolve_right (not_not.mpr zero))
  split
  · exact kmalloc_released _ _ _ _
  rename_i block
  extract_lets ptr locked min realSize
  split
  · exact released_unlock _ _
  split
  · exact released_unlock _ _
  intro q u ends
  obtain ⟨⟨ptr, v⟩, _, ends⟩ := Option.bind_eq_some_iff.mp ends
  cases ends
  exact kfree_enabled _ base block

end Heap
end Laomb.Liballoc
