import Laomb.Liballoc.Held

/-! A block more from the page source. -/
namespace Laomb.Liballoc
open DoublyLinked Tiling Word PMM Libc FirstFit

/-- A run of free pages for a new block. -/
def Supplied (p : Pmm) (size : Nat) : Prop := ∃ start, RunAt p.Free p.totalPages (newPageCount size) start

theorem newPageCount_spec {size : Nat} (bound : size + 48 < 2 ^ 32) :
    0 < newPageCount size ∧ size + 48 ≤ newPageCount size * pageSize := by
  have whole : u32 (u32 (size + sizeofMajor) + sizeofMinor) = size + 48 := by
    unfold u32 sizeofMajor sizeofMinor
    omega
  unfold newPageCount
  rw [whole]
  unfold pageSize pageCount
  dsimp only
  split <;> split <;> omega

/-- A block at a run of pages, with nothing in it. -/
def emptyBlock (address pages : Nat) (positive : 0 < pages) : MajorBlock where
  address := address
  pages := pages
  minors := []
  tiled := by
    unfold Tiled sizeofMajor pageSize
    omega
  padded := fun _ member => absurd member List.not_mem_nil

/-- What `allocate_new_page` leaves, for a block of `pages` pages at `start`. -/
structure Grown (base : Nat) (h h' : Heap) (start pages : Nat) : Prop where
  positive : 0 < pages
  free : ∀ page, start ≤ page → page < start + pages → ¬ h.pages.pmm.Used page
  fits : start + pages ≤ h.pages.pmm.totalPages
  prev : h'.get (base + start * pageSize) majorPrev = null
  next : h'.get (base + start * pageSize) majorNext = null
  block : BlockHeld h' (emptyBlock (base + start * pageSize) pages positive)
  others : ∀ x, x < base + start * pageSize ∨ base + start * pageSize + 24 ≤ x → h'.memory x = h.memory x
  used : ∀ page, h'.pages.pmm.Used page ↔ (start ≤ page ∧ page < start + pages) ∨ h.pages.pmm.Used page
  totalPages : h'.pages.pmm.totalPages = h.pages.pmm.totalPages
  allocated : h'.pages.allocated = (h.pages.allocated + pages * pageSize) % 2 ^ 64
  warningCount : h'.pages.warningCount = h.pages.warningCount
  memRoot : h'.memRoot = h.memRoot
  bestBet : h'.bestBet = h.bestBet
  inuse : h'.inuse = h.inuse
  errorCount : h'.errorCount = h.errorCount
  possibleOverruns : h'.possibleOverruns = h.possibleOverruns

variable {base size : Nat} {h : Heap}

theorem allocateNewPage_found (higher : HigherHalf base h.pages.pmm) (bound : size + 48 < 2 ^ 32)
    (supplied : Supplied h.pages.pmm size) :
    ∃ start q, First h.pages.pmm.Free h.pages.pmm.totalPages (newPageCount size) start ∧
      Viewed h.pages.pmm q ∧ allocateNewPage base h.pages size =
        (some ⟨base + start * pageSize, null, null, newPageCount size, newPageCount size * pageSize,
          sizeofMajor, null⟩, ⟨setPages q start (newPageCount size),
            (h.pages.allocated + newPageCount size * pageSize) % 2 ^ 64, h.pages.warningCount⟩) := by
  obtain ⟨positive, enough⟩ := newPageCount_spec bound
  have out := pmmAllocPages_outcome h.pages.pmm positive
  generalize result : pmmAllocPages h.pages.pmm (newPageCount size) = outcome at out
  cases out with
  | exhausted q absent => exact absurd supplied.choose_spec (absent _)
  | found start q first viewed =>
    have fits := first.fits.1
    have room := higher.fits
    have low := higher.positive
    have address : u32 (pageAddress start + base) = base + start * pageSize := by
      unfold pageAddress u32
      unfold pageSize at *
      omega
    have bytes : u32 (newPageCount size * pageSize) = newPageCount size * pageSize := by
      apply u32_of_lt
      unfold pageSize at *
      omega
    have some : base + start * pageSize ≠ null := by
      unfold null
      omega
    refine ⟨start, q, first, viewed, ?_⟩
    simp only [allocateNewPage, liballocAlloc, result, address, if_neg some, bytes]

theorem newPage_grown (higher : HigherHalf base h.pages.pmm) (bound : size + 48 < 2 ^ 32)
    (supplied : Supplied h.pages.pmm size) :
    ∃ start h', h.newPage base size = (base + start * pageSize, h') ∧
      Grown base h h' start (newPageCount size) := by
  obtain ⟨start, q, ⟨⟨fits, free⟩, _⟩, viewed, source⟩ := allocateNewPage_found higher bound supplied
  have positive := (newPageCount_spec bound).1
  have room := higher.fits
  generalize newPageCount size = pages at *
  obtain ⟨maj, there⟩ : ∃ maj, maj = base + start * pageSize := ⟨_, rfl⟩
  have inside : maj + pages * pageSize ≤ 2 ^ 32 := by
    unfold pageSize at *
    omega
  have small : pages * pageSize < 2 ^ 32 ∧ pages < 2 ^ 32 ∧ maj + 24 ≤ 2 ^ 32 ∧ maj < 2 ^ 32 := by
    have low := higher.positive
    unfold pageSize at *
    omega
  have field := Heap.get_set_field (p := maj) small.2.2.1
  have zero : null < 2 ^ 32 := by decide
  have major : sizeofMajor < 2 ^ 32 := by decide
  rw [Heap.newPage, source]
  dsimp only
  refine ⟨start, _, rfl, ?_⟩
  simp only [← there]
  simp only [majorPrev, majorNext, majorPages, majorSize, majorUsage, majorFirst]
  refine ⟨positive, free, fits, ?_, ?_, ⟨?_, ?_, ?_, ?_, trivial, fun _ member => absurd member List.not_mem_nil⟩,
    ?_, ?_, ?_, rfl, rfl, rfl, rfl, rfl, rfl, rfl⟩
  · rw [← there]
    simp (disch := omega) only [majorPrev, Heap.get_set, field]
  · rw [← there]
    simp (disch := omega) only [majorNext, Heap.get_set, field]
  · change Heap.get _ (base + start * pageSize) majorPages = pages
    rw [← there]
    simp (disch := omega) only [majorPages, Heap.get_set, field]
  · change Heap.get _ (base + start * pageSize) majorSize = pages * pageSize
    rw [← there]
    simp (disch := omega) only [majorSize, Heap.get_set, field]
  · change Heap.get _ (base + start * pageSize) majorUsage = sizeofMajor
    rw [← there]
    simp (disch := omega) only [majorUsage, Heap.get_set, field]
  · change Heap.get _ (base + start * pageSize) majorFirst = null
    rw [← there]
    simp (disch := omega) only [majorFirst, Heap.get_set]
  · intro x apart
    rw [← there] at apart
    simp (disch := omega) only [Heap.set_memory]
  · intro page
    change Pmm.Used (setPages q start pages) page ↔ _
    rw [setPages_used q (by unfold pageSize at *; omega), viewed.used]
  · exact (setPages_totalPages q start pages).trans viewed.totalPages

/-! ## Behind the last block -/

/-- The block at `new` is put behind the one at `last`, or is the first. -/
structure Hooked (h h' : Heap) (last new : Nat) : Prop where
  prev : h'.get new majorPrev = last
  next : last ≠ null → h'.get last majorNext = new
  others : ∀ x, x < new ∨ new + 4 ≤ x → (last ≠ null → x < last + 4 ∨ last + 8 ≤ x) → h'.memory x = h.memory x
  memRoot : h'.memRoot = if last = null then new else h.memRoot
  pages : h'.pages = h.pages
  bestBet : h'.bestBet = h.bestBet
  inuse : h'.inuse = h.inuse
  errorCount : h'.errorCount = h.errorCount
  possibleOverruns : h'.possibleOverruns = h.possibleOverruns

variable {h₁ h₂ : Heap} {taken : Nat → Prop} {bs : List MajorBlock} {b : MajorBlock} {start pages maj : Nat}

theorem Grown.hasPage (positive : 0 < pages) (page : Nat) :
    (emptyBlock (base + start * pageSize) pages positive).HasPage base page ↔
      start ≤ page ∧ page < start + pages := by
  unfold MajorBlock.HasPage MajorBlock.stop emptyBlock pageSize
  dsimp only
  omega

/-- The pages were free, so the block is apart from those that are there already. -/
theorem Held.apart_grown (held : Held base taken h bs) (grown : Grown base h h₁ start pages) (member : b ∈ bs) :
    b.stop ≤ base + start * pageSize ∨ base + start * pageSize + pages * pageSize ≤ b.address := by
  obtain ⟨s, there⟩ := (held.placed b member).aligned
  have header := b.header_fits
  have positive := grown.positive
  by_contra overlap
  have shared : b.HasPage base (max s start) := by
    unfold MajorBlock.HasPage
    unfold MajorBlock.stop pageSize at *
    omega
  refine grown.free (max s start) (by omega) ?_ ((held.used _).mpr (.inr ⟨b, member, shared⟩))
  unfold MajorBlock.stop pageSize at *
  omega

/-- The address of the last block of a list, or the null pointer. -/
def lastBlock (bs : List MajorBlock) : Nat := (bs.map MajorBlock.address).getLastD null

theorem lastBlock_concat (bs : List MajorBlock) (c : MajorBlock) : lastBlock (bs ++ [c]) = c.address := by
  rw [lastBlock, List.map_append, List.map_singleton, List.getLastD_concat]

theorem lastBlock_mem (nonempty : bs ≠ []) : ∃ c ∈ bs, c.address = lastBlock bs := by
  rcases bs.eq_nil_or_concat with rfl | ⟨bs, c, rfl⟩
  · exact absurd rfl nonempty
  · rw [List.concat_eq_append]
    exact ⟨c, by simp, (lastBlock_concat bs c).symm⟩

theorem lastBlock_some (some : lastBlock bs ≠ null) : ∃ c ∈ bs, c.address = lastBlock bs :=
  lastBlock_mem (fun empty => some (empty ▸ rfl))

theorem dropLast_block (apart : bs.Pairwise fun a b => a.stop ≤ b.address ∨ b.stop ≤ a.address)
    (member : b ∈ bs.dropLast) : b.address ≠ lastBlock bs := by
  rcases bs.eq_nil_or_concat with rfl | ⟨bs, c, rfl⟩
  · exact absurd member List.not_mem_nil
  · rw [List.concat_eq_append] at apart member ⊢
    rw [List.dropLast_concat] at member
    rw [lastBlock_concat]
    have away := (List.pairwise_append.mp apart).2.2 b member c (List.mem_singleton.mpr rfl)
    have header := b.header_fits
    have header' := c.header_fits
    omega

/-- Where the new block is. -/
theorem Held.grown_bounds (held : Held base taken h bs) (grown : Grown base h h₁ start pages) :
    base + start * pageSize + 4096 ≤ 2 ^ 32 ∧ base + start * pageSize ≠ null ∧ 4096 ≤ pages * pageSize ∧
      base + start * pageSize + pages * pageSize ≤ base + h.pages.pmm.totalPages * pageSize := by
  have positive := grown.positive
  have past := grown.fits
  have room := held.higher.fits
  have low := held.higher.positive
  unfold null
  unfold pageSize at *
  omega

/-! What is left of the memory when the new block is hooked in. -/
section Hooked

variable {x f : Nat} (held : Held base taken h bs) (grown : Grown base h h₁ start pages)
    (hooked : Hooked h₁ h₂ (lastBlock bs) (base + start * pageSize))

include held grown hooked

theorem Held.hooked_byte (member : b ∈ bs) (above : b.address ≤ x) (below : x < b.stop)
    (next : b.address = lastBlock bs → x < b.address + 4 ∨ b.address + 8 ≤ x) : h₂.memory x = h.memory x := by
  have bounds := held.grown_bounds grown
  have away := held.apart_grown grown member
  refine (hooked.others x (by omega) fun some => ?_).trans (grown.others x (by omega))
  obtain ⟨c, listed, same⟩ := lastBlock_some some
  by_cases other : c = b
  · subst other
    have either := next same
    omega
  · have symmetric : Std.Symm (fun a b : MajorBlock => a.stop ≤ b.address ∨ b.stop ≤ a.address) :=
      ⟨fun _ _ either => either.symm⟩
    have apart := held.apart.forall listed member other
    have header := c.header_fits
    omega

theorem Held.hooked_field (member : b ∈ bs) (less : f ≤ 20) (next : b.address = lastBlock bs → f = 0 ∨ 8 ≤ f) :
    h₂.get b.address f = h.get b.address f := by
  have header := b.header_fits
  have fits := held.address_lt member
  exact Heap.get_congr (by omega) fun x _ _ => held.hooked_byte grown hooked member (by omega) (by omega)
    fun same => by
      have either := next same
      omega

/-- The new block itself, behind its first link. -/
theorem Held.hooked_own (above : base + start * pageSize + 4 ≤ x)
    (below : x < base + start * pageSize + pages * pageSize) : h₂.memory x = h₁.memory x := by
  refine hooked.others x (by omega) fun some => ?_
  obtain ⟨c, listed, same⟩ := lastBlock_some some
  have apart := held.apart_grown grown listed
  have header := c.header_fits
  omega

theorem Held.append_linked : Linked null (h₂.get · majorPrev) (h₂.get · majorNext) null
    (bs.map MajorBlock.address ++ [base + start * pageSize]) := by
  obtain ⟨fits, _, big, _⟩ := held.grown_bounds grown
  have linked := held.linked
  rw [← List.append_nil (bs.map MajorBlock.address)] at linked
  refine linked.insert hooked.prev ?_ ?_ (fun c first => by cases first) ?_ ?_
  · refine Eq.trans (Heap.get_congr ?_ fun x above below => ?_) grown.next
    · unfold majorNext
      omega
    · unfold majorNext at above below
      exact held.hooked_own grown hooked above (by omega)
  · intro a last
    have nonempty : bs ≠ [] := by
      rintro rfl
      cases last
    obtain ⟨c, member, there⟩ := lastBlock_mem nonempty
    have same : lastBlock bs = a := by rw [lastBlock, List.getLastD_eq_getLast?, last, Option.getD_some]
    exact same ▸ hooked.next (there ▸ held.present member)
  · intro a listed
    rw [List.tail_nil, List.append_nil] at listed
    obtain ⟨b, member, rfl⟩ := List.mem_map.mp listed
    exact held.hooked_field grown hooked member (by decide) fun _ => .inl rfl
  · intro a listed
    rw [List.append_nil, ← List.map_dropLast] at listed
    obtain ⟨b, member, rfl⟩ := List.mem_map.mp listed
    exact held.hooked_field grown hooked (List.mem_of_mem_dropLast member) (by decide) fun same =>
      absurd same (dropLast_block held.apart member)

theorem Held.append_old (member : b ∈ bs) : BlockHeld h₂ b :=
  (held.blocks b member).congr (held.stop_le member) fun _ about past => by
    have inside := about.inside b.header_fits
    exact held.hooked_byte grown hooked member inside.1 inside.2 fun _ => .inr past

theorem Held.append_new : BlockHeld h₂ (emptyBlock (base + start * pageSize) pages grown.positive) := by
  have stop : (emptyBlock (base + start * pageSize) pages grown.positive).stop =
      base + start * pageSize + pages * pageSize := rfl
  obtain ⟨_, _, _, fits⟩ := held.grown_bounds grown
  refine grown.block.congr (stop ▸ fits.trans held.higher.fits) fun x about past => ?_
  have inside := about.inside (MajorBlock.header_fits _)
  change base + start * pageSize + 8 ≤ x at past
  exact held.hooked_own grown hooked (by omega) (stop ▸ inside.2)

theorem Held.append_used (page : Nat) : h₂.pages.pmm.Used page ↔ taken page ∨
    ∃ b ∈ bs ++ [emptyBlock (base + start * pageSize) pages grown.positive], b.HasPage base page := by
  rw [hooked.pages, grown.used, held.used]
  simp only [List.mem_append, List.mem_singleton, or_and_right, exists_or, exists_eq_left,
    Grown.hasPage grown.positive]
  exact or_comm.trans or_assoc

theorem Held.append_root : h₂.memRoot = (bs.map MajorBlock.address ++ [base + start * pageSize]).headD null := by
  rw [hooked.memRoot, grown.memRoot, held.root]
  cases bs with
  | nil => rfl
  | cons b bs =>
    obtain ⟨c, member, there⟩ := lastBlock_mem (List.cons_ne_nil b bs)
    rw [if_neg (there ▸ held.present member)]
    rfl

end Hooked

theorem inUse_append (address : Nat) (positive : 0 < pages) :
    inUse (bs ++ [emptyBlock address pages positive]) = inUse bs := by
  simp only [inUse, List.flatMap_append, List.flatMap_singleton, emptyBlock, List.append_nil]

theorem allocated_append (address : Nat) (positive : 0 < pages) :
    Liballoc.allocated (bs ++ [emptyBlock address pages positive]) =
      Liballoc.allocated bs + pages * pageSize := by
  simp only [Liballoc.allocated, List.map_append, List.map_singleton, List.sum_append, List.sum_singleton,
    emptyBlock]

/-- A new block without minors behind the others. -/
theorem Held.append (held : Held base taken h bs) (grown : Grown base h h₁ start pages)
    (hooked : Hooked h₁ h₂ (lastBlock bs) (base + start * pageSize)) :
    Held base taken h₂ (bs ++ [emptyBlock (base + start * pageSize) pages grown.positive]) := by
  have kept : h₂.pages = h₁.pages := hooked.pages
  have addresses : (bs ++ [emptyBlock (base + start * pageSize) pages grown.positive]).map MajorBlock.address =
      bs.map MajorBlock.address ++ [base + start * pageSize] := List.map_append
  refine ⟨⟨held.higher.positive, ?_⟩, ?_, ?_, ?_, ?_, ?_, held.append_used grown hooked, ?_, ?_, ?_, ?_⟩
  · rw [kept, grown.totalPages]
    exact held.higher.fits
  · rw [addresses]
    exact held.append_root grown hooked
  · rw [addresses]
    exact held.append_linked grown hooked
  · intro b member
    rcases List.mem_append.mp member with old | new
    · exact held.append_old grown hooked old
    · rw [List.mem_singleton.mp new]
      exact held.append_new grown hooked
  · intro b member
    rw [kept]
    rcases List.mem_append.mp member with old | new
    · have placed := held.placed b old
      exact ⟨placed.aligned, by rw [grown.totalPages]; exact placed.fits⟩
    · rw [List.mem_singleton.mp new]
      refine ⟨⟨start, rfl⟩, ?_⟩
      rw [grown.totalPages]
      exact (held.grown_bounds grown).2.2.2
  · refine List.pairwise_append.mpr ⟨held.apart, List.pairwise_singleton _ _, fun b member c listed => ?_⟩
    rw [List.mem_singleton.mp listed]
    exact held.apart_grown grown member
  · intro b member page has
    rcases List.mem_append.mp member with old | new
    · exact held.own b old page has
    · rw [List.mem_singleton.mp new] at has
      obtain ⟨above, below⟩ := (Grown.hasPage grown.positive page).mp has
      exact fun other => grown.free page above below ((held.used page).mpr (.inl other))
  · rw [hooked.bestBet, grown.bestBet, addresses]
    exact held.bestBet.imp_right (List.mem_append_left _)
  · rw [inUse_append, hooked.inuse, grown.inuse]
    exact held.inuse
  · rw [allocated_append, kept, grown.allocated]
    exact (Nat.mod_modEq _ _).trans (held.allocated.add_right _)

end Laomb.Liballoc
