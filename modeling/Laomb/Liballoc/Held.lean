import Laomb.Liballoc.Blocks
import Mathlib.Tactic.Ring

/-! The whole heap as a list of blocks, next to the pages that others have taken. -/
namespace Laomb.Liballoc
open DoublyLinked Tiling Word PMM Libc FirstFit

/-- All of the physical memory is mapped above `base`. -/
structure HigherHalf (base : Nat) (p : Pmm) : Prop where
  positive : 0 < base
  fits : base + p.totalPages * pageSize ≤ 2 ^ 32

/-- The physical page is one of the block's. -/
def MajorBlock.HasPage (base : Nat) (b : MajorBlock) (page : Nat) : Prop :=
  b.address ≤ base + page * pageSize ∧ base + page * pageSize < b.stop

/-- The block starts with a page of the physical memory, and ends within that memory. -/
structure Placed (base : Nat) (p : Pmm) (b : MajorBlock) : Prop where
  aligned : ∃ start, b.address = base + start * pageSize
  fits : b.stop ≤ base + p.totalPages * pageSize

/-- Where the block is. -/
def MajorBlock.span (b : MajorBlock) : Nat × Nat := (b.address, b.stop)

/-- The bytes in use, without the headers. -/
def inUse (bs : List MajorBlock) : Nat := ((bs.flatMap MajorBlock.minors).map Minor.size).sum

/-- The bytes of the blocks. -/
def allocated (bs : List MajorBlock) : Nat := (bs.map fun b => b.pages * pageSize).sum

/-- The memory and the variables of `liballoc.c` show the blocks `bs`, and the page allocator
counts their pages as used, and those that are `taken` by others. -/
structure Held (base : Nat) (taken : Nat → Prop) (h : Heap) (bs : List MajorBlock) : Prop where
  higher : HigherHalf base h.pages.pmm
  root : h.memRoot = (bs.map MajorBlock.address).headD null
  linked : Linked null (h.get · majorPrev) (h.get · majorNext) null (bs.map MajorBlock.address)
  blocks : ∀ b ∈ bs, BlockHeld h b
  placed : ∀ b ∈ bs, Placed base h.pages.pmm b
  apart : bs.Pairwise fun a b => a.stop ≤ b.address ∨ b.stop ≤ a.address
  used : ∀ page, h.pages.pmm.Used page ↔ taken page ∨ ∃ b ∈ bs, b.HasPage base page
  own : ∀ b ∈ bs, ∀ page, b.HasPage base page → ¬ taken page
  bestBet : h.bestBet = null ∨ h.bestBet ∈ bs.map MajorBlock.address
  inuse : h.inuse ≡ inUse bs [MOD 2 ^ 64]
  allocated : h.pages.allocated ≡ allocated bs [MOD 2 ^ 64]

variable {base : Nat} {taken : Nat → Prop} {h h' : Heap} {b c : MajorBlock} {bs bs' l r : List MajorBlock} {m : Minor}
    {xs ys : List Minor} {x : Nat}

/-! What only depends on where the blocks are. -/

theorem addresses_of_spans (same : bs'.map MajorBlock.span = bs.map MajorBlock.span) :
    bs'.map MajorBlock.address = bs.map MajorBlock.address := by
  have firsts := congrArg (List.map Prod.fst) same
  simpa only [List.map_map, Function.comp_def, MajorBlock.span] using firsts

theorem allocated_of_spans (same : bs'.map MajorBlock.span = bs.map MajorBlock.span) :
    allocated bs' = allocated bs := by
  have lengths := congrArg (List.map fun s : Nat × Nat => s.2 - s.1) same
  simp only [List.map_map, Function.comp_def, MajorBlock.span, MajorBlock.stop, Nat.add_sub_cancel_left] at lengths
  exact congrArg List.sum lengths

theorem apart_of_spans (same : bs'.map MajorBlock.span = bs.map MajorBlock.span)
    (apart : bs.Pairwise fun a b => a.stop ≤ b.address ∨ b.stop ≤ a.address) :
    bs'.Pairwise fun a b => a.stop ≤ b.address ∨ b.stop ≤ a.address := by
  have spans : (bs.map MajorBlock.span).Pairwise fun s t => s.2 ≤ t.1 ∨ t.2 ≤ s.1 := List.pairwise_map.mpr apart
  rw [← same] at spans
  exact List.pairwise_map.mp spans

theorem exists_of_spans (same : bs'.map MajorBlock.span = bs.map MajorBlock.span) (member : c ∈ bs') :
    ∃ b ∈ bs, c.address = b.address ∧ c.stop = b.stop := by
  have listed : c.span ∈ bs.map MajorBlock.span := same ▸ List.mem_map_of_mem member
  obtain ⟨b, member, there⟩ := List.mem_map.mp listed
  exact ⟨b, member, (congrArg Prod.fst there).symm, (congrArg Prod.snd there).symm⟩

theorem hasPage_of_spans (same : bs'.map MajorBlock.span = bs.map MajorBlock.span) (page : Nat) :
    (∃ b ∈ bs', b.HasPage base page) ↔ ∃ b ∈ bs, b.HasPage base page := by
  constructor
  · rintro ⟨c, member, low, high⟩
    obtain ⟨b, member, first, last⟩ := exists_of_spans same member
    exact ⟨b, member, first ▸ low, last ▸ high⟩
  · rintro ⟨c, member, low, high⟩
    obtain ⟨b, member, first, last⟩ := exists_of_spans same.symm member
    exact ⟨b, member, first ▸ low, last ▸ high⟩

namespace Held

theorem stop_le (held : Held base taken h bs) (member : b ∈ bs) : b.stop ≤ 2 ^ 32 :=
  (held.placed b member).fits.trans held.higher.fits

theorem base_le (held : Held base taken h bs) (member : b ∈ bs) : base ≤ b.address := by
  obtain ⟨start, there⟩ := (held.placed b member).aligned
  omega

theorem present (held : Held base taken h bs) (member : b ∈ bs) : b.address ≠ null := by
  have low := held.base_le member
  have positive := held.higher.positive
  unfold null
  omega

theorem address_lt (held : Held base taken h bs) (member : b ∈ bs) : b.address + 24 ≤ 2 ^ 32 := by
  have stop := held.stop_le member
  have header := b.header_fits
  omega

/-- The heap only depends on the bytes about its blocks. -/
theorem congr (held : Held base taken h bs) (same : ∀ b ∈ bs, ∀ x, b.Meta x → h'.memory x = h.memory x)
    (pages : h'.pages = h.pages) (memRoot : h'.memRoot = h.memRoot)
    (bestBet : h'.bestBet = null ∨ h'.bestBet ∈ bs.map MajorBlock.address) (inuse : h'.inuse = h.inuse) :
    Held base taken h' bs := by
  have field : ∀ b ∈ bs, ∀ f ≤ 20, h'.get b.address f = h.get b.address f := by
    intro b member f less
    have fits := held.address_lt member
    exact Heap.get_congr (by omega) fun x low high => same b member x (.inl (by omega))
  refine ⟨?_, ?_, ?_, ?_, ?_, held.apart, ?_, held.own, bestBet, ?_, ?_⟩
  · exact pages ▸ held.higher
  · exact memRoot.trans held.root
  · refine held.linked.congr ?_ ?_
    · intro a listed
      obtain ⟨b, member, rfl⟩ := List.mem_map.mp listed
      exact field b member _ (by decide)
    · intro a listed
      obtain ⟨b, member, rfl⟩ := List.mem_map.mp listed
      exact field b member _ (by decide)
  · exact fun b member => (held.blocks b member).congr (held.stop_le member) fun x about _ => same b member x about
  · exact pages ▸ held.placed
  · exact pages ▸ held.used
  · exact inuse ▸ held.inuse
  · exact pages ▸ held.allocated

theorem setBest (held : Held base taken h bs) (member : b ∈ bs) :
    Held base taken { h with bestBet := b.address } bs :=
  held.congr (fun _ _ _ _ => rfl) rfl rfl (.inr (List.mem_map_of_mem member)) rfl

/-- The other blocks are apart from one. -/
theorem others (held : Held base taken h (l ++ b :: r)) (member : c ∈ l ++ r) :
    c.stop ≤ b.address ∨ b.stop ≤ c.address := by
  obtain ⟨_, right, cross⟩ := List.pairwise_append.mp held.apart
  rcases List.mem_append.mp member with left | behind
  · exact cross c left b List.mem_cons_self
  · exact ((List.pairwise_cons.mp right).1 c behind).symm

theorem member_replaced {c a : MajorBlock} (member : a ∈ l ++ c :: r) : a = c ∨ a ∈ l ++ r := by
  rcases List.mem_append.mp member with left | right
  · exact .inr (List.mem_append_left r left)
  · exact (List.mem_cons.mp right).imp_right (List.mem_append_right l)

/-- One of the blocks is replaced by another at the same place. -/
theorem replace (held : Held base taken h (l ++ b :: r)) (address : c.address = b.address)
    (pages : c.pages = b.pages) (block : BlockHeld h' c)
    (outside : ∀ x, x < b.address ∨ b.stop ≤ x → h'.memory x = h.memory x)
    (links : ∀ f ≤ 4, h'.get b.address f = h.get b.address f) (kept : Kept h h')
    (inuse : h'.inuse ≡ inUse (l ++ c :: r) [MOD 2 ^ 64]) : Held base taken h' (l ++ c :: r) := by
  have here : b ∈ l ++ b :: r := List.mem_append_right l List.mem_cons_self
  have there : ∀ a ∈ l ++ r, a ∈ l ++ b :: r := fun a member =>
    List.mem_append.mpr ((List.mem_append.mp member).imp_right (List.mem_cons_of_mem b))
  have span : c.span = b.span := by rw [MajorBlock.span, MajorBlock.span, MajorBlock.stop, MajorBlock.stop, address, pages]
  have spans : (l ++ c :: r).map MajorBlock.span = (l ++ b :: r).map MajorBlock.span := by
    simp only [List.map_append, List.map_cons, span]
  have stop : c.stop = b.stop := congrArg Prod.snd span
  have data : ∀ a ∈ l ++ r, ∀ x, a.Meta x → h'.memory x = h.memory x := by
    intro a member x about
    have away := held.others member
    have inside := about.inside a.header_fits
    exact outside x (by omega)
  have major : ∀ a ∈ l ++ b :: r, ∀ f ≤ 4, h'.get a.address f = h.get a.address f := by
    intro a member f less
    have low := held.address_lt member
    rcases member_replaced member with rfl | other
    · exact links f less
    · exact Heap.get_congr (by omega) fun x above below => data a other x (.inl (by omega))
  refine ⟨?_, ?_, ?_, ?_, ?_, ?_, ?_, ?_, ?_, inuse, ?_⟩
  · exact kept.pages ▸ held.higher
  · rw [addresses_of_spans spans]
    exact kept.memRoot.trans held.root
  · rw [addresses_of_spans spans]
    refine held.linked.congr ?_ ?_
    · intro a listed
      obtain ⟨c, member, rfl⟩ := List.mem_map.mp listed
      exact major c member _ (by decide)
    · intro a listed
      obtain ⟨c, member, rfl⟩ := List.mem_map.mp listed
      exact major c member _ (by decide)
  · intro a member
    rcases member_replaced member with rfl | member
    · exact block
    · exact (held.blocks a (there a member)).congr (held.stop_le (there a member)) fun x about _ =>
        data a member x about
  · intro a member
    rw [kept.pages]
    rcases member_replaced member with rfl | member
    · have placed := held.placed b here
      exact ⟨address ▸ placed.aligned, stop ▸ placed.fits⟩
    · exact held.placed a (there a member)
  · exact apart_of_spans spans held.apart
  · intro page
    rw [kept.pages, held.used page, hasPage_of_spans spans]
  · intro a member page has
    rcases member_replaced member with rfl | member
    · exact held.own b here page ⟨address ▸ has.1, stop ▸ has.2⟩
    · exact held.own a (there a member) page has
  · rw [addresses_of_spans spans, kept.bestBet]
    exact held.bestBet
  · rw [allocated_of_spans spans, kept.pages]
    exact held.allocated

/-- The space of a minor is in use. -/
theorem inUse_insert (gap : Gap b xs ys m) :
    inUse (l ++ b.insert gap :: r) = inUse (l ++ b :: r) + m.size := by
  have minors : (b.insert gap).minors = xs ++ m :: ys := rfl
  simp only [inUse, List.flatMap_append, List.flatMap_cons, List.map_append, List.sum_append, minors, gap.split,
    List.map_cons, List.sum_cons]
  omega

/-- Outside of a block nothing changes. -/
theorem around_outside (gap : Gap b xs ys m)
    (around : Around h h' b.address (lastAddress xs) m.address (headAddress ys)) :
    ∀ x, x < b.address ∨ b.stop ≤ x → h'.memory x = h.memory x := by
  intro x apart
  refine around.outside gap fun about => ?_
  have inside := about.inside (b.insert gap).header_fits
  change b.address ≤ x ∧ x < b.stop at inside
  omega

/-- A minor more in one of the blocks. -/
theorem insert (held : Held base taken h (l ++ b :: r)) (gap : Gap b xs ys m)
    (inserted : Inserted h h' b.address (lastAddress xs) m.address (headAddress ys) m.size m.reqSize) :
    Held base taken h' (l ++ b.insert gap :: r) := by
  have here : b ∈ l ++ b :: r := List.mem_append_right l List.mem_cons_self
  have fits := held.stop_le here
  refine held.replace (c := b.insert gap) rfl rfl ((held.blocks b here).insert gap fits (held.present here) inserted)
    (around_outside gap inserted.others) (fun f less => inserted.others.major gap fits (by omega)) inserted.kept ?_
  rw [inUse_insert gap, inserted.inuse]
  exact (Nat.mod_modEq _ _).trans (held.inuse.add_right _)

end Held
end Laomb.Liballoc
