import Laomb.Base.DoublyLinked
import Laomb.Base.Tiling
import Laomb.Liballoc.Place
import Mathlib.Data.List.Pairwise
import Mathlib.Data.Nat.ModEq

/-! The heap as lists: the blocks from the page source in the order of their links, and in each
block its minors in the order of their addresses. `Held` says that the memory shows these lists. -/
namespace Laomb.Liballoc
open DoublyLinked Tiling Word PMM Libc

/-- A `liballoc_minor`: where it is, and the sizes that it records. -/
structure Minor where
  address : Nat
  size : Nat
  reqSize : Nat
deriving DecidableEq, Repr

namespace Minor

/-- The bytes that it takes, with the header. -/
def extent (m : Minor) : Nat := m.size + sizeofMinor

/-- The pointer that has been handed out for it. -/
def ptr (m : Minor) : Nat := userPtr m.address

end Minor

/-- A block with its minors, which lie apart behind its header and within its pages, and have room
for what was asked for and for the alignment. -/
structure MajorBlock where
  address : Nat
  pages : Nat
  minors : List Minor
  tiled : Tiled Minor.address Minor.extent (address + sizeofMajor) minors (address + pages * pageSize)
  padded : ∀ m ∈ minors, m.reqSize + (alignment + alignInfo) ≤ m.size

namespace MajorBlock

def stop (b : MajorBlock) : Nat := b.address + b.pages * pageSize

/-- The bytes with what `liballoc.c` keeps about the block. -/
def Meta (b : MajorBlock) (x : Nat) : Prop :=
  (b.address ≤ x ∧ x < b.address + 24) ∨
    ∃ m ∈ b.minors, (m.address ≤ x ∧ x < m.address + 24) ∨ x = userPtr m.address - alignInfo

end MajorBlock

/-- The memory shows the minor `m` of the block at `maj`, but for its links. -/
structure MinorHeld (h : Heap) (maj : Nat) (m : Minor) : Prop where
  owner : h.get m.address minorBlock = maj
  magic : h.get m.address minorMagic = liballocMagic
  sized : h.get m.address minorSize = m.size
  requested : h.get m.address minorReqSize = m.reqSize
  info : h.memory (userPtr m.address - alignInfo) =
    BitVec.ofNat 8 (userPtr m.address - (m.address + sizeofMinor))

/-- The memory shows the block `b`, but for its links. -/
structure BlockHeld (h : Heap) (b : MajorBlock) : Prop where
  pages : h.get b.address majorPages = b.pages
  size : h.get b.address majorSize = b.pages * pageSize
  usage : h.get b.address majorUsage = sizeofMajor + (b.minors.map Minor.extent).sum
  first : h.get b.address majorFirst = (b.minors.map Minor.address).headD null
  linked : Linked null (h.get · minorPrev) (h.get · minorNext) null (b.minors.map Minor.address)
  minors : ∀ m ∈ b.minors, MinorHeld h b.address m

variable {h h' : Heap} {b : MajorBlock} {m : Minor} {x : Nat} {xs ys : List Minor}

namespace MajorBlock

theorem inside (b : MajorBlock) (member : m ∈ b.minors) :
    b.address + 24 ≤ m.address ∧ m.address + m.size + 24 ≤ b.stop := by
  have place := b.tiled.inside member
  unfold sizeofMajor Minor.extent sizeofMinor at place
  exact ⟨place.1, by unfold stop; omega⟩

/-- The handed out bytes lie behind the header and its alignment, and within the minor. -/
theorem ptr_inside (b : MajorBlock) (member : m ∈ b.minors) :
    m.address + 40 ≤ m.ptr ∧ m.ptr + m.reqSize ≤ m.address + m.size + 24 := by
  obtain ⟨low, high, _⟩ := userPtr_bounds m.address
  have room := b.padded m member
  unfold alignment alignInfo at room
  exact ⟨low, by unfold Minor.ptr; omega⟩

theorem Meta.inside (data : b.Meta x) (header : b.address + 24 ≤ b.stop) : b.address ≤ x ∧ x < b.stop := by
  rcases data with major | ⟨m, member, minor⟩
  · omega
  · obtain ⟨low, high⟩ := b.inside member
    obtain ⟨above, below, _⟩ := userPtr_bounds m.address
    have room := b.padded m member
    unfold alignment alignInfo at room
    rcases minor with header | rfl
    · omega
    · unfold alignInfo
      omega

theorem header_fits (b : MajorBlock) : b.address + 24 ≤ b.stop := b.tiled.start_le

end MajorBlock

theorem MinorHeld.congr {maj : Nat} (held : MinorHeld h maj m) (fits : m.address + 24 ≤ 2 ^ 32)
    (same : ∀ x, m.address + 8 ≤ x → x < m.address + 24 → h'.memory x = h.memory x)
    (byte : h'.memory (userPtr m.address - alignInfo) = h.memory (userPtr m.address - alignInfo)) :
    MinorHeld h' maj m := by
  have field : ∀ f, 8 ≤ f → f ≤ 20 → h'.get m.address f = h.get m.address f := fun f low high =>
    Heap.get_congr (by omega) fun x above below => same x (by omega) (by omega)
  refine ⟨?_, ?_, ?_, ?_, byte.trans held.info⟩
  · exact (field _ (by decide) (by decide)).trans held.owner
  · exact (field _ (by decide) (by decide)).trans held.magic
  · exact (field _ (by decide) (by decide)).trans held.sized
  · exact (field _ (by decide) (by decide)).trans held.requested

/-- A block only depends on the bytes about it, other than its links. -/
theorem BlockHeld.congr (held : BlockHeld h b) (fits : b.stop ≤ 2 ^ 32)
    (same : ∀ x, b.Meta x → b.address + 8 ≤ x → h'.memory x = h.memory x) : BlockHeld h' b := by
  have header := b.header_fits
  have major : ∀ f, 8 ≤ f → f ≤ 20 → h'.get b.address f = h.get b.address f := fun f past less =>
    Heap.get_congr (by omega) fun x low high => same x (.inl (by omega)) (by omega)
  have minor : ∀ m ∈ b.minors, ∀ f ≤ 20, h'.get m.address f = h.get m.address f := by
    intro m member f less
    have place := b.inside member
    exact Heap.get_congr (by omega) fun x low high => same x (.inr ⟨m, member, .inl (by omega)⟩) (by omega)
  refine ⟨?_, ?_, ?_, ?_, ?_, fun m member => ?_⟩
  · exact (major _ (by decide) (by decide)).trans held.pages
  · exact (major _ (by decide) (by decide)).trans held.size
  · exact (major _ (by decide) (by decide)).trans held.usage
  · exact (major _ (by decide) (by decide)).trans held.first
  · refine held.linked.congr ?_ ?_
    · intro a listed
      obtain ⟨m, member, rfl⟩ := List.mem_map.mp listed
      exact minor m member _ (by decide)
    · intro a listed
      obtain ⟨m, member, rfl⟩ := List.mem_map.mp listed
      exact minor m member _ (by decide)
  · have place := b.inside member
    obtain ⟨near, _⟩ := userPtr_bounds m.address
    exact (held.minors m member).congr (by omega)
      (fun x _ _ => same x (.inr ⟨m, member, .inl (by omega)⟩) (by omega))
      (same _ (.inr ⟨m, member, .inr rfl⟩) (by unfold alignInfo; omega))

/-! ## A minor more -/

/-- The address of the last minor of a list, or the null pointer. -/
def lastAddress (xs : List Minor) : Nat := (xs.map Minor.address).getLastD null

/-- The address of the first minor of a list, or the null pointer. -/
def headAddress (ys : List Minor) : Nat := (ys.map Minor.address).headD null

/-- The gap between the minors `xs` and `ys` of the block has room for the minor `m`. -/
structure Gap (b : MajorBlock) (xs ys : List Minor) (m : Minor) : Prop where
  split : b.minors = xs ++ ys
  low : reach Minor.address Minor.extent (b.address + sizeofMajor) xs ≤ m.address
  high : m.address + m.extent ≤ ahead Minor.address ys b.stop
  padded : m.reqSize + (alignment + alignInfo) ≤ m.size

/-- The block with the minor in the gap. -/
def MajorBlock.insert (b : MajorBlock) (gap : Gap b xs ys m) : MajorBlock where
  address := b.address
  pages := b.pages
  minors := xs ++ m :: ys
  tiled := Tiled.insert (gap.split ▸ b.tiled) gap.low gap.high
  padded := by
    intro m' member
    rcases List.mem_append.mp member with left | right
    · exact b.padded m' (gap.split ▸ List.mem_append_left _ left)
    rcases List.mem_cons.mp right with rfl | right
    · exact gap.padded
    · exact b.padded m' (gap.split ▸ List.mem_append_right _ right)

namespace Gap

variable (gap : Gap b xs ys m)
include gap

theorem before : ∀ m' ∈ xs, b.address + 24 ≤ m'.address ∧ m'.address + m'.size + 24 ≤ m.address := by
  intro m' member
  have place := b.inside (gap.split ▸ List.mem_append_left ys member)
  have past := Tiled.le_reach (gap.split ▸ b.tiled) member
  have low := gap.low
  have long : m'.extent = m'.size + 24 := rfl
  exact ⟨place.1, by omega⟩

theorem behind : ∀ m' ∈ ys, m.address + m.size + 24 ≤ m'.address ∧ m'.address + m'.size + 24 ≤ b.stop := by
  intro m' member
  have place := b.inside (gap.split ▸ List.mem_append_right xs member)
  have past := Tiled.ahead_le (gap.split ▸ b.tiled) member
  have high := gap.high
  have long : m.extent = m.size + 24 := rfl
  unfold MajorBlock.stop at high
  exact ⟨by omega, place.2⟩

theorem own : b.address + 24 ≤ m.address ∧ m.address + m.size + 24 ≤ b.stop ∧ 32 ≤ m.size := by
  have place := (b.insert gap).inside (m := m) (List.mem_append_right xs List.mem_cons_self)
  have room := gap.padded
  unfold alignment alignInfo at room
  exact ⟨place.1, place.2, by omega⟩

end Gap

theorem lastAddress_concat (xs : List Minor) (z : Minor) : lastAddress (xs ++ [z]) = z.address := by
  rw [lastAddress, List.map_append, List.map_singleton, List.getLastD_concat]

theorem lastAddress_mem (nonempty : xs ≠ []) : ∃ z ∈ xs, z.address = lastAddress xs := by
  rcases xs.eq_nil_or_concat with rfl | ⟨xs, z, rfl⟩
  · exact absurd rfl nonempty
  · rw [List.concat_eq_append]
    exact ⟨z, by simp, (lastAddress_concat xs z).symm⟩

theorem headAddress_mem (nonempty : ys ≠ []) : ∃ z ∈ ys, z.address = headAddress ys := by
  cases ys with
  | nil => exact absurd rfl nonempty
  | cons z ys => exact ⟨z, List.mem_cons_self, rfl⟩

theorem lastAddress_some (some : lastAddress xs ≠ null) : ∃ z ∈ xs, z.address = lastAddress xs :=
  lastAddress_mem (fun empty => some (empty ▸ rfl))

theorem headAddress_some (some : headAddress ys ≠ null) : ∃ z ∈ ys, z.address = headAddress ys :=
  headAddress_mem (fun empty => some (empty ▸ rfl))

/-- A gap is room for a header. -/
theorem Gap.room (gap : Gap b xs ys m) (fits : b.stop ≤ 2 ^ 32) :
    Room b.address (lastAddress xs) m.address (headAddress ys) := by
  obtain ⟨low, high, big⟩ := gap.own
  refine ⟨low, by omega, fun some => ?_, fun some => ?_⟩
  · obtain ⟨z, member, there⟩ := lastAddress_some some
    have place := gap.before z member
    omega
  · obtain ⟨z, member, there⟩ := headAddress_some some
    have place := gap.behind z member
    omega

/-- Only bytes about the block change. -/
theorem Around.outside (gap : Gap b xs ys m)
    (around : Around h h' b.address (lastAddress xs) m.address (headAddress ys))
    (other : ¬ (b.insert gap).Meta x) : h'.memory x = h.memory x := by
  have minor : ∀ z ∈ xs ++ m :: ys, (x < z.address ∨ z.address + 24 ≤ x) ∧ x ≠ userPtr z.address - alignInfo := by
    intro z member
    by_contra inside
    exact other (.inr ⟨z, member, by omega⟩)
  have major : x < b.address ∨ b.address + 24 ≤ x := by
    by_contra inside
    refine other (.inl ?_)
    change b.address ≤ x ∧ x < b.address + 24
    omega
  have own := minor m (List.mem_append_right xs List.mem_cons_self)
  refine around x ⟨own.1, by omega, fun some => ?_, fun some => ?_⟩ own.2 (by omega)
  · obtain ⟨z, member, there⟩ := lastAddress_some some
    have apart := (minor z (List.mem_append_left _ member)).1
    omega
  · obtain ⟨z, member, there⟩ := headAddress_some some
    have apart := (minor z (List.mem_append_right xs (List.mem_cons_of_mem m member))).1
    omega

/-- Two minors of a block are the same or apart. -/
theorem MajorBlock.apart (b : MajorBlock) {z z' : Minor} (member : z ∈ b.minors) (member' : z' ∈ b.minors)
    (other : z' ≠ z) : z'.address + z'.size + 24 ≤ z.address ∨ z.address + z.size + 24 ≤ z'.address := by
  have symmetric : Std.Symm (fun a b : Minor => a.address + a.size + 24 ≤ b.address ∨
      b.address + b.size + 24 ≤ a.address) := ⟨fun _ _ either => either.symm⟩
  have pairs : b.minors.Pairwise fun a b : Minor => a.address + a.size + 24 ≤ b.address ∨
      b.address + b.size + 24 ≤ a.address := b.tiled.pairwise.imp fun {a b} order => .inl order
  exact pairs.forall member' member other

/-- Of the minors that are there already, two links change. -/
theorem Around.field (gap : Gap b xs ys m) (fits : b.stop ≤ 2 ^ 32)
    (around : Around h h' b.address (lastAddress xs) m.address (headAddress ys))
    {z : Minor} (member : z ∈ xs ++ ys) {f : Nat} (inHeader : f ≤ 20)
    (prevs : z.address = headAddress ys → 4 ≤ f)
    (nexts : z.address = lastAddress xs → f = 0 ∨ 8 ≤ f) : h'.get z.address f = h.get z.address f := by
  obtain ⟨above, below, big⟩ := gap.own
  obtain ⟨ptrLow, ptrHigh, _⟩ := userPtr_bounds m.address
  have apart : ∀ z' ∈ xs ++ ys, z'.address = z.address ∨ z'.address + 24 ≤ z.address ∨
      z.address + 24 ≤ z'.address := by
    intro z' member'
    by_cases same : z' = z
    · exact .inl (congrArg _ same)
    · have either := b.apart (gap.split ▸ member) (gap.split ▸ member') same
      omega
  have place : b.address + 24 ≤ z.address ∧ z.address + 24 ≤ b.stop ∧
      (z.address + 24 ≤ m.address ∨ m.address + m.size + 24 ≤ z.address) := by
    rcases List.mem_append.mp member with left | right
    · have place := gap.before z left
      omega
    · have place := gap.behind z right
      omega
  refine Heap.get_congr (by omega) fun x low high => ?_
  refine around x ⟨by omega, by omega, fun some => ?_, fun some => ?_⟩ (by unfold alignInfo; omega)
    (by omega)
  · obtain ⟨z', member', there⟩ := lastAddress_some some
    have either := apart z' (List.mem_append_left ys member')
    omega
  · obtain ⟨z', member', there⟩ := headAddress_some some
    have either := apart z' (List.mem_append_right xs member')
    omega

/-- Only the first of the minors behind a place is the first. -/
theorem tail_address {z : Minor} (order : (xs ++ ys).Pairwise fun a b => a.address + a.extent ≤ b.address)
    (member : z ∈ ys.tail) : headAddress ys < z.address := by
  cases ys with
  | nil => exact absurd member List.not_mem_nil
  | cons c ys =>
    have later := (List.pairwise_cons.mp (List.pairwise_append.mp order).2.1).1 z member
    have long : c.extent = c.size + 24 := rfl
    change c.address < z.address
    omega

theorem dropLast_address {z : Minor} (order : (xs ++ ys).Pairwise fun a b => a.address + a.extent ≤ b.address)
    (member : z ∈ xs.dropLast) : z.address < lastAddress xs := by
  rcases xs.eq_nil_or_concat with rfl | ⟨xs, w, rfl⟩
  · exact absurd member List.not_mem_nil
  · rw [List.concat_eq_append] at order member ⊢
    rw [List.dropLast_concat] at member
    rw [lastAddress_concat]
    have earlier := (List.pairwise_append.mp (List.pairwise_append.mp order).1).2.2 z member w
      (List.mem_singleton.mpr rfl)
    have long : z.extent = z.size + 24 := rfl
    omega

/-- Nothing but headers changes in the minors that are there already. -/
theorem Around.body (gap : Gap b xs ys m)
    (around : Around h h' b.address (lastAddress xs) m.address (headAddress ys))
    {z : Minor} (member : z ∈ xs ++ ys) (low : z.address + 24 ≤ x) (high : x < z.address + z.size + 24) :
    h'.memory x = h.memory x := by
  obtain ⟨above, below, big⟩ := gap.own
  obtain ⟨ptrLow, ptrHigh, _⟩ := userPtr_bounds m.address
  have header : ∀ z' ∈ xs ++ ys, x < z'.address ∨ z'.address + 24 ≤ x := by
    intro z' member'
    by_cases same : z' = z
    · exact .inr (same ▸ low)
    · have either := b.apart (gap.split ▸ member) (gap.split ▸ member') same
      omega
  have place : b.address + 24 ≤ z.address ∧
      (z.address + z.size + 24 ≤ m.address ∨ m.address + m.size + 24 ≤ z.address) := by
    rcases List.mem_append.mp member with left | right
    · have place := gap.before z left
      omega
    · have place := gap.behind z right
      omega
  refine around x ⟨by omega, by omega, fun some => ?_, fun some => ?_⟩ (by unfold alignInfo; omega)
    (by omega)
  · obtain ⟨z', member', there⟩ := lastAddress_some some
    have apart := header z' (List.mem_append_left ys member')
    omega
  · obtain ⟨z', member', there⟩ := headAddress_some some
    have apart := header z' (List.mem_append_right xs member')
    omega

/-- The minors that are there already stay as they are. -/
theorem Around.minor (gap : Gap b xs ys m) (fits : b.stop ≤ 2 ^ 32)
    (around : Around h h' b.address (lastAddress xs) m.address (headAddress ys)) {z : Minor}
    (member : z ∈ xs ++ ys) (old : MinorHeld h b.address z) : MinorHeld h' b.address z := by
  have field : ∀ f, 8 ≤ f → f ≤ 20 → h'.get z.address f = h.get z.address f := fun f low high =>
    around.field gap fits member high (fun _ => by omega) (fun _ => .inr low)
  refine ⟨?_, ?_, ?_, ?_, ?_⟩
  · exact (field _ (by decide) (by decide)).trans old.owner
  · exact (field _ (by decide) (by decide)).trans old.magic
  · exact (field _ (by decide) (by decide)).trans old.sized
  · exact (field _ (by decide) (by decide)).trans old.requested
  · obtain ⟨low, high, _⟩ := userPtr_bounds z.address
    have room := b.padded z (gap.split ▸ member)
    unfold alignment alignInfo at room
    refine (around.body gap member ?_ ?_).trans old.info
    · unfold alignInfo
      omega
    · unfold alignInfo
      omega

/-- The header of the block stays as it is, but for its usage and its first minor. -/
theorem Around.major (gap : Gap b xs ys m) (fits : b.stop ≤ 2 ^ 32)
    (around : Around h h' b.address (lastAddress xs) m.address (headAddress ys)) {f : Nat} (less : f ≤ 12) :
    h'.get b.address f = h.get b.address f := by
  obtain ⟨above, below, big⟩ := gap.own
  obtain ⟨ptrLow, ptrHigh, _⟩ := userPtr_bounds m.address
  have room := gap.room fits
  refine Heap.get_congr (by omega) fun x low high => ?_
  refine around x ⟨by omega, by omega, fun some => ?_, fun some => ?_⟩ (by unfold alignInfo; omega) (by omega)
  · have place := room.before some
    omega
  · have place := room.after some
    omega

/-- Only the first minor behind the gap gets another `prev`. -/
theorem Around.prevs (gap : Gap b xs ys m) (fits : b.stop ≤ 2 ^ 32)
    (around : Around h h' b.address (lastAddress xs) m.address (headAddress ys)) :
    ∀ a ∈ xs.map Minor.address ++ (ys.map Minor.address).tail, h'.get a minorPrev = h.get a minorPrev := by
  intro a listed
  have order : (xs ++ ys).Pairwise fun a b => a.address + a.extent ≤ b.address := gap.split ▸ b.tiled.pairwise
  rw [← List.map_tail, ← List.map_append] at listed
  obtain ⟨z, member, rfl⟩ := List.mem_map.mp listed
  have other : z.address ≠ headAddress ys := by
    rcases List.mem_append.mp member with left | right
    · intro same
      have place := gap.before z left
      have behind := (gap.room fits).after (by rw [← same]; unfold null; omega)
      omega
    · exact (tail_address order right).ne'
  have inside : z ∈ xs ++ ys :=
    List.mem_append.mpr ((List.mem_append.mp member).imp_right List.mem_of_mem_tail)
  exact around.field gap fits inside (by decide) (fun same => absurd same other) (fun _ => .inl rfl)

/-- Only the last minor before the gap gets another `next`. -/
theorem Around.nexts (gap : Gap b xs ys m) (fits : b.stop ≤ 2 ^ 32)
    (around : Around h h' b.address (lastAddress xs) m.address (headAddress ys)) :
    ∀ a ∈ (xs.map Minor.address).dropLast ++ ys.map Minor.address, h'.get a minorNext = h.get a minorNext := by
  intro a listed
  have order : (xs ++ ys).Pairwise fun a b => a.address + a.extent ≤ b.address := gap.split ▸ b.tiled.pairwise
  rw [← List.map_dropLast, ← List.map_append] at listed
  obtain ⟨z, member, rfl⟩ := List.mem_map.mp listed
  have other : z.address ≠ lastAddress xs := by
    rcases List.mem_append.mp member with left | right
    · exact (dropLast_address order left).ne
    · intro same
      have place := gap.behind z right
      have before := (gap.room fits).before (by rw [← same]; unfold null; omega)
      omega
  have inside : z ∈ xs ++ ys :=
    List.mem_append.mpr ((List.mem_append.mp member).imp_left List.mem_of_mem_dropLast)
  exact around.field gap fits inside (by decide) (fun _ => by decide) (fun same => absurd same other)

theorem Gap.last_node (gap : Gap b xs ys m) {a : Nat} (last : a ∈ (xs.map Minor.address).getLast?) :
    lastAddress xs = a ∧ lastAddress xs ≠ null := by
  rcases xs.eq_nil_or_concat with rfl | ⟨xs, w, rfl⟩
  · cases last
  · rw [List.concat_eq_append] at gap last ⊢
    rw [List.map_append, List.map_singleton, List.getLast?_concat, Option.mem_some_iff] at last
    have place := gap.before w (by simp)
    rw [lastAddress_concat]
    exact ⟨last, by unfold null; omega⟩

theorem Gap.head_node (gap : Gap b xs ys m) {a : Nat} (first : a ∈ (ys.map Minor.address).head?) :
    headAddress ys = a ∧ headAddress ys ≠ null := by
  cases ys with
  | nil => cases first
  | cons c ys =>
    cases first
    have place := gap.behind c List.mem_cons_self
    exact ⟨rfl, by change c.address ≠ 0; omega⟩

theorem Gap.last_null (gap : Gap b xs ys m) (none : lastAddress xs = null) : xs = [] := by
  by_contra some
  obtain ⟨z, member, there⟩ := lastAddress_mem some
  have place := gap.before z member
  unfold null at none
  omega

theorem BlockHeld.insert (held : BlockHeld h b) (gap : Gap b xs ys m) (fits : b.stop ≤ 2 ^ 32)
    (present : b.address ≠ null)
    (inserted : Inserted h h' b.address (lastAddress xs) m.address (headAddress ys) m.size m.reqSize) :
    BlockHeld h' (b.insert gap) := by
  have around := inserted.others
  have header := b.header_fits
  refine ⟨?_, ?_, ?_, ?_, ?_, ?_⟩
  · exact (around.major gap fits (by decide)).trans held.pages
  · exact (around.major gap fits (by decide)).trans held.size
  · have total := (b.insert gap).tiled.sum_le
    have parts : ((xs ++ m :: ys).map Minor.extent).sum = ((xs ++ ys).map Minor.extent).sum + m.extent := by
      simp only [List.map_append, List.map_cons, List.sum_append, List.sum_cons]
      omega
    have stop : (b.insert gap).address + (b.insert gap).pages * pageSize = b.stop := rfl
    have long : m.extent = m.size + 24 := rfl
    change h'.get b.address majorUsage = sizeofMajor + ((xs ++ m :: ys).map Minor.extent).sum
    change (b.address + sizeofMajor + ((xs ++ m :: ys).map Minor.extent).sum ≤ _) at total
    rw [inserted.usage, held.usage, gap.split]
    unfold u32 sizeofMinor sizeofMajor null at *
    omega
  · change h'.get b.address majorFirst = ((xs ++ m :: ys).map Minor.address).headD null
    rw [inserted.first, held.first, gap.split]
    by_cases none : lastAddress xs = null
    · rw [if_pos none, gap.last_null none]
      rfl
    · rw [if_neg none]
      cases xs with
      | nil => exact absurd rfl none
      | cons z xs => rfl
  · change Linked null _ _ null ((xs ++ m :: ys).map Minor.address)
    rw [List.map_append, List.map_cons]
    have linked := held.linked
    rw [gap.split, List.map_append] at linked
    refine linked.insert inserted.prevs inserted.nexts ?_ ?_ (around.prevs gap fits) (around.nexts gap fits)
    · intro a last
      obtain ⟨rfl, some⟩ := gap.last_node last
      exact inserted.before some
    · intro a first
      obtain ⟨rfl, some⟩ := gap.head_node first
      exact inserted.after some
  · intro z member
    rcases List.mem_append.mp member with left | right
    · have old := List.mem_append_left ys left
      exact around.minor gap fits old (held.minors z (gap.split ▸ old))
    rcases List.mem_cons.mp right with rfl | right
    · exact ⟨inserted.owner, inserted.magic, inserted.sized, inserted.requested, inserted.info⟩
    · have old := List.mem_append_right xs right
      exact around.minor gap fits old (held.minors z (gap.split ▸ old))

/-! ## A minor less -/

/-- The block without the minor `m`. -/
def MajorBlock.erase (b : MajorBlock) (split : b.minors = xs ++ m :: ys) : MajorBlock where
  address := b.address
  pages := b.pages
  minors := xs ++ ys
  tiled := Tiled.erase (split ▸ b.tiled)
  padded := by
    intro z member
    refine b.padded z (split ▸ ?_)
    exact List.mem_append.mpr ((List.mem_append.mp member).imp_right (List.mem_cons_of_mem m))

/-- Where the minor was there is a gap for it. -/
theorem erase_gap (split : b.minors = xs ++ m :: ys) : Gap (b.erase split) xs ys m := by
  have tiled := split ▸ b.tiled
  have own := Tiled.suffix tiled
  have behind : Tiled Minor.address Minor.extent (m.address + m.extent) ([] ++ ys) b.stop := own.2
  exact ⟨rfl, own.1, behind.reach_le.2,
    b.padded m (split ▸ List.mem_append_right xs List.mem_cons_self)⟩

theorem erase_insert (split : b.minors = xs ++ m :: ys) : (b.erase split).insert (erase_gap split) = b := by
  obtain ⟨address, pages, minors, tiled, padded⟩ := b
  obtain rfl : minors = xs ++ m :: ys := split
  rfl

end Laomb.Liballoc
