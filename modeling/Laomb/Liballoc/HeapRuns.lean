import Laomb.Base.Transition
import Laomb.Liballoc.Free

/-! Runs of `kmalloc` and `kfree` from an empty heap, with clients that store bytes in what they
got, and with other users of the page allocator. No request is made that can not be served: the
heap takes the address 0 for a block when the page allocator has none. -/
namespace Laomb.Liballoc
open DoublyLinked Tiling Word PMM Libc FirstFit Transition

/-! ## `kfree` of a pointer that is in use -/

variable {base fuel : Nat} {taken : Nat → Prop} {h h' : Heap} {b c : MajorBlock} {m z z' : Minor}
    {bs bs' l r : List MajorBlock} {p x : Nat}

/-- All minors of the blocks. -/
def minorsOf (bs : List MajorBlock) : List Minor := bs.flatMap MajorBlock.minors

theorem mem_minorsOf : z ∈ minorsOf bs ↔ ∃ b ∈ bs, z ∈ b.minors := List.mem_flatMap

theorem Adds.mem (adds : Adds m bs bs') : z ∈ minorsOf bs' ↔ z = m ∨ z ∈ minorsOf bs := by
  cases adds with
  | inside l r b xs ys gap =>
    have minors : (b.insert gap).minors = xs ++ m :: ys := rfl
    simp only [minorsOf, List.flatMap_append, List.flatMap_cons, minors, gap.split, List.mem_append, List.mem_cons]
    tauto
  | behind bs e gap full =>
    have minors : (e.insert gap).minors = [m] := rfl
    simp only [minorsOf, List.flatMap_append, List.flatMap_cons, List.flatMap_nil, minors, List.mem_append,
      List.mem_cons, List.append_nil, List.not_mem_nil, or_false]
    tauto

theorem Removes.mem (removes : Removes m bs bs') : z ∈ minorsOf bs ↔ z = m ∨ z ∈ minorsOf bs' := by
  cases removes with
  | inside l r b xs ys split some =>
    have minors : (b.erase split).minors = xs ++ ys := rfl
    simp only [minorsOf, List.flatMap_append, List.flatMap_cons, minors, split, List.mem_append, List.mem_cons]
    tauto
  | block l r b only =>
    simp only [minorsOf, List.flatMap_append, List.flatMap_cons, only, List.mem_append, List.mem_cons,
      List.not_mem_nil, or_false]
    tauto

/-- Two minors are the same or apart. -/
theorem Held.minors_apart (held : Held base taken h bs) (member : z ∈ minorsOf bs) (member' : z' ∈ minorsOf bs)
    (other : z' ≠ z) : z'.address + z'.size + 24 ≤ z.address ∨ z.address + z.size + 24 ≤ z'.address := by
  obtain ⟨b, block, own⟩ := mem_minorsOf.mp member
  obtain ⟨c, block', own'⟩ := mem_minorsOf.mp member'
  by_cases same : b = c
  · subst same
    exact b.apart own own' other
  · have away := held.blocks_apart block block' same
    have place := b.inside own
    have place' := c.inside own'
    omega

theorem Held.ptr_bounds (held : Held base taken h bs) (member : z ∈ minorsOf bs) :
    z.address + 40 ≤ z.ptr ∧ z.ptr + z.reqSize ≤ z.address + z.size + 24 ∧ z.ptr % 16 = 0 ∧
      z.address + z.size + 24 ≤ 2 ^ 32 := by
  obtain ⟨b, block, own⟩ := mem_minorsOf.mp member
  obtain ⟨low, high⟩ := b.ptr_inside own
  have place := b.inside own
  have stop := held.stop_le block
  exact ⟨low, high, (userPtr_bounds z.address).2.2, by omega⟩

theorem Held.ptr_inj (held : Held base taken h bs) (member : z ∈ minorsOf bs) (member' : z' ∈ minorsOf bs)
    (same : z'.ptr = z.ptr) : z' = z := by
  by_contra other
  have away := held.minors_apart member member' other
  have bounds := held.ptr_bounds member
  have bounds' := held.ptr_bounds member'
  omega

/-- The bytes that have been handed out are not about the heap. -/
theorem Held.data_apart (held : Held base taken h bs) (member : z ∈ minorsOf bs) {i : Nat} (less : i < z.reqSize) :
    ∀ b ∈ bs, ¬ b.Meta (z.ptr + i) := by
  obtain ⟨b, block, own⟩ := mem_minorsOf.mp member
  obtain ⟨low, high⟩ := b.ptr_inside own
  have place := b.inside own
  intro c block' about
  by_cases same : c = b
  · subst same
    rcases about with major | ⟨z', own', minor⟩
    · omega
    · obtain ⟨low', high'⟩ := c.ptr_inside own'
      by_cases other : z' = z
      · subst other
        unfold Minor.ptr alignInfo at *
        omega
      · have away := c.apart own own' other
        have place' := c.inside own'
        unfold Minor.ptr alignInfo at *
        omega
  · have away := held.blocks_apart block' block same
    have inside := about.inside c.header_fits
    omega

theorem kfree_eq (held : Held base taken h bs) (member : z ∈ minorsOf bs) :
    h.kfree base z.ptr = (h.liballocLock.release base z.address).liballocUnlock := by
  obtain ⟨b, block, own⟩ := mem_minorsOf.mp member
  have bounds := held.ptr_bounds member
  have shown := (held.blocks b block).minors z own
  have some : z.ptr ≠ null := by
    unfold null
    omega
  have aligned : h.unalign z.ptr = z.address + sizeofMinor := Heap.unalign_eq (by
    have room := b.padded z own
    unfold alignment alignInfo at room
    omega) shown.info
  have header : sub32 (z.address + sizeofMinor) sizeofMinor = z.address := by
    unfold sub32 u32 sizeofMinor
    omega
  have magic : h.liballocLock.get z.address minorMagic = liballocMagic := shown.magic
  rw [Heap.kfree, if_neg some, aligned]
  dsimp only
  rw [header, if_neg (not_not.mpr magic)]

theorem unlock_get (u : Heap) (p f : Nat) : u.liballocUnlock.get p f = u.get p f := rfl

theorem Freed.unlocked {u : Heap} (freed : Freed base taken h.liballocLock u bs bs' z) :
    Freed base taken h u.liballocUnlock bs bs' z := by
  have kept := freed.held
  have quiet := freed.quiet
  refine ⟨freed.removes, ?_, ?_, ?_, ?_, ?_⟩
  · exact kept.congr (fun _ _ _ _ => rfl) rfl rfl kept.bestBet rfl
  · exact freed.outside
  · exact ⟨quiet.errorCount, quiet.possibleOverruns, quiet.warningCount⟩
  · rw [unlock_get]
    exact freed.magic
  · exact freed.body

theorem kfree_freed (held : Held base taken h bs) (member : z ∈ minorsOf bs) :
    ∃ bs', Freed base taken h (h.kfree base z.ptr) bs bs' z := by
  obtain ⟨b, block, own⟩ := mem_minorsOf.mp member
  obtain ⟨bs', freed⟩ := release_freed (Heap.held_locked held) block own
  rw [kfree_eq held member]
  exact ⟨bs', freed.unlocked⟩

/-! ## What the clients see -/

/-- For every pointer in use, the bytes behind it. A byte that nobody has written is `none`. -/
abbrev Store := Nat → Option (List (Option (BitVec 8)))

inductive Event where
  | kmalloc (size p : Nat)
  | kfree (p : Nat)
  | write (p i : Nat) (v : BitVec 8)
  | others

def Store.empty : Store := fun _ => none

/-- A step of the clients, if it keeps their rules: only pointers in use are freed and written
through, the latter within the size that was asked for, which fits with its headers. -/
def Store.step (store : Store) : Event → Option Store
  | .kmalloc size p =>
    if size + 80 < 2 ^ 32 then some (Function.update store p (some (List.replicate size none))) else none
  | .kfree p => if (store p).isSome then some (Function.update store p none) else none
  | .write p i v => do
    let data ← store p
    if i < data.length then some (Function.update store p (some (data.set i (some v)))) else none
  | .others => some store

/-- The heap, and the pages that others have taken from the page allocator. -/
structure System where
  heap : Heap
  taken : Nat → Prop

/-- The heap has the page from the page allocator. -/
def System.Owns (s : System) (page : Nat) : Prop := s.heap.pages.pmm.Used page ∧ ¬ s.taken page

/-- There are pages for a new block, or there is room in a block. -/
def System.Satisfies (base : Nat) (s : System) (size : Nat) : Prop :=
  ∀ bs, Held base s.taken s.heap bs → Possible s.heap bs (Heap.paddedSize size)

/-- The calls, the stores of clients, and others that take and give back pages and change any
memory that is not the heap's. A `kmalloc` is only made where it can be served. -/
inductive HeapStep (base : Nat) : System → Event → System → Prop where
  | kmalloc (s : System) (size fuel p : Nat) (h : Heap) : s.Satisfies base size →
      s.heap.kmalloc base fuel size = some (p, h) → HeapStep base s (.kmalloc size p) ⟨h, s.taken⟩
  | kfree (s : System) (p : Nat) : HeapStep base s (.kfree p) ⟨s.heap.kfree base p, s.taken⟩
  | write (s : System) (p i : Nat) (v : BitVec 8) : HeapStep base s (.write p i v)
      ⟨{ s.heap with memory := Function.update s.heap.memory (p + i) v }, s.taken⟩
  | others (s : System) (memory : Memory) (interrupts : Interrupts) (pmm : Pmm) (taken : Nat → Prop) :
      (∀ page, s.Owns page → ∀ k < pageSize,
        memory (base + page * pageSize + k) = s.heap.memory (base + page * pageSize + k)) →
      pmm.totalPages = s.heap.pages.pmm.totalPages → (∀ page, pmm.Used page ↔ taken page ∨ s.Owns page) →
      (∀ page, s.Owns page → ¬ taken page) → HeapStep base s .others
        ⟨{ s.heap with
          memory := memory, interrupts := interrupts, pages := { s.heap.pages with pmm := pmm } }, taken⟩

/-- Before the first call, with all of the physical memory mapped above `base`. -/
structure Boot (base : Nat) (s : System) : Prop where
  higher : HigherHalf base s.heap.pages.pmm
  root : s.heap.memRoot = null
  bestBet : s.heap.bestBet = null
  inuse : s.heap.inuse = 0
  allocated : s.heap.pages.allocated = 0
  taken : ∀ page, s.heap.pages.pmm.Used page ↔ s.taken page

/-! ## The invariant -/

/-- The blocks `bs` are in the memory, none of them empty, and their minors are what the clients
have, with the bytes that they have written. -/
structure Shows (base : Nat) (s : System) (store : Store) (bs : List MajorBlock) : Prop where
  held : Held base s.taken s.heap bs
  busy : ∀ b ∈ bs, b.minors ≠ []
  sound : ∀ p data, store p = some data → ∃ z ∈ minorsOf bs, z.ptr = p ∧ z.reqSize = data.length ∧
    ∀ i v, data[i]? = some (some v) → s.heap.memory (p + i) = v
  complete : ∀ z ∈ minorsOf bs, (store z.ptr).isSome

variable {s t : System} {store store' : Store} {size : Nat} {e : Event} {es : List Event}

theorem Boot.shows (boot : Boot base s) : Shows base s Store.empty [] := by
  refine ⟨⟨boot.higher, boot.root, trivial, ?_, ?_, .nil, ?_, ?_, .inl boot.bestBet, ?_, ?_⟩, ?_, ?_, ?_⟩
  · exact fun _ member => absurd member List.not_mem_nil
  · exact fun _ member => absurd member List.not_mem_nil
  · intro page
    rw [boot.taken]
    simp
  · exact fun _ member => absurd member List.not_mem_nil
  · rw [boot.inuse]
    rfl
  · rw [boot.allocated]
    rfl
  · exact fun _ member => absurd member List.not_mem_nil
  · exact fun _ _ some => nomatch some
  · exact fun _ member => absurd member List.not_mem_nil

/-- The bytes behind a pointer in use stay where only bytes about the heap change. -/
theorem Outside.data (outside : Outside bs h h') (held : Held base taken h' bs) (member : z ∈ minorsOf bs) {i : Nat}
    (less : i < z.reqSize) : h'.memory (z.ptr + i) = h.memory (z.ptr + i) :=
  outside _ (held.data_apart member less)

theorem Adds.busy (adds : Adds m bs bs') (busy : ∀ b ∈ bs, b.minors ≠ []) : ∀ b ∈ bs', b.minors ≠ [] := by
  intro c member
  cases adds with
  | inside l r b xs ys gap =>
    rcases Held.member_replaced member with rfl | other
    · change xs ++ m :: ys ≠ []
      simp
    · exact busy c (List.mem_append.mpr ((List.mem_append.mp other).imp_right (List.mem_cons_of_mem b)))
  | behind bs e gap full =>
    rcases List.mem_append.mp member with old | new
    · exact busy c old
    · rw [List.mem_singleton.mp new]
      exact List.cons_ne_nil m []

theorem Removes.busy (removes : Removes m bs bs') (busy : ∀ b ∈ bs, b.minors ≠ []) :
    ∀ b ∈ bs', b.minors ≠ [] := by
  intro c member
  cases removes with
  | inside l r b xs ys split some =>
    rcases Held.member_replaced member with rfl | other
    · exact some
    · exact busy c (List.mem_append.mpr ((List.mem_append.mp other).imp_right (List.mem_cons_of_mem b)))
  | block l r b only =>
    exact busy c (List.mem_append.mpr ((List.mem_append.mp member).imp_right (List.mem_cons_of_mem b)))

theorem outside_of_others (held : Held base taken h (l ++ b :: r)) (own : m ∈ b.minors) (other : c ∈ l ++ r) :
    m ∉ c.minors := by
  intro listed
  have away := held.others other
  have place := b.inside own
  have place' := c.inside listed
  omega

/-- A minor that has been taken out is gone. -/
theorem Removes.gone (removes : Removes m bs bs') (held : Held base taken h bs) : m ∉ minorsOf bs' := by
  intro listed
  obtain ⟨c, member, own⟩ := mem_minorsOf.mp listed
  cases removes with
  | inside l r b xs ys split some =>
    have here : m ∈ b.minors := split ▸ List.mem_append_right xs List.mem_cons_self
    rcases Held.member_replaced member with rfl | other
    · have order := b.tiled.pairwise
      rw [split] at order
      obtain ⟨_, behind, cross⟩ := List.pairwise_append.mp order
      have long : m.extent = m.size + 24 := rfl
      rcases List.mem_append.mp own with left | right
      · have before := cross m left m List.mem_cons_self
        omega
      · have before := (List.pairwise_cons.mp behind).1 m right
        omega
    · exact outside_of_others held here other own
  | block l r b only =>
    exact outside_of_others held (only ▸ List.mem_singleton.mpr rfl) member own

theorem Adds.fresh (adds : Adds m bs bs') (held : Held base taken h bs') : m ∉ minorsOf bs := by
  intro listed
  obtain ⟨c, member, own⟩ := mem_minorsOf.mp listed
  cases adds with
  | inside l r b xs ys gap =>
    have here : m ∈ (b.insert gap).minors := List.mem_append_right xs List.mem_cons_self
    rcases Held.member_replaced member with rfl | other
    · have long : m.extent = m.size + 24 := rfl
      rw [gap.split] at own
      rcases List.mem_append.mp own with left | right
      · have before := gap.before m left
        omega
      · have behind := gap.behind m right
        omega
    · exact outside_of_others held here other own
  | behind bs e gap full =>
    have here : m ∈ (e.insert gap).minors := List.mem_cons_self
    exact outside_of_others held here (by rwa [List.append_nil]) own

/-! ## One step, and a run -/

theorem Shows.kmalloc (shows' : Shows base s store bs) (small : size + 80 < 2 ^ 32) (room : s.Satisfies base size)
    (run : s.heap.kmalloc base fuel size = some (p, h)) : store p = none ∧ ∃ bs',
      Shows base ⟨h, s.taken⟩ (Function.update store p (some (List.replicate size none))) bs' := by
  have held := shows'.held
  obtain ⟨result, served, bs', m, _, requested, spec⟩ :=
    Heap.kmalloc_serves held small (room bs held) (Nat.le_max_right fuel (fuelFor bs))
  obtain rfl : result = (p, h) :=
    Option.some.inj (served.symm.trans (Heap.kmalloc_mono (Nat.le_max_left fuel (fuelFor bs)) run))
  have pointer : p = m.ptr := spec.pointer
  have after := spec.held
  have mem := fun z => spec.adds.mem (z := z)
  have here : m ∈ minorsOf bs' := (mem m).mpr (.inl rfl)
  have fresh : m ∉ minorsOf bs := spec.adds.fresh after
  have old : ∀ z ∈ minorsOf bs, z.ptr ≠ p := by
    intro z member same
    have equal := after.ptr_inj here ((mem z).mpr (.inr member)) (same.trans pointer)
    exact fresh (equal ▸ member)
  refine ⟨?_, bs', after, spec.adds.busy shows'.busy, ?_, ?_⟩
  · by_contra used
    obtain ⟨data, some⟩ := Option.ne_none_iff_exists'.mp used
    obtain ⟨z, member, there, _⟩ := shows'.sound p data some
    exact old z member there
  · intro q data found
    by_cases same : q = p
    · subst same
      rw [Function.update_self] at found
      obtain rfl := Option.some.inj found
      refine ⟨m, here, pointer.symm, requested.trans (List.length_replicate ..).symm, fun i v written => ?_⟩
      rw [List.getElem?_replicate] at written
      split at written <;> cases written
    · rw [Function.update_of_ne same] at found
      obtain ⟨z, member, there, length, bytes⟩ := shows'.sound q data found
      refine ⟨z, (mem z).mpr (.inr member), there, length, fun i v written => ?_⟩
      obtain ⟨less, _⟩ := List.getElem?_eq_some_iff.mp written
      rw [← bytes i v written, ← there]
      exact spec.outside.data after ((mem z).mpr (.inr member)) (by omega)
  · intro z member
    by_cases same : z.ptr = p
    · rw [same, Function.update_self]
      rfl
    · rw [Function.update_of_ne same]
      rcases (mem z).mp member with rfl | before
      · exact absurd pointer.symm same
      · exact shows'.complete z before

theorem Shows.kfree (shows' : Shows base s store bs) (used : (store p).isSome) :
    ∃ bs', Shows base ⟨s.heap.kfree base p, s.taken⟩ (Function.update store p none) bs' := by
  have held := shows'.held
  obtain ⟨data, some⟩ := Option.isSome_iff_exists.mp used
  obtain ⟨m, member, rfl, _⟩ := shows'.sound p data some
  obtain ⟨bs', freed⟩ := kfree_freed held member
  have mem := fun z => freed.removes.mem (z := z)
  have gone := freed.removes.gone held
  refine ⟨bs', freed.held, freed.removes.busy shows'.busy, ?_, ?_⟩
  · intro q data found
    by_cases same : q = m.ptr
    · rw [same, Function.update_self] at found
      cases found
    · rw [Function.update_of_ne same] at found
      obtain ⟨z, before, there, length, bytes⟩ := shows'.sound q data found
      have kept : z ∈ minorsOf bs' := ((mem z).mp before).resolve_left fun mine => same (mine ▸ there.symm)
      refine ⟨z, kept, there, length, fun i v written => ?_⟩
      obtain ⟨less, _⟩ := List.getElem?_eq_some_iff.mp written
      rw [← bytes i v written, ← there]
      exact freed.outside _ (held.data_apart before (by omega))
  · intro z kept
    have before := (mem z).mpr (.inr kept)
    have other : z.ptr ≠ m.ptr := fun same => gone (held.ptr_inj member before same ▸ kept)
    rw [Function.update_of_ne other]
    exact shows'.complete z before

theorem Shows.write (shows' : Shows base s store bs) {data : List (Option (BitVec 8))} (found : store p = some data)
    {i : Nat} (less : i < data.length) (v : BitVec 8) :
    Shows base ⟨{ s.heap with memory := Function.update s.heap.memory (p + i) v }, s.taken⟩
      (Function.update store p (some (data.set i (some v)))) bs := by
  have held := shows'.held
  obtain ⟨m, member, rfl, length, bytes⟩ := shows'.sound p data found
  have bounds := held.ptr_bounds member
  refine ⟨?_, shows'.busy, ?_, ?_⟩
  · refine held.congr (fun b block x about => ?_) rfl rfl held.bestBet rfl
    refine Function.update_of_ne (fun same => ?_) _ _
    exact held.data_apart member (by omega) b block (same ▸ about)
  · intro q data' found'
    by_cases same : q = m.ptr
    · subst same
      rw [Function.update_self] at found'
      obtain rfl := Option.some.inj found'
      refine ⟨m, member, rfl, length.trans (List.length_set ..).symm, fun j w written => ?_⟩
      change Function.update s.heap.memory (m.ptr + i) v (m.ptr + j) = w
      by_cases here : j = i
      · subst here
        rw [List.getElem?_set_self less] at written
        cases written
        exact Function.update_self ..
      · rw [List.getElem?_set_ne (Ne.symm here)] at written
        rw [Function.update_of_ne (by omega)]
        exact bytes j w written
    · rw [Function.update_of_ne same] at found'
      obtain ⟨z, other, there, length', bytes'⟩ := shows'.sound q data' found'
      refine ⟨z, other, there, length', fun j w written => ?_⟩
      obtain ⟨less', _⟩ := List.getElem?_eq_some_iff.mp written
      have distinct : z ≠ m := fun equal => same (equal ▸ there.symm)
      have away := held.minors_apart member other distinct
      have bounds' := held.ptr_bounds other
      change Function.update s.heap.memory (m.ptr + i) v (q + j) = w
      rw [Function.update_of_ne (by omega)]
      exact bytes' j w written
  · intro z other
    by_cases same : z.ptr = m.ptr
    · rw [same, Function.update_self]
      rfl
    · rw [Function.update_of_ne same]
      exact shows'.complete z other

/-- The heap has the pages of its blocks. -/
theorem Held.owns (held : Held base s.taken s.heap bs) (page : Nat) :
    s.Owns page ↔ ∃ b ∈ bs, b.HasPage base page := by
  rw [System.Owns, held.used]
  constructor
  · exact fun ⟨either, other⟩ => either.resolve_left other
  · exact fun ⟨b, member, has⟩ => ⟨.inr ⟨b, member, has⟩, held.own b member page has⟩

/-- Every byte of a block is on one of the heap's pages. -/
theorem Held.byte_owned (held : Held base s.taken s.heap bs) (member : b ∈ bs) (low : b.address ≤ x)
    (high : x < b.stop) : ∃ page, s.Owns page ∧ ∃ k < pageSize, x = base + page * pageSize + k := by
  obtain ⟨start, there⟩ := (held.placed b member).aligned
  refine ⟨(x - base) / pageSize, (held.owns _).mpr ⟨b, member, ?_⟩, (x - base) % pageSize, ?_, ?_⟩
  · unfold MajorBlock.HasPage pageSize at *
    omega
  · exact Nat.mod_lt _ (by decide)
  · unfold pageSize at *
    omega

theorem Shows.others (shows' : Shows base s store bs) {memory : Memory} (interrupts : Interrupts) {pmm : Pmm}
    {taken : Nat → Prop} (same : ∀ page, s.Owns page → ∀ k < pageSize,
      memory (base + page * pageSize + k) = s.heap.memory (base + page * pageSize + k))
    (total : pmm.totalPages = s.heap.pages.pmm.totalPages)
    (used : ∀ page, pmm.Used page ↔ taken page ∨ s.Owns page) (own : ∀ page, s.Owns page → ¬ taken page) :
    Shows base ⟨{ s.heap with
      memory := memory, interrupts := interrupts, pages := { s.heap.pages with pmm := pmm } }, taken⟩ store bs := by
  have held := shows'.held
  have inside : ∀ b ∈ bs, ∀ x, b.address ≤ x → x < b.stop → memory x = s.heap.memory x := by
    intro b member x low high
    obtain ⟨page, owned, k, less, rfl⟩ := held.byte_owned member low high
    exact same page owned k less
  have changed : Held base s.taken { s.heap with memory := memory, interrupts := interrupts } bs :=
    held.congr (fun b member x about => by
      have range := about.inside b.header_fits
      exact inside b member x range.1 range.2) rfl rfl held.bestBet rfl
  refine ⟨⟨?_, changed.root, changed.linked, ?_, ?_, changed.apart, ?_, ?_, changed.bestBet, changed.inuse,
    changed.allocated⟩, shows'.busy, ?_, shows'.complete⟩
  · exact ⟨held.higher.positive, total ▸ held.higher.fits⟩
  · intro b member
    exact (changed.blocks b member).congr (changed.stop_le member) fun _ _ _ => rfl
  · intro b member
    have placed := held.placed b member
    exact ⟨placed.aligned, total ▸ placed.fits⟩
  · exact fun page => (used page).trans (or_congr_right (held.owns page))
  · exact fun b member page has => own page ((held.owns page).mpr ⟨b, member, has⟩)
  · intro p data found
    obtain ⟨z, listed, there, length, bytes⟩ := shows'.sound p data found
    refine ⟨z, listed, there, length, fun i v written => ?_⟩
    obtain ⟨less, _⟩ := List.getElem?_eq_some_iff.mp written
    obtain ⟨b, member, own⟩ := mem_minorsOf.mp listed
    have place := b.inside own
    have bounds := held.ptr_bounds listed
    exact (inside b member _ (by omega) (by omega)).trans (bytes i v written)

theorem Shows.step (shows' : Shows base s store bs) (step : HeapStep base s e t)
    (client : store.step e = some store') : ∃ bs', Shows base t store' bs' := by
  cases step with
  | kmalloc size fuel p h room run =>
    obtain ⟨small, ⟨⟩⟩ := Option.ite_none_right_eq_some.mp client
    exact (shows'.kmalloc small room run).2
  | kfree p =>
    obtain ⟨used, ⟨⟩⟩ := Option.ite_none_right_eq_some.mp client
    exact shows'.kfree used
  | write p i v =>
    obtain ⟨data, found, rest⟩ := Option.bind_eq_some_iff.mp client
    obtain ⟨less, ⟨⟩⟩ := Option.ite_none_right_eq_some.mp rest
    exact ⟨bs, shows'.write found less v⟩
  | others memory interrupts pmm taken same total used own =>
    obtain rfl := Option.some.inj client
    exact ⟨bs, shows'.others interrupts same total used own⟩

theorem run_shows (run : Run (HeapStep base) s es t) {first : Store} (shows' : Shows base s first bs)
    (client : es.foldlM Store.step first = some store) : ∃ bs', Shows base t store bs' := by
  induction run generalizing first bs with
  | refl s =>
    obtain rfl := Option.some.inj client
    exact ⟨bs, shows'⟩
  | next step _ ih =>
    obtain ⟨next, now, rest⟩ := Option.bind_eq_some_iff.mp client
    obtain ⟨bs', after⟩ := shows'.step step now
    exact ih after rest

/-! ## Two clients -/

/-- Thirty-two free pages. -/
def freePmm : Pmm := ⟨fun _ => 0#8, 32, 4, []⟩

def bootSystem : System :=
  ⟨⟨fun _ => 0#8, ⟨true, 0⟩, ⟨freePmm, 0, 0⟩, null, null, 0, 0, 0⟩, fun _ => False⟩

theorem freePmm_free (page : Nat) : ¬ freePmm.Used page := by
  unfold Pmm.Used freePmm BitMemory.bitAt
  simp

theorem bootSystem_boot : Boot 0xc0000000 bootSystem :=
  ⟨⟨by decide, by decide⟩, rfl, rfl, rfl, rfl, fun page => iff_of_false (freePmm_free page) id⟩

/-- One step, where the pages from the sixteenth on are free for a new block. -/
def heapCall (s : System) : Event → Option System
  | .kmalloc size p =>
    if RunAt s.heap.pages.pmm.Free s.heap.pages.pmm.totalPages (newPageCount (Heap.paddedSize size)) 16 then do
      let (q, h) ← s.heap.kmalloc 0xc0000000 8 size
      if q = p then some ⟨h, s.taken⟩ else none
    else none
  | .kfree p => some ⟨s.heap.kfree 0xc0000000 p, s.taken⟩
  | .write p i v => some ⟨{ s.heap with memory := Function.update s.heap.memory (p + i) v }, s.taken⟩
  | .others => none

theorem heapCall_step (s : System) (e : Event) (t : System) (done : heapCall s e = some t) :
    HeapStep 0xc0000000 s e t := by
  cases e with
  | kmalloc size p =>
    obtain ⟨free, done⟩ := Option.ite_none_right_eq_some.mp done
    obtain ⟨⟨q, h⟩, run, done⟩ := Option.bind_eq_some_iff.mp done
    obtain ⟨rfl, ⟨⟩⟩ := Option.ite_none_right_eq_some.mp done
    exact .kmalloc s size 8 q h (fun _ _ => .inl ⟨16, free⟩) run
  | kfree p =>
    cases done
    exact .kfree s p
  | write p i v =>
    cases done
    exact .write s p i v
  | others => cases done

theorem clients_tested {P : Store → Prop} [DecidablePred P]
    (tested : (es.foldlM Store.step Store.empty).any (fun store => P store) = true) :
    ∃ store, es.foldlM Store.step Store.empty = some store ∧ P store := by
  obtain ⟨store, done, passed⟩ := (Option.any_eq_true _ _).mp tested
  exact ⟨store, done, of_decide_eq_true passed⟩

/-- A pointer that has not been returned is not in use. -/
theorem Store.unnamed {first : Store} (client : es.foldlM Store.step first = some store)
    (unused : first p = none) (unnamed : ∀ size, .kmalloc size p ∉ es) : store p = none := by
  induction es generalizing first with
  | nil =>
    obtain rfl := Option.some.inj client
    exact unused
  | cons e es ih =>
    obtain ⟨next, now, rest⟩ := Option.bind_eq_some_iff.mp client
    refine ih rest ?_ fun size later => unnamed size (List.mem_cons_of_mem e later)
    cases e with
    | kmalloc size q =>
      obtain ⟨_, ⟨⟩⟩ := Option.ite_none_right_eq_some.mp now
      have other : p ≠ q := fun same => unnamed size (same ▸ List.mem_cons_self)
      rwa [Function.update_of_ne other]
    | kfree q =>
      obtain ⟨_, ⟨⟩⟩ := Option.ite_none_right_eq_some.mp now
      by_cases same : p = q
      · rw [same, Function.update_self]
      · rwa [Function.update_of_ne same]
    | write q i v =>
      obtain ⟨data, found, rest⟩ := Option.bind_eq_some_iff.mp now
      obtain ⟨_, ⟨⟩⟩ := Option.ite_none_right_eq_some.mp rest
      have other : p ≠ q := by
        rintro rfl
        cases unused.symm.trans found
      rwa [Function.update_of_ne other]
    | others =>
      obtain rfl := Option.some.inj now
      exact unused

/-- Two clients in one block; the first gives its bytes back. -/
def shared : List Event := [.kmalloc 100 0xc0000040, .kmalloc 50 0xc00000e0, .write 0xc0000040 3 7#8,
  .write 0xc00000e0 0 9#8, .kfree 0xc0000040]

/-- It asks for fewer, and is given the same place. -/
def reused : List Event := shared ++ [.kmalloc 20 0xc0000040, .write 0xc0000040 19 5#8]

/-- Both give back what they have. -/
def emptied : List Event := reused ++ [.kfree 0xc0000040, .kfree 0xc00000e0]

theorem reused_store : ∃ store, reused.foldlM Store.step Store.empty = some store ∧
    store 0xc0000040 = some ((List.replicate 20 none).set 19 (some 5#8)) ∧
    store 0xc00000e0 = some ((List.replicate 50 none).set 0 (some 9#8)) :=
  clients_tested (by decide +kernel)

theorem emptied_store : ∃ store, emptied.foldlM Store.step Store.empty = some store ∧ ∀ p, store p = none := by
  obtain ⟨store, client, first, second⟩ : ∃ store, emptied.foldlM Store.step Store.empty = some store ∧
    store 0xc0000040 = none ∧ store 0xc00000e0 = none := clients_tested (by decide +kernel)
  refine ⟨store, client, fun p => ?_⟩
  by_cases one : p = 0xc0000040
  · exact one ▸ first
  · by_cases two : p = 0xc00000e0
    · exact two ▸ second
    · exact Store.unnamed client rfl (by simp [emptied, reused, shared, one, two])

/-! ## What holds in every run -/

/-- What a client has stored behind a pointer stays there, whatever else is allocated, freed and stored,
while every request can be served. -/
theorem heap_contents (boot : Boot base s) (run : Run (HeapStep base) s es t)
    (client : es.foldlM Store.step Store.empty = some store) {data : List (Option (BitVec 8))}
    (found : store p = some data) {i : Nat} {v : BitVec 8} (written : data[i]? = some (some v)) :
    t.heap.memory (p + i) = v := by
  obtain ⟨bs, shows'⟩ := run_shows run boot.shows client
  obtain ⟨z, _, _, _, bytes⟩ := shows'.sound p data found
  exact bytes i v written

theorem heap_contents_two : ∃ t, Run (HeapStep 0xc0000000) bootSystem reused t ∧
    t.heap.memory (0xc0000040 + 19) = 5#8 ∧ t.heap.memory (0xc00000e0 + 0) = 9#8 := by
  have tested : (reused.foldlM heapCall bootSystem).any (fun _ => True) = true := by decide +kernel
  obtain ⟨t, run, _⟩ := Run.of_tested heapCall_step tested
  obtain ⟨store, client, first, second⟩ := reused_store
  exact ⟨t, run, heap_contents bootSystem_boot run client first rfl,
    heap_contents bootSystem_boot run client second rfl⟩

/-- The pointers in use are aligned, and their bytes are on pages of the heap and apart. -/
theorem heap_placement (boot : Boot base s) (run : Run (HeapStep base) s es t)
    (client : es.foldlM Store.step Store.empty = some store) {data : List (Option (BitVec 8))}
    (found : store p = some data) : p ≠ null ∧ p % alignment = 0 ∧
      (∀ i < data.length, ∃ page, t.Owns page ∧ ∃ k < pageSize, p + i = base + page * pageSize + k) ∧
      ∀ q data', q ≠ p → store q = some data' → p + data.length ≤ q ∨ q + data'.length ≤ p := by
  obtain ⟨bs, shows'⟩ := run_shows run boot.shows client
  have held := shows'.held
  obtain ⟨z, listed, rfl, length, _⟩ := shows'.sound p data found
  obtain ⟨b, member, own⟩ := mem_minorsOf.mp listed
  have place := b.inside own
  have bounds := held.ptr_bounds listed
  refine ⟨by unfold null; omega, bounds.2.2.1, fun i less => ?_, fun q data' other found' => ?_⟩
  · exact held.byte_owned member (by omega) (by omega)
  · obtain ⟨z', listed', rfl, length', _⟩ := shows'.sound q data' found'
    have away := held.minors_apart listed listed' fun same => other (same ▸ rfl)
    have bounds' := held.ptr_bounds listed'
    omega

theorem heap_placement_two : ∃ t, Run (HeapStep 0xc0000000) bootSystem reused t ∧
    (∀ i < 20, ∃ page, t.Owns page ∧ ∃ k < pageSize, 0xc0000040 + i = 0xc0000000 + page * pageSize + k) ∧
    (0xc0000040 + 20 ≤ 0xc00000e0 ∨ 0xc00000e0 + 50 ≤ 0xc0000040) := by
  have tested : (reused.foldlM heapCall bootSystem).any (fun _ => True) = true := by decide +kernel
  obtain ⟨t, run, _⟩ := Run.of_tested heapCall_step tested
  obtain ⟨store, client, first, second⟩ := reused_store
  obtain ⟨_, _, owned, apart⟩ := heap_placement bootSystem_boot run client first
  exact ⟨t, run, owned, apart _ _ (by decide) second⟩

/-- A request for which there are pages or room is answered, with a pointer that is not in use. -/
theorem heap_serves (boot : Boot base s) (run : Run (HeapStep base) s es t)
    (client : es.foldlM Store.step Store.empty = some store) (small : size + 80 < 2 ^ 32)
    (room : t.Satisfies base size) :
    ∃ enough p h, (∀ fuel ≥ enough, t.heap.kmalloc base fuel size = some (p, h)) ∧ store p = none := by
  obtain ⟨bs, shows'⟩ := run_shows run boot.shows client
  obtain ⟨⟨p, h⟩, served, _⟩ := Heap.kmalloc_serves shows'.held small (room bs shows'.held) (Nat.le_refl (fuelFor bs))
  exact ⟨fuelFor bs, p, h, fun fuel more => Heap.kmalloc_mono more served,
    (shows'.kmalloc small room served).1⟩

theorem heap_serves_third : ∃ t store, Run (HeapStep 0xc0000000) bootSystem reused t ∧
    reused.foldlM Store.step Store.empty = some store ∧ ∃ enough p h,
      (∀ fuel ≥ enough, t.heap.kmalloc 0xc0000000 fuel 200 = some (p, h)) ∧ store p = none := by
  have tested : (reused.foldlM heapCall bootSystem).any (fun t =>
      RunAt t.heap.pages.pmm.Free t.heap.pages.pmm.totalPages
        (newPageCount (Heap.paddedSize 200)) 16) = true := by
    decide +kernel
  obtain ⟨t, run, free⟩ := Run.of_tested heapCall_step tested
  obtain ⟨store, client, _⟩ := reused_store
  have room : t.Satisfies 0xc0000000 200 := fun _ _ => .inl ⟨16, free⟩
  exact ⟨t, store, run, client, heap_serves bootSystem_boot run client (by decide) room⟩

/-- When nothing is in use, the heap has no block and all of its pages have been given back. -/
theorem heap_gives_back (boot : Boot base s) (run : Run (HeapStep base) s es t)
    (client : es.foldlM Store.step Store.empty = some store) (unused : ∀ p, store p = none) :
    t.heap.memRoot = null ∧ (∀ page, t.heap.pages.pmm.Used page ↔ t.taken page) ∧
      t.heap.inuse ≡ 0 [MOD 2 ^ 64] ∧ t.heap.pages.allocated ≡ 0 [MOD 2 ^ 64] := by
  obtain ⟨bs, shows'⟩ := run_shows run boot.shows client
  have held := shows'.held
  have none : bs = [] := by
    cases bs with
    | nil => rfl
    | cons b bs =>
      cases minors : b.minors with
      | nil => exact absurd minors (shows'.busy b List.mem_cons_self)
      | cons z zs =>
        have listed : z ∈ minorsOf (b :: bs) :=
          mem_minorsOf.mpr ⟨b, List.mem_cons_self, minors ▸ List.mem_cons_self⟩
        have used := shows'.complete z listed
        rw [unused] at used
        cases used
  subst none
  refine ⟨held.root, fun page => ?_, held.inuse, held.allocated⟩
  rw [held.used]
  simp

theorem heap_gives_back_two : ∃ t, Run (HeapStep 0xc0000000) bootSystem emptied t ∧
    t.heap.memRoot = null ∧ (∀ page, t.heap.pages.pmm.Used page ↔ t.taken page) := by
  have tested : (emptied.foldlM heapCall bootSystem).any (fun _ => True) = true := by decide +kernel
  obtain ⟨t, run, _⟩ := Run.of_tested heapCall_step tested
  obtain ⟨store, client, unused⟩ := emptied_store
  obtain ⟨root, used, _⟩ := heap_gives_back bootSystem_boot run client unused
  exact ⟨t, run, root, used⟩

theorem Shows.quiet (shows' : Shows base s store bs) (step : HeapStep base s e t)
    (client : store.step e = some store') : Quiet s.heap t.heap := by
  cases step with
  | kmalloc size fuel p h room run =>
    obtain ⟨small, ⟨⟩⟩ := Option.ite_none_right_eq_some.mp client
    obtain ⟨result, served, _, _, _, _, spec⟩ := Heap.kmalloc_serves shows'.held small (room bs shows'.held)
      (Nat.le_max_right fuel (fuelFor bs))
    obtain rfl : result = (p, h) :=
      Option.some.inj (served.symm.trans (Heap.kmalloc_mono (Nat.le_max_left fuel (fuelFor bs)) run))
    exact spec.quiet
  | kfree p =>
    obtain ⟨used, ⟨⟩⟩ := Option.ite_none_right_eq_some.mp client
    obtain ⟨data, some⟩ := Option.isSome_iff_exists.mp used
    obtain ⟨m, member, rfl, _⟩ := shows'.sound p data some
    obtain ⟨bs', freed⟩ := kfree_freed shows'.held member
    exact freed.quiet
  | write p i v => exact ⟨rfl, rfl, rfl⟩
  | others memory interrupts pmm taken same total used own => exact ⟨rfl, rfl, rfl⟩

theorem run_quiet (run : Run (HeapStep base) s es t) {first : Store} (shows' : Shows base s first bs)
    (client : es.foldlM Store.step first = some store) : Quiet s.heap t.heap := by
  induction run generalizing first bs with
  | refl s => exact ⟨rfl, rfl, rfl⟩
  | next step _ ih =>
    obtain ⟨next, now, rest⟩ := Option.bind_eq_some_iff.mp client
    obtain ⟨bs', after⟩ := shows'.step step now
    exact (shows'.quiet step now).trans (ih after rest)

/-- Clients that keep the rules never make the heap count an error, an overrun or a warning. -/
theorem heap_counts_no_error (boot : Boot base s) (run : Run (HeapStep base) s es t)
    (client : es.foldlM Store.step Store.empty = some store) :
    t.heap.errorCount = s.heap.errorCount ∧ t.heap.possibleOverruns = s.heap.possibleOverruns ∧
      t.heap.pages.warningCount = s.heap.pages.warningCount := by
  have quiet := run_quiet run boot.shows client
  exact ⟨quiet.errorCount, quiet.possibleOverruns, quiet.warningCount⟩

theorem heap_counts_no_error_two : ∃ t, Run (HeapStep 0xc0000000) bootSystem emptied t ∧
    t.heap.errorCount = 0 ∧ t.heap.possibleOverruns = 0 ∧ t.heap.pages.warningCount = 0 := by
  have tested : (emptied.foldlM heapCall bootSystem).any (fun _ => True) = true := by decide +kernel
  obtain ⟨t, run, _⟩ := Run.of_tested heapCall_step tested
  obtain ⟨store, client, _⟩ := emptied_store
  exact ⟨t, run, heap_counts_no_error bootSystem_boot run client⟩

/-- `kmalloc` only takes pages where no block has room. -/
theorem heap_reuses (boot : Boot base s) (run : Run (HeapStep base) s es t)
    (client : es.foldlM Store.step Store.empty = some store) (small : size + 80 < 2 ^ 32)
    (room : t.Satisfies base size) (served : t.heap.kmalloc base fuel size = some (p, h)) :
    ∃ bs, Held base t.taken t.heap bs ∧ ((∀ b ∈ bs, ¬ Fits b (Heap.paddedSize size)) ∨
      ∀ page, h.pages.pmm.Used page ↔ t.heap.pages.pmm.Used page) := by
  obtain ⟨bs, shows'⟩ := run_shows run boot.shows client
  have held := shows'.held
  refine ⟨bs, held, ?_⟩
  obtain ⟨result, again, bs', m, sizes, _, spec⟩ := Heap.kmalloc_serves held small (room bs held)
    (Nat.le_max_right fuel (fuelFor bs))
  obtain rfl : result = (p, h) :=
    Option.some.inj (again.symm.trans (Heap.kmalloc_mono (Nat.le_max_left fuel (fuelFor bs)) served))
  have after := spec.held.used
  cases spec.adds with
  | inside l r b xs ys gap =>
    have spans : (l ++ b.insert gap :: r).map MajorBlock.span = (l ++ b :: r).map MajorBlock.span := by
      simp only [List.map_append, List.map_cons]
      rfl
    refine .inr fun page => ?_
    have there := after page
    rw [hasPage_of_spans spans] at there
    exact there.trans (held.used page).symm
  | behind _ e gap full => exact .inl fun b member fits => full b member (sizes ▸ fits)

/-- The room between the header of the first block and its first minor. -/
theorem Held.fits_front (held : Held base taken h bs) (some : h.memRoot ≠ null)
    (busy : h.get h.memRoot majorFirst ≠ null)
    (room : h.memRoot + sizeofMajor + size + sizeofMinor ≤ h.get h.memRoot majorFirst) :
    ∃ b ∈ bs, Fits b size := by
  cases bs with
  | nil => exact absurd held.root some
  | cons b bs =>
    have root : h.memRoot = b.address := held.root
    rw [root] at busy room
    have first := (held.blocks b List.mem_cons_self).first
    cases minors : b.minors with
    | nil =>
      rw [minors] at first
      exact absurd first busy
    | cons z zs =>
      rw [minors] at first
      rw [first] at room
      exact ⟨b, List.mem_cons_self, [], z :: zs, minors, room⟩

/-- The first client's bytes are given out again. -/
theorem heap_reuses_front : ∃ t p h, Run (HeapStep 0xc0000000) bootSystem shared t ∧
    t.heap.kmalloc 0xc0000000 8 20 = some (p, h) ∧
    ∀ page, h.pages.pmm.Used page ↔ t.heap.pages.pmm.Used page := by
  have tested : (shared.foldlM heapCall bootSystem).any (fun t =>
      RunAt t.heap.pages.pmm.Free t.heap.pages.pmm.totalPages (newPageCount (Heap.paddedSize 20)) 16 ∧
      (t.heap.kmalloc 0xc0000000 8 20).isSome = true ∧ t.heap.memRoot ≠ null ∧
      t.heap.get t.heap.memRoot majorFirst ≠ null ∧
      t.heap.memRoot + sizeofMajor + Heap.paddedSize 20 + sizeofMinor ≤
        t.heap.get t.heap.memRoot majorFirst) = true := by
    decide +kernel
  obtain ⟨t, run, free, answered, some, busy, room⟩ := Run.of_tested heapCall_step tested
  obtain ⟨⟨p, h⟩, served⟩ := Option.isSome_iff_exists.mp answered
  obtain ⟨store, client, _⟩ : ∃ store, shared.foldlM Store.step Store.empty = Option.some store ∧ True :=
    clients_tested (by decide +kernel)
  obtain ⟨bs, held, full | same⟩ := heap_reuses bootSystem_boot run client (show 20 + 80 < 2 ^ 32 by decide)
    (fun _ _ => .inl ⟨16, free⟩) served
  · obtain ⟨b, member, fits⟩ := held.fits_front some busy room
    exact absurd fits (full b member)
  · exact ⟨t, p, h, run, served, same⟩

theorem lock_get (u : Heap) (p f : Nat) : u.liballocLock.get p f = u.get p f := rfl

theorem badMagic_dead {u : Heap} {min : Nat} (dead : u.get min minorMagic = liballocDead) :
    u.badMagic min = { u with errorCount := u.errorCount + 1 } := by
  rw [Heap.badMagic, dead]
  exact if_neg (by decide)

theorem unlock_counted (u : Heap) :
    ({ u.liballocLock with errorCount := u.liballocLock.errorCount + 1 } : Heap).liballocUnlock =
      { u with errorCount := u.errorCount + 1, interrupts := u.interrupts.cli.sti } := rfl

/-- A second `kfree` of the same pointer only counts an error. -/
theorem heap_double_free (boot : Boot base s) (run : Run (HeapStep base) s es t)
    (client : es.foldlM Store.step Store.empty = some store) (used : (store p).isSome) :
    ∃ interrupts, (t.heap.kfree base p).kfree base p = { t.heap.kfree base p with
      errorCount := (t.heap.kfree base p).errorCount + 1, interrupts := interrupts } := by
  obtain ⟨bs, shows'⟩ := run_shows run boot.shows client
  have held := shows'.held
  obtain ⟨data, some⟩ := Option.isSome_iff_exists.mp used
  obtain ⟨m, member, rfl, _⟩ := shows'.sound p data some
  obtain ⟨bs', freed⟩ := kfree_freed held member
  have bounds := held.ptr_bounds member
  have header : sub32 (m.address + sizeofMinor) sizeofMinor = m.address := by
    unfold sub32 u32 sizeofMinor
    omega
  obtain ⟨b, block, own⟩ := mem_minorsOf.mp member
  have room := b.padded m own
  have info := ((held.blocks b block).minors m own).info
  unfold alignment alignInfo at room
  generalize t.heap.kfree base m.ptr = u at freed ⊢
  have nonzero : m.ptr ≠ null := by
    unfold null
    omega
  obtain ⟨near, far, _⟩ := userPtr_bounds m.address
  have byte : u.memory (userPtr m.address - alignInfo) = t.heap.memory (userPtr m.address - alignInfo) := by
    refine freed.body _ ?_ ?_
    · unfold alignInfo
      omega
    · unfold alignInfo
      omega
  have aligned : u.unalign m.ptr = m.address + sizeofMinor := Heap.unalign_eq (by omega) (byte.trans info)
  have dead := (lock_get u m.address minorMagic).trans freed.magic
  have different : u.liballocLock.get m.address minorMagic ≠ liballocMagic := by
    rw [dead]
    decide
  refine ⟨u.interrupts.cli.sti, ?_⟩
  rw [Heap.kfree, if_neg nonzero, aligned]
  dsimp only
  rewrite [header, if_pos different]
  exact (congrArg Heap.liballocUnlock (badMagic_dead dead)).trans (unlock_counted u)

/-- The second client's pointer is the last in its block. -/
theorem heap_double_free_last : ∃ t, Run (HeapStep 0xc0000000) bootSystem shared t ∧ ∃ interrupts,
    (t.heap.kfree 0xc0000000 0xc00000e0).kfree 0xc0000000 0xc00000e0 = { t.heap.kfree 0xc0000000 0xc00000e0 with
      errorCount := (t.heap.kfree 0xc0000000 0xc00000e0).errorCount + 1, interrupts := interrupts } := by
  have tested : (shared.foldlM heapCall bootSystem).any (fun _ => True) = true := by decide +kernel
  obtain ⟨t, run, _⟩ := Run.of_tested heapCall_step tested
  obtain ⟨store, client, used⟩ : ∃ store, shared.foldlM Store.step Store.empty = some store ∧
    (store 0xc00000e0).isSome = true := clients_tested (by decide +kernel)
  exact ⟨t, run, heap_double_free bootSystem_boot run client used⟩

end Laomb.Liballoc
