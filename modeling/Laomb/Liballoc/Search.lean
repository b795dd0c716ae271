import Laomb.Liballoc.Fit

/-! The search of `kmalloc` through the blocks: from the best bet to the end, then from the root,
and then for a new block. -/
namespace Laomb.Liballoc
open DoublyLinked Tiling Word PMM Libc Loop

/-- Only bytes about the blocks `bs` have changed. -/
def Outside (bs : List MajorBlock) (h h' : Heap) : Prop :=
  ∀ x, (∀ b ∈ bs, ¬ b.Meta x) → h'.memory x = h.memory x

/-- No error has been counted. -/
structure Quiet (h h' : Heap) : Prop where
  errorCount : h'.errorCount = h.errorCount
  possibleOverruns : h'.possibleOverruns = h.possibleOverruns
  warningCount : h'.pages.warningCount = h.pages.warningCount

/-- The minor `m` is put into a gap of one of the blocks, or, where none has room, into a new block. -/
inductive Adds (m : Minor) : List MajorBlock → List MajorBlock → Prop where
  | inside (l r : List MajorBlock) (b : MajorBlock) (xs ys : List Minor) (gap : Gap b xs ys m) :
      Adds m (l ++ b :: r) (l ++ b.insert gap :: r)
  | behind (bs : List MajorBlock) (e : MajorBlock) (gap : Gap e [] [] m) :
      (∀ b ∈ bs, ¬ Fits b m.size) → Adds m bs (bs ++ [e.insert gap])

/-- What `kmalloc` returns, and the heap that it leaves. -/
structure Served (base : Nat) (taken : Nat → Prop) (h : Heap) (bs bs' : List MajorBlock) (m : Minor)
    (result : Nat × Heap) : Prop where
  pointer : result.1 = m.ptr
  adds : Adds m bs bs'
  held : Held base taken result.2 bs'
  outside : Outside bs' h result.2
  quiet : Quiet h result.2

/-- A request for `reqSize` bytes, padded to `size`, is served. -/
def Serves (base : Nat) (taken : Nat → Prop) (h : Heap) (bs : List MajorBlock) (size reqSize : Nat)
    (result : Nat × Heap) : Prop :=
  ∃ bs' m, m.size = size ∧ m.reqSize = reqSize ∧ Served base taken h bs bs' m result

/-- There are pages for a block, or some block has room. -/
def Possible (h : Heap) (bs : List MajorBlock) (size : Nat) : Prop :=
  Supplied h.pages.pmm size ∨ ∃ b ∈ bs, Fits b size

variable {base size reqSize fuel : Nat} {taken : Nat → Prop} {h h₁ h' : Heap} {b e : MajorBlock} {m : Minor}
    {xs ys : List Minor} {bs bs' l r : List MajorBlock} {s : Search}

/-! ## A new block -/

/-- The block is the last, and empty. -/
structure Extended (base : Nat) (taken : Nat → Prop) (h h' : Heap) (bs : List MajorBlock) (e : MajorBlock)
    (size : Nat) : Prop where
  empty : e.minors = []
  fits : FitsAt e [] [] size
  held : Held base taken h' (bs ++ [e])
  outside : Outside (bs ++ [e]) h h'
  quiet : Quiet h h'

theorem Grown.extended (held : Held base taken h bs) {start : Nat} (bound : size + 48 < 2 ^ 32)
    (grown : Grown base h h₁ start (newPageCount size))
    (hooked : Hooked h₁ h' (lastBlock bs) (base + start * pageSize)) :
    Extended base taken h h' bs (emptyBlock (base + start * pageSize) (newPageCount size) grown.positive) size := by
  obtain ⟨_, enough⟩ := newPageCount_spec bound
  refine ⟨rfl, ?_, held.append grown hooked, ?_, ?_⟩
  · change base + start * pageSize + sizeofMajor + size + sizeofMinor ≤
      base + start * pageSize + newPageCount size * pageSize
    unfold sizeofMajor sizeofMinor
    omega
  · intro x aside
    have own : x < base + start * pageSize ∨ base + start * pageSize + 24 ≤ x := by
      by_contra inside
      refine aside _ (List.mem_append_right bs (List.mem_singleton.mpr rfl)) (.inl ?_)
      change base + start * pageSize ≤ x ∧ x < base + start * pageSize + 24
      omega
    refine (hooked.others x (by omega) fun some => ?_).trans (grown.others x own)
    obtain ⟨c, member, there⟩ := lastBlock_some some
    by_contra inside
    exact aside c (List.mem_append_left _ member) (.inl (by omega))
  · exact ⟨hooked.errorCount.trans grown.errorCount, hooked.possibleOverruns.trans grown.possibleOverruns,
      (congrArg HeapState.warningCount hooked.pages).trans grown.warningCount⟩

/-- `l_memRoot = allocate_new_page(size)`. -/
theorem newRoot_extended (held : Held base taken h []) (bound : size + 48 < 2 ^ 32)
    (supplied : Supplied h.pages.pmm size) :
    ∃ e h₁, h.newPage base size = (e.address, h₁) ∧ e.address ≠ null ∧
      Extended base taken h { h₁ with memRoot := e.address } [] e size := by
  obtain ⟨start, h₁, run, grown⟩ := newPage_grown held.higher bound supplied
  have hooked : Hooked h₁ { h₁ with memRoot := base + start * pageSize } (lastBlock [])
      (base + start * pageSize) :=
    ⟨grown.prev, fun some => absurd rfl some, fun _ _ _ => rfl, (if_pos rfl).symm, rfl, rfl, rfl, rfl, rfl⟩
  have extended := grown.extended held bound hooked
  refine ⟨emptyBlock _ _ grown.positive, h₁, run, ?_, extended⟩
  exact extended.held.present (List.mem_append_right [] (List.mem_singleton.mpr rfl))

/-- `maj->next = allocate_new_page(size)`, and the link back. -/
theorem extend_extended (held : Held base taken h (l ++ [b])) (bound : size + 48 < 2 ^ 32)
    (supplied : Supplied h.pages.pmm size) :
    ∃ e h', h.extend base b.address size = (e.address, h') ∧ e.address ≠ null ∧
      Extended base taken h h' (l ++ [b]) e size := by
  obtain ⟨start, h₁, run, grown⟩ := newPage_grown held.higher bound supplied
  obtain ⟨new, here⟩ : ∃ new, new = base + start * pageSize := ⟨_, rfl⟩
  have member : b ∈ l ++ [b] := by simp
  have away := held.apart_grown grown member
  have header := b.header_fits
  have low := held.address_lt member
  have some := held.present member
  have positive := held.higher.positive
  have room := held.higher.fits
  have past := grown.fits
  have pages := grown.positive
  have fits : new + 4096 ≤ 2 ^ 32 ∧ new ≠ null ∧ 4096 ≤ newPageCount size * pageSize := by
    unfold null
    unfold pageSize at *
    omega
  rw [← here] at away run
  have atMaj : (h₁.set b.address majorNext new).get b.address majorNext = new :=
    h₁.get_set _ _ (by omega)
  have atMaj' := Heap.get_set_header (p := b.address) (q := new) (by omega) (by omega) (by omega)
  have source : h.extend base b.address size =
      (new, (h₁.set b.address majorNext new).set new majorPrev b.address) := by
    rw [Heap.extend, run]
    dsimp only
    rw [atMaj, if_neg fits.2.1, atMaj' _ _ _ _ (by decide) (by decide), atMaj]
  have hooked : Hooked h₁ ((h₁.set b.address majorNext new).set new majorPrev b.address)
      (lastBlock (l ++ [b])) (base + start * pageSize) := by
    rw [lastBlock_concat, ← here]
    refine ⟨?_, ?_, ?_, (if_neg some).symm, rfl, rfl, rfl, rfl, rfl⟩
    · exact Heap.get_set _ _ _ (by omega)
    · exact fun _ => (atMaj' _ _ _ _ (by decide) (by decide)).trans atMaj
    · intro x own last
      have next := last some
      rw [Heap.set_memory _ (by unfold majorPrev; omega) (by unfold majorPrev; omega),
        Heap.set_memory _ (by unfold majorNext; omega) (by unfold majorNext; omega)]
  have extended := grown.extended held bound hooked
  refine ⟨_, _, source.trans ?_, ?_, extended⟩
  · rw [here]
    rfl
  · exact here ▸ fits.2.1

/-! ## The header in its gap -/

theorem Outside.trans {h₂ : Heap} (first : Outside bs h h₁) (second : Outside bs' h₁ h₂)
    (more : ∀ x, (∀ b ∈ bs', ¬ b.Meta x) → ∀ b ∈ bs, ¬ b.Meta x) : Outside bs' h h₂ :=
  fun x aside => (second x aside).trans (first x (more x aside))

theorem Quiet.trans {h₂ : Heap} (first : Quiet h h₁) (second : Quiet h₁ h₂) : Quiet h h₂ :=
  ⟨second.errorCount.trans first.errorCount, second.possibleOverruns.trans first.possibleOverruns,
    second.warningCount.trans first.warningCount⟩

theorem Kept.quiet (kept : Kept h h') : Quiet h h' :=
  ⟨kept.errorCount, kept.possibleOverruns, congrArg HeapState.warningCount kept.pages⟩

theorem insert_meta (gap : Gap b xs ys m) {x : Nat} (about : b.Meta x) : (b.insert gap).Meta x := by
  rcases about with major | ⟨z, member, minor⟩
  · exact .inl major
  · refine .inr ⟨z, ?_, minor⟩
    rw [gap.split] at member
    exact List.mem_append.mpr ((List.mem_append.mp member).imp_right (List.mem_cons_of_mem m))

theorem PlacedAt.served (held : Held base taken h (l ++ b :: r)) (sized : Sized size reqSize)
    (split : b.minors = xs ++ ys) (fits : FitsAt b xs ys size) {result : Nat × Heap}
    (placed : PlacedAt h b xs ys size reqSize result) :
    Serves base taken h (l ++ b :: r) size reqSize result := by
  have gap := fits.gap split sized
  have inserted := placed.2
  refine ⟨_, newMinor b xs size reqSize, rfl, rfl, placed.1, .inside l r b xs ys gap, held.insert gap inserted, ?_,
    inserted.kept.quiet⟩
  intro x aside
  exact inserted.others.outside gap (aside _ (List.mem_append_right l List.mem_cons_self))

theorem PlacedAt.served_behind (extended : Extended base taken h h₁ bs e size) (sized : Sized size reqSize)
    (full : ∀ b ∈ bs, ¬ Fits b size) {result : Nat × Heap} (placed : PlacedAt h₁ e [] [] size reqSize result) :
    Serves base taken h bs size reqSize result := by
  have gap := extended.fits.gap extended.empty sized
  have inserted := placed.2
  refine ⟨_, newMinor e [] size reqSize, rfl, rfl, placed.1, .behind bs e gap full, extended.held.insert gap inserted,
    ?_, extended.quiet.trans inserted.kept.quiet⟩
  have second : Outside (bs ++ [e.insert gap]) h₁ result.2 := fun x aside =>
    inserted.others.outside gap (aside _ (List.mem_append_right bs (List.mem_singleton.mpr rfl)))
  refine extended.outside.trans second fun x aside b member about => ?_
  rcases List.mem_append.mp member with old | new
  · exact aside b (List.mem_append_left _ old) about
  · rw [List.mem_singleton.mp new] at about
    exact aside _ (List.mem_append_right bs (List.mem_singleton.mpr rfl)) (insert_meta gap about)

/-! ## One block after another -/

namespace Search

/-- CASE 5: on to the next block, back to the root, or to a new block. -/
def onward (base size : Nat) (s : Search) : Search ⊕ Option (Nat × Heap) :=
  if s.heap.get s.maj majorNext = null then
    if s.startedBet then .inl { s with maj := s.heap.memRoot, startedBet := false }
    else
      let (next, h) := s.heap.extend base s.maj size
      if next = null then .inr (some (null, h.liballocUnlock)) else .inl { s with heap := h, maj := next }
  else .inl { s with maj := s.heap.get s.maj majorNext }

/-- CASE 1: the same, but that the search goes on in the new block at once. -/
def caseOne (base fuel size reqSize : Nat) (s : Search) : Search ⊕ Option (Nat × Heap) :=
  if s.heap.get s.maj majorNext ≠ null then .inl { s with maj := s.heap.get s.maj majorNext }
  else if s.startedBet then .inl { s with maj := s.heap.memRoot, startedBet := false }
  else
    let (next, h) := s.heap.extend base s.maj size
    if next = null then .inr (some (null, h.liballocUnlock))
    else place base fuel size reqSize { s with heap := h, maj := next }

/-- The block, with `diff` bytes free, becomes the best bet if that is more than before. -/
def remember (diff : Nat) (s : Search) : Search :=
  if s.bestSize < diff then { s with heap := { s.heap with bestBet := s.maj }, bestSize := diff } else s

theorem majorStep_eq (base fuel size reqSize : Nat) (s : Search) (nonzero : s.maj ≠ null) {diff : Nat}
    (free : sub32 (s.heap.get s.maj majorSize) (s.heap.get s.maj majorUsage) = diff) :
    s.majorStep base fuel size reqSize =
      if diff < u32 (size + sizeofMinor) then (s.remember diff).caseOne base fuel size reqSize
      else (s.remember diff).place base fuel size reqSize := by
  rw [majorStep, if_neg nonzero, free]
  generalize u32 (size + sizeofMinor) = padded
  rw [caseOne, remember]

variable (base fuel) in
/-- In a block with enough free bytes: a gap is taken, or none has room and the search goes on. -/
theorem place_placed (held : BlockHeld s.heap b) (stop : b.stop ≤ 2 ^ 32)
    (sized : Sized size reqSize) (here : s.maj = b.address) (room : size + sizeofMinor ≤ spare b)
    (enough : b.minors.length + 2 ≤ fuel) :
    (∃ zs ws result, b.minors = zs ++ ws ∧ FitsAt b zs ws size ∧
        s.place base fuel size reqSize = .inr (some result) ∧ PlacedAt s.heap b zs ws size reqSize result) ∨
      (¬ Fits b size ∧ s.place base fuel size reqSize = s.onward base size) := by
  have first := held.first
  cases minors : b.minors with
  | nil =>
    have fits : FitsAt b [] [] size := by
      change b.address + sizeofMajor + size + sizeofMinor ≤ b.stop
      rw [spare, minors] at room
      unfold MajorBlock.stop
      simp only [List.map_nil, List.sum_nil] at room
      unfold sizeofMinor sizeofMajor at *
      omega
    refine .inl ⟨[], [], s.heap.firstMinor b.address size reqSize, rfl, fits, ?_,
      firstMinor_placed stop sized minors fits⟩
    have none : s.heap.get b.address majorFirst = null := by
      rw [first, minors]
      rfl
    rw [place, here, if_pos none]
  | cons m ys =>
    have start : s.heap.get b.address majorFirst = m.address := by
      rw [first, minors]
      rfl
    have nonzero : s.heap.get b.address majorFirst ≠ null := by
      have place := b.inside (m := m) (by rw [minors]; exact List.mem_cons_self)
      rw [start]
      unfold null
      omega
    have front := front_iff held stop sized (by rw [minors]; exact List.cons_ne_nil m ys)
    by_cases fits : FitsAt b [] b.minors size
    · refine .inl ⟨[], m :: ys, s.heap.frontMinor b.address size reqSize, rfl, minors ▸ fits, ?_, ?_⟩
      · rw [place, here, if_neg nonzero, if_pos (front.mpr fits)]
      · have placed := frontMinor_placed held stop sized (by rw [minors]; exact List.cons_ne_nil m ys) fits
        rwa [minors] at placed
    · obtain ⟨found, run, searched⟩ := minors_searched fuel held stop sized
        (show b.minors = [] ++ m :: ys from minors)
        (by rw [minors, List.length_cons] at enough; omega)
      have tight : ¬ sub32 (sub32 (s.heap.get b.address majorFirst) b.address) sizeofMajor ≥
          u32 (size + sizeofMinor) := fun big => fits (front.mp big)
      cases searched with
      | found zs ws result split room placed =>
        refine .inl ⟨zs, ws, result, minors ▸ split, room, ?_, placed⟩
        rw [place, here, if_neg nonzero, if_neg tight, start, run]
      | full rest =>
        refine .inr ⟨?_, ?_⟩
        · rintro ⟨zs, ws, split, room⟩
          cases zs with
          | nil =>
            rw [List.nil_append] at split
            exact fits (split ▸ room)
          | cons z zs =>
            rw [minors] at split
            obtain ⟨rfl, tail⟩ := List.cons.inj split
            exact rest (m :: zs) ws ⟨zs, tail, rfl⟩ room
        · rw [place, onward, here, if_neg nonzero, if_neg tight, start, run]

theorem remember_cases (s : Search) (diff : Nat) : s.remember diff = s ∨
    s.remember diff = { s with heap := { s.heap with bestBet := s.maj }, bestSize := diff } := by
  rw [remember]
  split
  · exact .inr rfl
  · exact .inl rfl

theorem remember_maj (s : Search) (diff : Nat) : (s.remember diff).maj = s.maj := by
  rcases s.remember_cases diff with same | same <;> rw [same]

theorem remember_startedBet (s : Search) (diff : Nat) : (s.remember diff).startedBet = s.startedBet := by
  rcases s.remember_cases diff with same | same <;> rw [same]

theorem remember_pages (s : Search) (diff : Nat) : (s.remember diff).heap.pages = s.heap.pages := by
  rcases s.remember_cases diff with same | same <;> rw [same]

theorem remember_held (held : Held base taken s.heap bs) (member : b ∈ bs) (here : s.maj = b.address)
    (diff : Nat) : Held base taken (s.remember diff).heap bs := by
  rcases s.remember_cases diff with same | same <;> rw [same]
  · exact held
  · rw [here]
    exact held.setBest member

/-- The best bet is no part of what has been served. -/
theorem remember_serves {diff : Nat} {result : Nat × Heap}
    (serves : Serves base taken (s.remember diff).heap bs size reqSize result) :
    Serves base taken s.heap bs size reqSize result := by
  rcases s.remember_cases diff with same | same <;> rw [same] at serves
  · exact serves
  · obtain ⟨bs', m, sizes, requested, served⟩ := serves
    have quiet := served.quiet
    exact ⟨bs', m, sizes, requested, served.pointer, served.adds, served.held, served.outside,
      quiet.errorCount, quiet.possibleOverruns, quiet.warningCount⟩

variable (fuel) in
/-- The new block is empty and large enough. -/
theorem extended_placed (extended : Extended base taken h s.heap bs e size) (sized : Sized size reqSize)
    (here : s.maj = e.address) (full : ∀ b ∈ bs, ¬ Fits b size) (enough : 2 ≤ fuel) :
    ∃ result, s.place base fuel size reqSize = .inr (some result) ∧
      Serves base taken h bs size reqSize result := by
  have member : e ∈ bs ++ [e] := List.mem_append_right bs (List.mem_singleton.mpr rfl)
  have fits : Fits e size := ⟨[], [], extended.empty, extended.fits⟩
  rcases place_placed base fuel (extended.held.blocks e member) (extended.held.stop_le member)
    sized here fits.spare (by rw [extended.empty]; exact enough) with
    ⟨zs, ws, result, split, room, step, placed⟩ | ⟨tight, _⟩
  · obtain ⟨rfl, rfl⟩ := List.append_eq_nil_iff.mp (split.symm.trans extended.empty)
    exact ⟨result, step, placed.served_behind extended sized full⟩
  · exact absurd fits tight

theorem remember_extended (extended : Extended base taken h s.heap bs e size) (here : s.maj = e.address)
    (diff : Nat) : Extended base taken h (s.remember diff).heap bs e size := by
  have held := remember_held extended.held (List.mem_append_right bs (List.mem_singleton.mpr rfl)) here diff
  have quiet := extended.quiet
  rcases s.remember_cases diff with same | same <;> rw [same] at held ⊢
  · exact extended
  · exact ⟨extended.empty, extended.fits, held, extended.outside, quiet.errorCount, quiet.possibleOverruns,
      quiet.warningCount⟩

/-- `size + sizeof(struct liballoc_minor)` does not wrap around. -/
theorem padded_eq (sized : Sized size reqSize) : u32 (size + sizeofMinor) = size + sizeofMinor := by
  have bound := sized.bound
  exact u32_of_lt (by unfold sizeofMinor; omega)

variable (fuel) in
/-- At the last block, with nothing that has room: a new block, now or at the next step. -/
theorem extends_served (held : Held base taken s.heap (l ++ [b])) (sized : Sized size reqSize)
    (here : s.maj = b.address) (started : s.startedBet = false) (full : ∀ c ∈ l ++ [b], ¬ Fits c size)
    (supplied : Supplied s.heap.pages.pmm size) (enough : 2 ≤ fuel) :
    (∃ result, s.caseOne base fuel size reqSize = .inr (some result) ∧
        Serves base taken s.heap (l ++ [b]) size reqSize result) ∧
      ∃ t result, s.onward base size = .inl t ∧ t.majorStep base fuel size reqSize = .inr (some result) ∧
        Serves base taken s.heap (l ++ [b]) size reqSize result := by
  obtain ⟨e, h', run, nonzero, extended⟩ := extend_extended held sized.bound supplied
  have linked := held.linked
  rw [List.map_append, List.map_singleton] at linked
  have next : s.heap.get b.address majorNext = null := linked.at_split.2
  have member : e ∈ l ++ [b] ++ [e] := List.mem_append_right _ (List.mem_singleton.mpr rfl)
  obtain ⟨t, there⟩ : ∃ t : Search, t = { s with heap := h', maj := e.address } := ⟨_, rfl⟩
  have heap : t.heap = h' := by rw [there]
  have maj : t.maj = e.address := by rw [there]
  constructor
  · obtain ⟨result, step, serves⟩ := extended_placed fuel (heap ▸ extended) sized maj full enough
    refine ⟨result, ?_, serves⟩
    rw [caseOne, here, if_neg (not_not.mpr next), started, if_neg Bool.false_ne_true, run]
    dsimp only
    rw [if_neg nonzero, ← started, ← there, step]
  · have fits : Fits e size := ⟨[], [], extended.empty, extended.fits⟩
    have diff := (extended.held.blocks e member).spare (extended.held.stop_le member) (extended.held.present member)
    rw [← heap, ← maj] at diff
    have enlarged := remember_extended (heap ▸ extended) maj (spare e)
    obtain ⟨result, step, serves⟩ := extended_placed fuel enlarged sized
      ((t.remember_maj _).trans maj) full enough
    refine ⟨t, result, ?_, ?_, serves⟩
    · rw [onward, here, if_pos next, started, if_neg Bool.false_ne_true, run]
      dsimp only
      rw [if_neg nonzero, ← started, ← there]
    · rw [majorStep_eq base fuel size reqSize t (maj ▸ nonzero) diff, padded_eq sized,
        if_neg (Nat.not_lt.mpr fits.spare), step]

variable (fuel) in
/-- At any block: the request is served, or the block has no room and the search goes on. -/
theorem majorStep_at (held : Held base taken s.heap (l ++ b :: r)) (sized : Sized size reqSize)
    (here : s.maj = b.address) (enough : b.minors.length + 2 ≤ fuel) :
    (∃ result, s.majorStep base fuel size reqSize = .inr (some result) ∧
        Serves base taken s.heap (l ++ b :: r) size reqSize result) ∨
      (¬ Fits b size ∧
        (s.majorStep base fuel size reqSize = (s.remember (spare b)).caseOne base fuel size reqSize ∨
          s.majorStep base fuel size reqSize = (s.remember (spare b)).onward base size)) := by
  have member : b ∈ l ++ b :: r := List.mem_append_right l List.mem_cons_self
  have stop := held.stop_le member
  have present := held.present member
  have diff := (held.blocks b member).spare stop present
  rw [← here] at diff
  have step := majorStep_eq base fuel size reqSize s (here ▸ present) diff
  rw [padded_eq sized] at step
  have kept := remember_held held member here (spare b)
  by_cases room : spare b < size + sizeofMinor
  · rw [if_pos room] at step
    exact .inr ⟨fun fits => absurd fits.spare (Nat.not_le.mpr room), .inl step⟩
  · rw [if_neg room] at step
    rcases place_placed base fuel (kept.blocks b member) stop sized
      ((s.remember_maj _).trans here) (Nat.not_lt.mp room) enough with
      ⟨zs, ws, result, split, fits, placed, header⟩ | ⟨tight, onwards⟩
    · exact .inl ⟨result, step.trans placed, remember_serves (header.served kept sized split fits)⟩
    · exact .inr ⟨tight, .inr (step.trans onwards)⟩

variable (size reqSize fuel) in
/-- On to the next block. -/
theorem moves_next (held : Held base taken s.heap (l ++ b :: e :: r)) (here : s.maj = b.address) :
    s.caseOne base fuel size reqSize = .inl { s with maj := e.address } ∧
      s.onward base size = .inl { s with maj := e.address } := by
  have linked := held.linked
  rw [List.map_append, List.map_cons] at linked
  have next : s.heap.get b.address majorNext = e.address := linked.at_split.2
  have present : e.address ≠ null := held.present (by simp)
  rw [caseOne, onward, here, next, if_pos present, if_neg present]
  exact ⟨rfl, rfl⟩

variable (size reqSize fuel) in
/-- Back to the root. -/
theorem moves_root (held : Held base taken s.heap (l ++ [b])) (here : s.maj = b.address)
    (started : s.startedBet = true) :
    s.caseOne base fuel size reqSize = .inl { s with maj := s.heap.memRoot, startedBet := false } ∧
      s.onward base size = .inl { s with maj := s.heap.memRoot, startedBet := false } := by
  have linked := held.linked
  rw [List.map_append, List.map_singleton] at linked
  have next : s.heap.get b.address majorNext = null := linked.at_split.2
  rw [caseOne, onward, here, next, if_neg (not_not.mpr rfl), if_pos rfl, started, if_pos rfl]
  exact ⟨rfl, rfl⟩

variable (fuel) in
/-- The search from the root: every block behind has no room. -/
theorem root_serves (held : Held base taken s.heap (l ++ b :: r)) (sized : Sized size reqSize)
    (here : s.maj = b.address) (started : s.startedBet = false) (behind : ∀ c ∈ l, ¬ Fits c size)
    (possible : Possible s.heap (l ++ b :: r) size) (enough : ∀ c ∈ l ++ b :: r, c.minors.length + 2 ≤ fuel) :
    ∃ k ≤ r.length + 2, ∃ result, loop (majorStep base fuel size reqSize) k s = some (some result) ∧
      Serves base taken s.heap (l ++ b :: r) size reqSize result := by
  induction r generalizing l b s with
  | nil =>
    have member : b ∈ l ++ [b] := List.mem_append_right l List.mem_cons_self
    have room := enough b member
    rcases majorStep_at fuel held sized here room with ⟨result, step, serves⟩ | ⟨tight, steps⟩
    · exact ⟨1, by simp, result, loop_inr step, serves⟩
    have full : ∀ c ∈ l ++ [b], ¬ Fits c size := by
      intro c member
      rcases List.mem_append.mp member with left | last
      · exact behind c left
      · exact List.mem_singleton.mp last ▸ tight
    have supplied : Supplied (s.remember (spare b)).heap.pages.pmm size := by
      rw [remember_pages]
      exact possible.resolve_right fun ⟨c, member, fits⟩ => full c member fits
    obtain ⟨⟨result, now, serves⟩, t, result', next, step', serves'⟩ :=
      extends_served fuel (remember_held held member here (spare b)) sized
        ((s.remember_maj _).trans here) ((s.remember_startedBet _).trans started) full supplied (by omega)
    rcases steps with step | step
    · exact ⟨1, by simp, result, loop_inr (step.trans now), remember_serves serves⟩
    · exact ⟨2, by simp, result', (loop_inl (step.trans next)).trans (loop_inr step'), remember_serves serves'⟩
  | cons e r ih =>
    have member : b ∈ l ++ b :: e :: r := List.mem_append_right l List.mem_cons_self
    have room := enough b member
    rcases majorStep_at fuel held sized here room with ⟨result, step, serves⟩ | ⟨tight, steps⟩
    · exact ⟨1, by omega, result, loop_inr step, serves⟩
    have kept := remember_held held member here (spare b)
    obtain ⟨case₁, case₅⟩ := moves_next size reqSize fuel kept
      ((s.remember_maj _).trans here)
    have step : s.majorStep base fuel size reqSize = .inl { s.remember (spare b) with maj := e.address } :=
      steps.elim (fun step => step.trans case₁) fun step => step.trans case₅
    have regroup : l ++ b :: e :: r = (l ++ [b]) ++ e :: r := by rw [List.append_assoc, List.singleton_append]
    rw [regroup] at kept enough possible
    have behind' : ∀ c ∈ l ++ [b], ¬ Fits c size := by
      intro c member
      rcases List.mem_append.mp member with left | last
      · exact behind c left
      · exact List.mem_singleton.mp last ▸ tight
    obtain ⟨k, bound, result, run, serves⟩ := ih (s := { s.remember (spare b) with maj := e.address }) kept rfl
      ((s.remember_startedBet _).trans started) behind'
      (possible.imp_left fun supplied => by rw [remember_pages]; exact supplied) enough
    refine ⟨k + 1, by rw [List.length_cons]; omega, result, (loop_inl step).trans run, ?_⟩
    rw [regroup]
    exact remember_serves serves

theorem remember_possible {diff : Nat} (possible : Possible s.heap bs size) :
    Possible (s.remember diff).heap bs size :=
  possible.imp_left fun supplied => by rw [remember_pages]; exact supplied

/-- The search from the best bet: behind the last block it starts again from the root. -/
theorem bet_serves (held : Held base taken s.heap bs) (sized : Sized size reqSize) (split : bs = l ++ b :: r)
    (here : s.maj = b.address) (started : s.startedBet = true) (possible : Possible s.heap bs size)
    (enough : ∀ c ∈ bs, c.minors.length + 2 ≤ fuel) :
    ∃ k ≤ r.length + bs.length + 2, ∃ result, loop (majorStep base fuel size reqSize) k s = some (some result) ∧
      Serves base taken s.heap bs size reqSize result := by
  induction r generalizing l b s with
  | nil =>
    have member : b ∈ bs := split ▸ List.mem_append_right l List.mem_cons_self
    rcases majorStep_at fuel (split ▸ held) sized here (enough b member) with
      ⟨result, step, serves⟩ | ⟨_, steps⟩
    · exact ⟨1, by omega, result, loop_inr step, split ▸ serves⟩
    have kept := remember_held held member here (spare b)
    obtain ⟨case₁, case₅⟩ := moves_root size reqSize fuel
      (split ▸ kept) ((s.remember_maj _).trans here) ((s.remember_startedBet _).trans started)
    have step := steps.elim (fun step => step.trans case₁) fun step => step.trans case₅
    cases bs with
    | nil => exact absurd member List.not_mem_nil
    | cons c cs =>
      obtain ⟨k, bound, result, run, serves⟩ := root_serves fuel (l := []) (b := c) (r := cs)
        (s := { s.remember (spare b) with maj := (s.remember (spare b)).heap.memRoot, startedBet := false })
        kept sized kept.root rfl (fun _ member => absurd member List.not_mem_nil)
        (remember_possible possible) enough
      exact ⟨k + 1, by simp; omega, result, (loop_inl step).trans run, remember_serves serves⟩
  | cons e r ih =>
    have member : b ∈ bs := split ▸ List.mem_append_right l List.mem_cons_self
    rcases majorStep_at fuel (split ▸ held) sized here (enough b member) with
      ⟨result, step, serves⟩ | ⟨_, steps⟩
    · exact ⟨1, by omega, result, loop_inr step, split ▸ serves⟩
    have kept := remember_held held member here (spare b)
    obtain ⟨case₁, case₅⟩ := moves_next size reqSize fuel
      (split ▸ kept) ((s.remember_maj _).trans here)
    have step : s.majorStep base fuel size reqSize = .inl { s.remember (spare b) with maj := e.address } :=
      steps.elim (fun step => step.trans case₁) fun step => step.trans case₅
    obtain ⟨k, bound, result, run, serves⟩ := ih (s := { s.remember (spare b) with maj := e.address }) kept
      (l := l ++ [b]) (by rw [split, List.append_assoc, List.singleton_append]) rfl
      ((s.remember_startedBet _).trans started) (remember_possible possible)
    exact ⟨k + 1, by rw [List.length_cons]; omega, result, (loop_inl step).trans run, remember_serves serves⟩

end Search

end Laomb.Liballoc
