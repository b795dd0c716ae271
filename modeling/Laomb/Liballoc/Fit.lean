import Laomb.Liballoc.Grow

/-! The search of `kmalloc` inside of one block. -/
namespace Laomb.Liballoc
open DoublyLinked Tiling Word PMM Libc Loop

/-- Between the minors `xs` and `ys` there are `size` bytes and a header free. -/
def FitsAt (b : MajorBlock) (xs ys : List Minor) (size : Nat) : Prop :=
  reach Minor.address Minor.extent (b.address + sizeofMajor) xs + size + sizeofMinor ≤
    ahead Minor.address ys b.stop

/-- Some gap of the block has room. -/
def Fits (b : MajorBlock) (size : Nat) : Prop := ∃ xs ys, b.minors = xs ++ ys ∧ FitsAt b xs ys size

/-- The minor that `kmalloc` puts behind `xs`. -/
def newMinor (b : MajorBlock) (xs : List Minor) (size reqSize : Nat) : Minor :=
  ⟨reach Minor.address Minor.extent (b.address + sizeofMajor) xs, size, reqSize⟩

/-- What `kmalloc` has computed from the size that it was asked for. -/
structure Sized (size reqSize : Nat) : Prop where
  padded : reqSize + (alignment + alignInfo) ≤ size
  bound : size + 48 < 2 ^ 32

variable {base size reqSize fuel : Nat} {h h' : Heap} {b : MajorBlock} {m : Minor} {xs ys : List Minor}

theorem FitsAt.high (fits : FitsAt b xs ys size) : (newMinor b xs size reqSize).address +
    (newMinor b xs size reqSize).extent ≤ ahead Minor.address ys b.stop := by
  change reach Minor.address Minor.extent (b.address + sizeofMajor) xs + (size + sizeofMinor) ≤ _
  unfold FitsAt at fits
  omega

theorem FitsAt.gap (fits : FitsAt b xs ys size) (split : b.minors = xs ++ ys) (sized : Sized size reqSize) :
    Gap b xs ys (newMinor b xs size reqSize) where
  split := split
  low := Nat.le_refl _
  high := fits.high
  padded := sized.padded

/-- The bytes of a block that are not in use. -/
def spare (b : MajorBlock) : Nat := b.pages * pageSize - (sizeofMajor + (b.minors.map Minor.extent).sum)

theorem Fits.spare (fits : Fits b size) : size + sizeofMinor ≤ Liballoc.spare b := by
  obtain ⟨xs, ys, split, room⟩ := fits
  have tiled := Tiled.insert (a := newMinor b xs size 0) (split ▸ b.tiled) (Nat.le_refl _) room.high
  have total := tiled.sum_le
  have long : (newMinor b xs size 0).extent = size + sizeofMinor := rfl
  rw [List.map_append, List.map_cons, List.sum_append, List.sum_cons, long] at total
  rw [Liballoc.spare, split, List.map_append, List.sum_append]
  unfold MajorBlock.stop at total
  omega

/-- What a block shows of its free bytes. -/
theorem BlockHeld.spare (held : BlockHeld h b) (fits : b.stop ≤ 2 ^ 32) (present : b.address ≠ null) :
    sub32 (h.get b.address majorSize) (h.get b.address majorUsage) = Liballoc.spare b := by
  have total := b.tiled.sum_le
  rw [held.size, held.usage]
  unfold Liballoc.spare sub32 u32
  unfold MajorBlock.stop null at *
  omega

/-- What lies behind the minor `m`. -/
theorem reach_concat (xs : List Minor) (m : Minor) (start : Nat) :
    reach Minor.address Minor.extent start (xs ++ [m]) = m.address + m.extent := by
  induction xs generalizing start with
  | nil => rfl
  | cons a xs ih => exact ih _

/-- What lies free behind the minor `m`. -/
theorem BlockHeld.gap (held : BlockHeld h b) (fits : b.stop ≤ 2 ^ 32) (member : m ∈ b.minors) (stop : Nat)
    (past : m.address + m.size + 24 ≤ stop) (inside : stop ≤ b.stop) :
    h.gap m.address (u32 stop) = stop - (m.address + m.size + 24) := by
  have place := b.inside member
  unfold Heap.gap
  rw [(held.minors m member).sized]
  unfold sub32 u32 sizeofMinor
  omega

/-- The header that `kmalloc` writes between `xs` and `ys`, and the pointer that it returns. -/
def PlacedAt (h : Heap) (b : MajorBlock) (xs ys : List Minor) (size reqSize : Nat) (result : Nat × Heap) : Prop :=
  result.1 = (newMinor b xs size reqSize).ptr ∧ Inserted h result.2 b.address (lastAddress xs)
    (newMinor b xs size reqSize).address (headAddress ys) size reqSize

/-- At a minor of the block: the gap behind it is taken, or the search goes on to the next. -/
theorem minorStep_at (held : BlockHeld h b) (stop : b.stop ≤ 2 ^ 32) (sized : Sized size reqSize)
    (split : b.minors = xs ++ m :: ys) :
    (FitsAt b (xs ++ [m]) ys size ∧ ∃ result, h.minorStep b.address size reqSize m.address =
        .inr (some result) ∧ PlacedAt h b (xs ++ [m]) ys size reqSize result) ∨
      (¬ FitsAt b (xs ++ [m]) ys size ∧
        h.minorStep b.address size reqSize m.address = .inl (headAddress ys)) := by
  have member : m ∈ b.minors := split ▸ List.mem_append_right xs List.mem_cons_self
  have place := b.inside member
  have linked := held.linked
  rw [split, List.map_append, List.map_cons] at linked
  have next : h.get m.address minorNext = headAddress ys := linked.at_split.2
  have own := (held.minors m member).sized
  have regroup : b.minors = (xs ++ [m]) ++ ys := by rw [split, List.append_assoc, List.singleton_append]
  have some : m.address ≠ null := by
    unfold null
    omega
  have whole : u32 (size + sizeofMinor) = size + 24 := u32_of_lt (by have := sized.bound; unfold sizeofMinor; omega)
  have reached : (newMinor b (xs ++ [m]) size reqSize).address = m.address + sizeofMinor + m.size := by
    change reach _ _ _ _ = _
    rw [reach_concat]
    unfold Minor.extent
    omega
  have behind : FitsAt b (xs ++ [m]) ys size ↔
      size + 24 ≤ ahead Minor.address ys b.stop - (m.address + m.size + 24) := by
    unfold FitsAt
    rw [reach_concat]
    unfold Minor.extent sizeofMinor
    omega
  have last : lastAddress (xs ++ [m]) = m.address := lastAddress_concat xs m
  have req : reqSize < 2 ^ 32 := by
    have padded := sized.padded
    have bound := sized.bound
    omega
  have sizeBound : size < 2 ^ 32 := by
    have bound := sized.bound
    omega
  cases ys with
  | nil =>
    have gap : h.gap m.address (u32 (b.address + h.get b.address majorSize)) =
        b.stop - (m.address + m.size + 24) := by
      rw [held.size]
      exact held.gap stop member b.stop (by omega) (Nat.le_refl _)
    by_cases fits : FitsAt b (xs ++ [m]) [] size
    · have room := (fits.gap regroup sized).room stop
      rw [last] at room
      obtain ⟨h', run, inserted⟩ := lastMinor_inserted b.address m.address h
        (reached.trans (by rw [own])) room some sizeBound req
      refine .inl ⟨fits, ((newMinor b (xs ++ [m]) size reqSize).ptr, h'), ?_, rfl, last.symm ▸ inserted⟩
      have big : h.gap m.address (u32 (b.address + h.get b.address majorSize)) ≥ u32 (size + sizeofMinor) := by
        rw [gap, whole]
        exact behind.mp fits
      rw [Heap.minorStep, if_neg some, if_pos ⟨next, big⟩, run]
      rfl
    · refine .inr ⟨fits, ?_⟩
      rw [Heap.minorStep, if_neg some, if_neg, if_neg, next]
      · exact fun both => both.1 next
      · rintro ⟨_, big⟩
        rw [gap, whole] at big
        exact fits (behind.mpr big)
  | cons c ys =>
    have listed : c ∈ b.minors := by
      rw [split]
      simp
    have far := b.inside listed
    have here : headAddress (c :: ys) = c.address := rfl
    have some' : headAddress (c :: ys) ≠ null := by
      rw [here]
      unfold null
      omega
    have order := b.tiled.pairwise
    rw [split] at order
    have past := (List.pairwise_cons.mp (List.pairwise_append.mp order).2.1).1 c List.mem_cons_self
    have gap : h.gap m.address (h.get m.address minorNext) = c.address - (m.address + m.size + 24) := by
      have small : u32 c.address = c.address := u32_of_lt (by omega)
      rw [next, here, ← held.gap stop member c.address (by unfold Minor.extent sizeofMinor at past; omega)
        (by omega), small]
    by_cases fits : FitsAt b (xs ++ [m]) (c :: ys) size
    · have room := (fits.gap regroup sized).room stop
      rw [last] at room
      obtain ⟨h', run, inserted⟩ := betweenMinors_inserted b.address m.address h
        (reached.trans (by rw [own])) next room some some' sizeBound req
      refine .inl ⟨fits, ((newMinor b (xs ++ [m]) size reqSize).ptr, h'), ?_, rfl, last.symm ▸ inserted⟩
      have big : h.gap m.address (h.get m.address minorNext) ≥ u32 (size + sizeofMinor) := by
        rw [gap, whole]
        exact behind.mp fits
      rw [Heap.minorStep, if_neg some, if_neg (fun both => some' (next ▸ both.1)),
        if_pos ⟨fun none => some' (next ▸ none), big⟩, run]
      rfl
    · refine .inr ⟨fits, ?_⟩
      rw [Heap.minorStep, if_neg some, if_neg (fun both => some' (next ▸ both.1)), if_neg, next]
      rintro ⟨_, big⟩
      rw [gap, whole] at big
      exact fits (behind.mpr big)

/-- A gap was found and taken, or there is none with room. -/
inductive Searched (h : Heap) (b : MajorBlock) (size reqSize : Nat) (rooms : List Minor → List Minor → Prop) :
    Option (Nat × Heap) → Prop where
  | found (zs ws : List Minor) (result : Nat × Heap) : b.minors = zs ++ ws → FitsAt b zs ws size →
      PlacedAt h b zs ws size reqSize result → Searched h b size reqSize rooms (some result)
  | full : (∀ zs ws, rooms zs ws → ¬ FitsAt b zs ws size) → Searched h b size reqSize rooms none

variable (fuel) in
/-- The loop from the minor `m` looks at the gaps behind it. -/
theorem minors_searched (held : BlockHeld h b) (stop : b.stop ≤ 2 ^ 32)
    (sized : Sized size reqSize) (split : b.minors = xs ++ m :: ys) (enough : ys.length + 2 ≤ fuel) :
    ∃ found, loop (h.minorStep b.address size reqSize) fuel m.address = some found ∧
      Searched h b size reqSize (fun zs ws => ∃ us, ys = us ++ ws ∧ zs = xs ++ m :: us) found := by
  induction ys generalizing xs m fuel with
  | nil =>
    obtain ⟨fuel, rfl⟩ := Nat.exists_eq_add_of_le' enough
    rcases minorStep_at held stop sized split with ⟨fits, result, step, placed⟩ | ⟨tight, step⟩
    · exact ⟨_, loop_inr step, .found _ _ result (by rw [split, List.append_nil]) fits placed⟩
    · refine ⟨none, (loop_inl step).trans (loop_inr ?_), .full ?_⟩
      · rw [headAddress, List.map_nil, List.headD_nil, Heap.minorStep, if_pos rfl]
      · rintro zs ws ⟨us, none, rfl⟩
        obtain ⟨rfl, rfl⟩ := List.append_eq_nil_iff.mp none.symm
        exact tight
  | cons c ys ih =>
    obtain ⟨fuel, rfl⟩ := Nat.exists_eq_add_of_le' (show 1 ≤ fuel by omega)
    have regroup : b.minors = (xs ++ [m]) ++ c :: ys := by rw [split, List.append_assoc, List.singleton_append]
    rcases minorStep_at held stop sized split with ⟨fits, result, step, placed⟩ | ⟨tight, step⟩
    · exact ⟨_, loop_inr step, .found _ _ result regroup fits placed⟩
    · obtain ⟨found, run, searched⟩ := ih fuel regroup
        (by rw [List.length_cons] at enough; omega)
      refine ⟨found, (loop_inl step).trans run, ?_⟩
      cases searched with
      | found zs ws result split' fits placed => exact .found zs ws result split' fits placed
      | full rest =>
        refine .full ?_
        rintro zs ws ⟨us, same, rfl⟩
        cases us with
        | nil =>
          rw [List.nil_append] at same
          exact same ▸ tight
        | cons u us =>
          obtain ⟨rfl, tail⟩ := List.cons.inj same
          have other := rest (xs ++ [m] ++ c :: us) ws ⟨us, tail, rfl⟩
          rwa [List.append_assoc, List.singleton_append] at other

/-! ## The front of the block -/

theorem frontMinor_placed (held : BlockHeld h b) (stop : b.stop ≤ 2 ^ 32) (sized : Sized size reqSize)
    (nonempty : b.minors ≠ []) (fits : FitsAt b [] b.minors size) :
    PlacedAt h b [] b.minors size reqSize (h.frontMinor b.address size reqSize) := by
  have first : h.get b.address majorFirst = headAddress b.minors := held.first
  have some : headAddress b.minors ≠ null := by
    obtain ⟨c, member, there⟩ := headAddress_mem nonempty
    have place := b.inside member
    unfold null
    omega
  have bounds := sized.bound
  have padded := sized.padded
  obtain ⟨h', run, inserted⟩ := frontMinor_inserted b.address
    (newMinor b [] size reqSize).address h rfl first ((fits.gap rfl sized).room stop) some
    (show size < 2 ^ 32 by omega) (show reqSize < 2 ^ 32 by omega)
  rw [run]
  exact ⟨rfl, inserted⟩

theorem firstMinor_placed (stop : b.stop ≤ 2 ^ 32) (sized : Sized size reqSize)
    (empty : b.minors = []) (fits : FitsAt b [] [] size) :
    PlacedAt h b [] [] size reqSize (h.firstMinor b.address size reqSize) := by
  have bounds := sized.bound
  have padded := sized.padded
  obtain ⟨h', run, inserted⟩ := firstMinor_inserted b.address
    (newMinor b [] size reqSize).address h rfl ((fits.gap empty sized).room stop)
    (show size < 2 ^ 32 by omega) (show reqSize < 2 ^ 32 by omega)
  rw [run]
  exact ⟨rfl, inserted⟩

/-- The free bytes in front of the first minor. -/
theorem front_iff (held : BlockHeld h b) (stop : b.stop ≤ 2 ^ 32) (sized : Sized size reqSize)
    (nonempty : b.minors ≠ []) :
    sub32 (sub32 (h.get b.address majorFirst) b.address) sizeofMajor ≥ u32 (size + sizeofMinor) ↔
      FitsAt b [] b.minors size := by
  have bounds := sized.bound
  cases minors : b.minors with
  | nil => exact absurd minors nonempty
  | cons c ys =>
    have first : h.get b.address majorFirst = c.address := by
      rw [held.first, minors]
      rfl
    have place := b.inside (m := c) (by rw [minors]; exact List.mem_cons_self)
    rw [first]
    change _ ↔ b.address + sizeofMajor + size + sizeofMinor ≤ c.address
    unfold sub32 u32 sizeofMajor sizeofMinor
    omega

end Laomb.Liballoc
