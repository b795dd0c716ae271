import Laomb.Liballoc.Search

/-! `kmalloc`: where its search starts, that it returns, and what. -/
namespace Laomb.Liballoc
open DoublyLinked Tiling Word PMM Libc Loop

variable {base size reqSize fuel more : Nat} {taken : Nat → Prop} {h h₁ : Heap} {bs : List MajorBlock}
    {s t : Search}

/-- Enough steps for a search through the blocks. -/
def fuelFor (bs : List MajorBlock) : Nat := 2 * bs.length + (bs.flatMap MajorBlock.minors).length + 4

theorem fuelFor_enough (enough : fuelFor bs ≤ fuel) : ∀ c ∈ bs, c.minors.length + 2 ≤ fuel := by
  intro c member
  obtain ⟨l, r, rfl⟩ := List.append_of_mem member
  unfold fuelFor at enough
  simp only [List.flatMap_append, List.flatMap_cons, List.length_append, List.length_cons] at enough
  omega

/-- The loop of `kmalloc` over the blocks, from the best bet or from the root. -/
def Heap.searchFrom (base fuel size reqSize : Nat) (h : Heap) : Option (Nat × Heap) :=
  let bestSize :=
    if h.bestBet ≠ null then sub32 (h.get h.bestBet majorSize) (h.get h.bestBet majorUsage) else 0
  let startedBet := decide (h.bestBet ≠ null ∧ bestSize > u32 (size + sizeofMinor))
  let maj := if startedBet then h.bestBet else h.memRoot
  (loop (Search.majorStep base fuel size reqSize) fuel ⟨h, maj, startedBet, bestSize⟩).join

namespace Heap

theorem lockedMalloc_some (some : h.memRoot ≠ null) :
    h.lockedMalloc base fuel size reqSize = h.searchFrom base fuel size reqSize := by
  rw [lockedMalloc, searchFrom, if_neg some, if_neg some]

theorem lockedMalloc_none (none : h.memRoot = null) {root : Nat} (run : h.newPage base size = (root, h₁))
    (nonzero : root ≠ null) : h.lockedMalloc base fuel size reqSize =
      ({ h₁ with memRoot := root } : Heap).searchFrom base fuel size reqSize := by
  rw [lockedMalloc, searchFrom, if_pos none, run]
  dsimp only
  rw [if_neg nonzero]

variable (size reqSize fuel) in
/-- The search starts at a block. -/
theorem searchFrom_start (held : Held base taken h bs) :
    ∃ s : Search, s.heap = h ∧
      h.searchFrom base fuel size reqSize = (loop (Search.majorStep base fuel size reqSize) fuel s).join ∧
      ((s.startedBet = true ∧ ∃ b ∈ bs, s.maj = b.address) ∨ (s.startedBet = false ∧ s.maj = h.memRoot)) := by
  unfold searchFrom
  extract_lets bestSize startedBet maj
  refine ⟨⟨h, maj, startedBet, bestSize⟩, rfl, rfl, ?_⟩
  by_cases started : startedBet = true
  · obtain ⟨some, _⟩ := of_decide_eq_true started
    obtain ⟨b, member, there⟩ := List.mem_map.mp (held.bestBet.resolve_left some)
    exact .inl ⟨started, b, member, (if_pos started).trans there.symm⟩
  · exact .inr ⟨Bool.eq_false_iff.mpr started, if_neg started⟩

theorem lockedMalloc_serves (held : Held base taken h bs) (sized : Sized size reqSize)
    (possible : Possible h bs size) (enough : fuelFor bs ≤ fuel) :
    ∃ result, h.lockedMalloc base fuel size reqSize = some result ∧
      Serves base taken h bs size reqSize result := by
  have long := enough
  unfold fuelFor at long
  have room := fuelFor_enough enough
  cases bs with
  | nil =>
    have supplied := possible.resolve_right fun ⟨c, member, _⟩ => absurd member List.not_mem_nil
    obtain ⟨e, h₁, run, nonzero, extended⟩ := newRoot_extended held sized.bound supplied
    obtain ⟨s, heap, search, start⟩ := searchFrom_start size reqSize fuel extended.held
    have maj : s.maj = e.address := by
      rcases start with ⟨_, b, member, there⟩ | ⟨_, there⟩
      · rw [there, List.mem_singleton.mp member]
      · exact there
    have member : e ∈ [] ++ [e] := List.mem_singleton.mpr rfl
    have diff := (extended.held.blocks e member).spare (extended.held.stop_le member) (extended.held.present member)
    have fits : Fits e size := ⟨[], [], extended.empty, extended.fits⟩
    rw [← heap, ← maj] at diff
    have enlarged := Search.remember_extended (heap ▸ extended) maj (spare e)
    obtain ⟨result, step, serves⟩ := Search.extended_placed fuel enlarged sized
      ((s.remember_maj _).trans maj) (fun _ member => absurd member List.not_mem_nil) (by omega)
    have first : s.majorStep base fuel size reqSize = .inr (some result) := by
      rw [Search.majorStep_eq base fuel size reqSize s (maj ▸ nonzero) diff, Search.padded_eq sized,
        if_neg (Nat.not_lt.mpr fits.spare), step]
    refine ⟨result, ?_, serves⟩
    obtain ⟨fuel', rfl⟩ := Nat.exists_eq_add_of_le' (show 1 ≤ fuel by omega)
    rw [lockedMalloc_none held.root run nonzero, search, loop_inr first]
    rfl
  | cons c cs =>
    have root : h.memRoot = c.address := held.root
    have nonzero : h.memRoot ≠ null := root ▸ held.present List.mem_cons_self
    obtain ⟨s, rfl, search, start⟩ := searchFrom_start size reqSize fuel held
    obtain ⟨k, bound, result, run, serves⟩ : ∃ k ≤ fuel, ∃ result,
        loop (Search.majorStep base fuel size reqSize) k s = some (some result) ∧
          Serves base taken s.heap (c :: cs) size reqSize result := by
      rcases start with ⟨started, b, member, there⟩ | ⟨started, there⟩
      · obtain ⟨l, r, split⟩ := List.append_of_mem member
        obtain ⟨k, bound, found⟩ := Search.bet_serves held sized split there started possible room
        have longer := congrArg List.length split
        rw [List.length_append, List.length_cons (a := b)] at longer
        exact ⟨k, by omega, found⟩
      · obtain ⟨k, bound, found⟩ := Search.root_serves fuel (l := []) held sized (there.trans root) started
          (fun _ member => absurd member List.not_mem_nil) possible room
        rw [List.length_cons] at long
        exact ⟨k, by omega, found⟩
    refine ⟨result, ?_, serves⟩
    rw [lockedMalloc_some nonzero, search, loop_mono run bound]
    rfl

/-- Neither `liballoc_lock` nor anything about the flag matters. -/
theorem serves_locked {result : Nat × Heap} (serves : Serves base taken h.liballocLock bs size reqSize result) :
    Serves base taken h bs size reqSize result := by
  obtain ⟨bs', m, sizes, requested, served⟩ := serves
  have quiet := served.quiet
  exact ⟨bs', m, sizes, requested, served.pointer, served.adds, served.held, served.outside,
    quiet.errorCount, quiet.possibleOverruns, quiet.warningCount⟩

theorem held_locked (held : Held base taken h bs) : Held base taken h.liballocLock bs :=
  held.congr (fun _ _ _ _ => rfl) rfl rfl held.bestBet rfl

theorem paddedSize_eq (bound : reqSize + 80 < 2 ^ 32) : paddedSize reqSize = reqSize + (alignment + alignInfo) :=
  u32_of_lt (by unfold alignment alignInfo; omega)

theorem sized_padded (bound : reqSize + 80 < 2 ^ 32) : Sized (paddedSize reqSize) reqSize := by
  rw [paddedSize_eq bound]
  exact ⟨Nat.le_refl _, by unfold alignment alignInfo; omega⟩

theorem kmalloc_eq (bound : reqSize + 80 < 2 ^ 32) : h.kmalloc base fuel reqSize =
    h.liballocLock.lockedMalloc base fuel (paddedSize reqSize) reqSize := by
  have nonzero : paddedSize reqSize ≠ 0 := by
    rw [paddedSize_eq bound]
    unfold alignment
    omega
  rw [kmalloc, if_neg nonzero]

/-- `kmalloc` serves a request for which there are pages, or room in a block. -/
theorem kmalloc_serves (held : Held base taken h bs) (bound : reqSize + 80 < 2 ^ 32)
    (possible : Possible h bs (paddedSize reqSize)) (enough : fuelFor bs ≤ fuel) :
    ∃ result, h.kmalloc base fuel reqSize = some result ∧
      Serves base taken h bs (paddedSize reqSize) reqSize result := by
  obtain ⟨result, run, serves⟩ :=
    lockedMalloc_serves (held_locked held) (sized_padded bound) possible enough
  exact ⟨result, (kmalloc_eq bound).trans run, serves_locked serves⟩

end Heap

/-! ## More fuel -/

namespace Search

theorem place_mono (less : fuel ≤ more) (returns : s.place base fuel size reqSize ≠ .inr none) :
    s.place base more size reqSize = s.place base fuel size reqSize := by
  rw [place] at returns ⊢
  rw [place]
  split
  · rfl
  · rename_i first
    rw [if_neg first] at returns
    split
    · rfl
    · rename_i tight
      rw [if_neg tight] at returns
      cases run : loop (s.heap.minorStep s.maj size reqSize) fuel (s.heap.get s.maj majorFirst) with
      | none =>
        rw [run] at returns
        exact absurd rfl returns
      | some found => rw [loop_mono run less]

theorem caseOne_mono (less : fuel ≤ more) (returns : s.caseOne base fuel size reqSize ≠ .inr none) :
    s.caseOne base more size reqSize = s.caseOne base fuel size reqSize := by
  rw [caseOne] at returns ⊢
  rw [caseOne]
  split
  · rfl
  · rename_i last
    rw [if_neg last] at returns
    split
    · rfl
    · rename_i started
      rw [if_neg started] at returns
      generalize s.heap.extend base s.maj size = extended at returns ⊢
      obtain ⟨next, u⟩ := extended
      dsimp only at returns ⊢
      split
      · rfl
      · rename_i some
        rw [if_neg some] at returns
        exact place_mono less returns

theorem majorStep_mono (less : fuel ≤ more) (returns : s.majorStep base fuel size reqSize ≠ .inr none) :
    s.majorStep base more size reqSize = s.majorStep base fuel size reqSize := by
  by_cases nonzero : s.maj = null
  · rw [majorStep, majorStep, if_pos nonzero, if_pos nonzero]
  · rw [majorStep_eq _ _ _ _ s nonzero rfl] at returns ⊢
    rw [majorStep_eq _ _ _ _ s nonzero rfl]
    split
    · rename_i tight
      rw [if_pos tight] at returns
      exact caseOne_mono less returns
    · rename_i room
      rw [if_neg room] at returns
      exact place_mono less returns

theorem search_mono (less : fuel ≤ more) {n : Nat} {result : Nat × Heap}
    (run : loop (majorStep base fuel size reqSize) n s = some (some result)) :
    loop (majorStep base more size reqSize) n s = some (some result) := by
  induction n generalizing s with
  | zero => cases run
  | succ n ih =>
    cases step : s.majorStep base fuel size reqSize with
    | inl t =>
      rw [loop_inl step] at run
      rw [loop_inl ((majorStep_mono less (by rw [step]; exact Sum.inl_ne_inr)).trans step)]
      exact ih run
    | inr found =>
      rw [loop_inr step] at run
      obtain rfl : found = some result := Option.some.inj run
      exact loop_inr ((majorStep_mono less (by rw [step]; exact fun none => nomatch Sum.inr.inj none)).trans step)

end Search

namespace Heap

theorem searchFrom_mono (less : fuel ≤ more) {result : Nat × Heap}
    (run : h.searchFrom base fuel size reqSize = some result) :
    h.searchFrom base more size reqSize = some result := by
  rw [searchFrom] at run ⊢
  have found := Search.search_mono less (Option.join_eq_some_iff.mp run)
  exact Option.join_eq_some_iff.mpr (loop_mono found less)

theorem lockedMalloc_mono (less : fuel ≤ more) {result : Nat × Heap}
    (run : h.lockedMalloc base fuel size reqSize = some result) :
    h.lockedMalloc base more size reqSize = some result := by
  by_cases root : h.memRoot = null
  · cases grown : h.newPage base size with
    | mk new h₁ =>
      by_cases nonzero : new = null
      · rw [lockedMalloc, if_pos root, grown] at run ⊢
        dsimp only at run ⊢
        rwa [if_pos nonzero] at run ⊢
      · rw [lockedMalloc_none root grown nonzero] at run ⊢
        exact searchFrom_mono less run
  · rw [lockedMalloc_some root] at run ⊢
    exact searchFrom_mono less run

/-- A result of `kmalloc` does not depend on the amount of fuel. -/
theorem kmalloc_mono (less : fuel ≤ more) {result : Nat × Heap} (run : h.kmalloc base fuel reqSize = some result) :
    h.kmalloc base more reqSize = some result := by
  rw [kmalloc] at run ⊢
  split
  · rename_i zero
    rw [if_pos zero] at run
    exact lockedMalloc_mono less run
  · rename_i nonzero
    rw [if_neg nonzero] at run
    exact lockedMalloc_mono less run

end Heap
end Laomb.Liballoc
