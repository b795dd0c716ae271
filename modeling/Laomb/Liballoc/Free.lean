import Laomb.Liballoc.Malloc

/-! `kfree` of a pointer that is in use: the minor is taken out of its block, and a block in which
it was the last goes back to the page source. -/
namespace Laomb.Liballoc
open DoublyLinked Tiling Word PMM Libc FirstFit

namespace Heap

/-- The first half of `kfree`: the minor is marked as dead and unlinked. -/
def detach (h : Heap) (min : Nat) : Heap :=
  let maj := h.get min minorBlock
  let h := { h with inuse := (h.inuse + 2 ^ 64 - h.get min minorSize) % 2 ^ 64 }
  let h := h.set maj majorUsage (sub32 (h.get maj majorUsage) (h.get min minorSize + sizeofMinor))
  let h := h.set min minorMagic liballocDead
  let h :=
    if h.get min minorNext ≠ null then h.set (h.get min minorNext) minorPrev (h.get min minorPrev)
    else h
  let h :=
    if h.get min minorPrev ≠ null then h.set (h.get min minorPrev) minorNext (h.get min minorNext)
    else h
  if h.get min minorPrev = null then h.set maj majorFirst (h.get min minorNext) else h

/-- What `kfree` does to a block without minors, but for its pages. -/
def unlinkMajor (h : Heap) (maj : Nat) : Heap :=
  let h := if h.memRoot = maj then { h with memRoot := h.get maj majorNext } else h
  let h := if h.bestBet = maj then { h with bestBet := null } else h
  let h :=
    if h.get maj majorPrev ≠ null then h.set (h.get maj majorPrev) majorNext (h.get maj majorNext)
    else h
  if h.get maj majorNext ≠ null then h.set (h.get maj majorNext) majorPrev (h.get maj majorPrev)
  else h

/-- `l_allocated -= maj->size` and `liballoc_free`. -/
def returnPages (h : Heap) (base maj : Nat) : Heap :=
  { h with pages := { h.pages with
      allocated := (h.pages.allocated + 2 ^ 64 - h.get maj majorSize) % 2 ^ 64
      pmm := liballocFree base h.pages.pmm maj (h.get maj majorPages) } }

/-- The block becomes the best bet if it has more free bytes. -/
def rebet (h : Heap) (maj : Nat) : Heap :=
  if h.bestBet ≠ null then
    let bestSize := signed (sub32 (h.get h.bestBet majorSize) (h.get h.bestBet majorUsage))
    let majSize := signed (sub32 (h.get maj majorSize) (h.get maj majorUsage))
    if majSize > bestSize then { h with bestBet := maj } else h
  else h

theorem release_eq (h : Heap) (base min : Nat) : h.release base min =
    if (h.detach min).get (h.get min minorBlock) majorFirst = null then
      ((h.detach min).unlinkMajor (h.get min minorBlock)).returnPages base (h.get min minorBlock)
    else (h.detach min).rebet (h.get min minorBlock) := by
  unfold release
  extract_lets maj u₁ u₂ u₃ u₄ u₅ u₆ v₁ v₂ v₃ v₄
  have owner : h.get min minorBlock = maj := rfl
  have detached : h.detach min = u₆ := rfl
  have unlinked : u₆.unlinkMajor maj = v₄ := rfl
  clear_value v₄ v₃ v₂ v₁ u₆ u₅ u₄ u₃ u₂ u₁ maj
  rewrite [detached, owner, unlinked]
  rfl

end Heap

/-! ## Out of the block -/

theorem Kept.trans {h h₁ h₂ : Heap} (first : Kept h h₁) (second : Kept h₁ h₂) : Kept h h₂ :=
  ⟨second.pages.trans first.pages, second.memRoot.trans first.memRoot, second.bestBet.trans first.bestBet,
    second.errorCount.trans first.errorCount, second.possibleOverruns.trans first.possibleOverruns⟩

theorem set_kept (h : Heap) (p f v : Nat) : Kept h (h.set p f v) := ⟨rfl, rfl, rfl, rfl, rfl⟩

theorem set_inuse (h : Heap) (p f v : Nat) : (h.set p f v).inuse = h.inuse := rfl

/-- Where `p` is not the null pointer, `v` has been written to the word at `p + f`. -/
structure Patched (h h' : Heap) (p f v : Nat) : Prop where
  value : p ≠ null → h'.get p f = v
  others : ∀ x, (p ≠ null → x < p + f ∨ p + f + 4 ≤ x) → h'.memory x = h.memory x
  kept : Kept h h'
  inuse : h'.inuse = h.inuse

/-- `if ( p != nullptr ) p->f = v`. -/
theorem patched (h : Heap) {p f v : Nat} (fits : p ≠ null → p + f + 4 ≤ 2 ^ 32) (bound : v < 2 ^ 32) :
    Patched h (if p ≠ null then h.set p f v else h) p f v := by
  by_cases some : p ≠ null
  · rw [if_pos some]
    exact ⟨fun _ => h.get_set p f bound, fun x apart => h.set_memory (fits some) (apart some),
      set_kept h p f v, set_inuse h p f v⟩
  · rw [if_neg some]
    exact ⟨fun other => absurd other some, fun _ _ => rfl, Kept.refl h, rfl⟩

theorem Patched.get {h h' : Heap} {p f v q g : Nat} (patched : Patched h h' p f v) (fits : q + g + 4 ≤ 2 ^ 32)
    (apart : p ≠ null → q + g + 4 ≤ p + f ∨ p + f + 4 ≤ q + g) : h'.get q g = h.get q g :=
  Heap.get_congr fits fun x low high => patched.others x fun some => by
    have := apart some
    omega

/-- The minor `min` has been marked as dead and taken out from between `prev` and `next`. -/
structure Detached (h h' : Heap) (maj prev min next size : Nat) : Prop where
  first : h'.get maj majorFirst = if prev = null then next else h.get maj majorFirst
  usage : h'.get maj majorUsage = sub32 (h.get maj majorUsage) (size + sizeofMinor)
  magic : h'.get min minorMagic = liballocDead
  before : prev ≠ null → h'.get prev minorNext = next
  after : next ≠ null → h'.get next minorPrev = prev
  others : ∀ x, Aside maj prev min next x → (x < maj + 16 ∨ maj + 20 ≤ x) → h'.memory x = h.memory x
  kept : Kept h h'
  inuse : h'.inuse = (h.inuse + 2 ^ 64 - size) % 2 ^ 64

theorem detach_detached {h : Heap} {maj prev min next size : Nat} (owner : h.get min minorBlock = maj)
    (prevs : h.get min minorPrev = prev) (nexts : h.get min minorNext = next)
    (sized : h.get min minorSize = size) (room : Room maj prev min next) :
    Detached h (h.detach min) maj prev min next size := by
  obtain ⟨low, high, before, behind⟩ := room
  have prevBound : prev < 2 ^ 32 := prevs ▸ h.get_lt min minorPrev
  have nextBound : next < 2 ^ 32 := nexts ▸ h.get_lt min minorNext
  unfold Heap.detach
  extract_lets maj' u₁ u₂ u₃ u₄ u₅
  have e₀ : maj' = h.get min minorBlock := rfl
  have e₁ : u₁ = { h with inuse := (h.inuse + 2 ^ 64 - h.get min minorSize) % 2 ^ 64 } := rfl
  have e₂ : u₂ = u₁.set maj' majorUsage (sub32 (u₁.get maj' majorUsage) (u₁.get min minorSize + sizeofMinor)) := rfl
  have e₃ : u₃ = u₂.set min minorMagic liballocDead := rfl
  have e₄ : u₄ = if u₃.get min minorNext ≠ null then u₃.set (u₃.get min minorNext) minorPrev (u₃.get min minorPrev)
    else u₃ := rfl
  have e₅ : u₅ = if u₄.get min minorPrev ≠ null then u₄.set (u₄.get min minorPrev) minorNext (u₄.get min minorNext)
    else u₄ := rfl
  clear_value u₅ u₄ u₃ u₂ u₁ maj'
  rw [owner] at e₀
  subst e₀
  have memory₁ : u₁.memory = h.memory := by rw [e₁]
  have same₁ : ∀ p f, u₁.get p f = h.get p f := fun p f => congrArg (load32 · (p + f)) memory₁
  rw [same₁, same₁, sized] at e₂
  have others₃ : ∀ x, (x < maj' + 16 ∨ maj' + 20 ≤ x) → (x < min + 12 ∨ min + 16 ≤ x) →
      u₃.memory x = h.memory x := by
    intro x outside outside'
    rw [e₃, Heap.set_memory _ (by unfold minorMagic; omega) (by unfold minorMagic; omega), e₂,
      Heap.set_memory _ (by unfold majorUsage; omega) (by unfold majorUsage; omega), e₁]
  have kept₃ : ∀ f ≤ 8, u₃.get min f = h.get min f := fun f less =>
    Heap.get_congr (by omega) fun x _ _ => others₃ x (by omega) (by omega)
  rw [kept₃ minorNext (by decide), nexts, kept₃ minorPrev (by decide), prevs] at e₄
  have patch₄ : Patched u₃ u₄ next minorPrev prev := by
    rw [e₄]
    exact patched u₃ (fun some => by have := behind some; unfold minorPrev; omega) prevBound
  have kept₄ : ∀ f ≤ 8, u₄.get min f = h.get min f := fun f less =>
    (patch₄.get (by omega) fun some => by have := behind some; omega).trans (kept₃ f less)
  rw [kept₄ minorNext (by decide), nexts, kept₄ minorPrev (by decide), prevs] at e₅
  have patch₅ : Patched u₄ u₅ prev minorNext next := by
    rw [e₅]
    exact patched u₄ (fun some => by have := before some; unfold minorNext; omega) nextBound
  have kept₅ : ∀ f ≤ 8, u₅.get min f = h.get min f := fun f less =>
    (patch₅.get (by omega) fun some => by have := before some; unfold minorNext; omega).trans (kept₄ f less)
  rw [kept₅ minorNext (by decide), nexts, kept₅ minorPrev (by decide), prevs]
  have others₅ : ∀ x, Aside maj' prev min next x → (x < maj' + 16 ∨ maj' + 20 ≤ x) → u₅.memory x = h.memory x := by
    intro x aside usage
    have ⟨header, _, early, late⟩ := aside
    rw [patch₅.others x (fun some => by have := early some; unfold minorNext; omega),
      patch₄.others x (fun some => by have := late some; unfold minorPrev; omega), others₃ x usage (by omega)]
  have field₅ : ∀ p f, p + f + 4 ≤ 2 ^ 32 → (p + f + 4 ≤ min ∨ min + 12 ≤ p + f) →
      (prev ≠ null → p + f + 4 ≤ prev + 4 ∨ prev + 8 ≤ p + f) →
      (next ≠ null → p + f + 4 ≤ next ∨ next + 4 ≤ p + f) → u₅.get p f = u₃.get p f := by
    intro p f fits _ early late
    rw [patch₅.get fits (fun some => by have := early some; unfold minorNext; omega),
      patch₄.get fits fun some => by have := late some; unfold minorPrev; omega]
  have usage₃ : u₃.get maj' majorUsage = sub32 (h.get maj' majorUsage) (size + sizeofMinor) := by
    rw [e₃, Heap.get_set_header (by omega) (by omega) (by omega) _ _ _ _ (by decide) (by decide), e₂]
    exact u₁.get_set maj' majorUsage (u32_lt _)
  have first₃ : u₃.get maj' majorFirst = h.get maj' majorFirst := by
    rw [e₃, Heap.get_set_header (by omega) (by omega) (by omega) _ _ _ _ (by decide) (by decide), e₂,
      Heap.get_set_field (by omega) _ _ _ _ (by decide) (by decide) (by decide), same₁]
  have magic₃ : u₃.get min minorMagic = liballocDead := by
    rw [e₃]
    exact u₂.get_set min minorMagic (by decide)
  have kept₃' : Kept h u₃ := by
    rw [e₃, e₂, e₁]
    exact ⟨rfl, rfl, rfl, rfl, rfl⟩
  have inuse₃ : u₃.inuse = (h.inuse + 2 ^ 64 - size) % 2 ^ 64 := by
    rw [e₃, e₂, e₁, sized]
    rfl
  have field₅' : ∀ f, f = majorUsage ∨ f = majorFirst → u₅.get maj' f = u₃.get maj' f := by
    intro f which
    have bound : f ≤ 20 := by
      unfold majorUsage majorFirst at which
      omega
    exact field₅ maj' f (by omega) (by omega) (fun some => by have := before some; omega)
      fun some => by have := behind some; omega
  have magic₅ : u₅.get min minorMagic = liballocDead :=
    (field₅ min minorMagic (by unfold minorMagic; omega) (by unfold minorMagic; omega)
      (fun some => by have := before some; unfold minorMagic; omega)
      fun some => by have := behind some; unfold minorMagic; omega).trans magic₃
  have before₅ : prev ≠ null → u₅.get prev minorNext = next := patch₅.value
  have after₅ : next ≠ null → u₅.get next minorPrev = prev := fun some => by
    have place := behind some
    rw [patch₅.get (by unfold minorPrev; omega) fun some => by
      have := before some
      unfold minorPrev minorNext
      omega]
    exact patch₄.value some
  have kept : Kept h u₅ := kept₃'.trans (patch₄.kept.trans patch₅.kept)
  have inuse : u₅.inuse = (h.inuse + 2 ^ 64 - size) % 2 ^ 64 :=
    (patch₅.inuse.trans patch₄.inuse).trans inuse₃
  by_cases none : prev = null
  · rw [if_pos none]
    refine ⟨?_, ?_, ?_, fun some => absurd none some, ?_, ?_, ?_, ?_⟩
    · exact (u₅.get_set maj' majorFirst nextBound).trans (if_pos none).symm
    · rw [Heap.get_set_field (by omega) _ _ _ _ (by decide) (by decide) (by decide), field₅' _ (.inl rfl), usage₃]
    · rw [Heap.get_set_header (by omega) (by omega) (by omega) _ _ _ _ (by decide) (by decide), magic₅]
    · intro some
      have place := behind some
      rw [Heap.get_set_header (by omega) (by omega) (by omega) _ _ _ _ (by decide) (by decide), after₅ some]
    · intro x aside usage
      have head := aside.first
      rw [Heap.set_memory _ (by unfold majorFirst; omega) (by unfold majorFirst; omega), others₅ x aside usage]
    · exact kept.trans (set_kept u₅ maj' majorFirst next)
    · exact (set_inuse u₅ maj' majorFirst next).trans inuse
  · rw [if_neg none]
    refine ⟨?_, (field₅' _ (.inl rfl)).trans usage₃, magic₅, before₅, after₅, others₅, kept, inuse⟩
    rw [if_neg none, field₅' _ (.inr rfl), first₃]

variable {base : Nat} {taken : Nat → Prop} {h h' : Heap} {b c : MajorBlock} {m z : Minor} {xs ys : List Minor}
    {bs bs' l r : List MajorBlock}

theorem Detached.around {maj prev min next size : Nat} (detached : Detached h h' maj prev min next size) :
    Around h h' maj prev min next := fun x aside _ usage => detached.others x aside usage

/-- A minor of a block is taken out. -/
theorem BlockHeld.detached (held : BlockHeld h b) (split : b.minors = xs ++ m :: ys) (fits : b.stop ≤ 2 ^ 32) :
    Detached h (h.detach m.address) b.address (lastAddress xs) m.address (headAddress ys) m.size := by
  have own := held.minors m (split ▸ List.mem_append_right xs List.mem_cons_self)
  have linked := held.linked
  rw [split, List.map_append, List.map_cons] at linked
  exact detach_detached own.owner linked.at_split.1 linked.at_split.2 own.sized ((erase_gap split).room fits)

theorem BlockHeld.erase (held : BlockHeld h b) (split : b.minors = xs ++ m :: ys) (fits : b.stop ≤ 2 ^ 32)
    (detached : Detached h h' b.address (lastAddress xs) m.address (headAddress ys) m.size) :
    BlockHeld h' (b.erase split) := by
  have gap := erase_gap split
  have around : Around h h' (b.erase split).address (lastAddress xs) m.address (headAddress ys) := detached.around
  refine ⟨?_, ?_, ?_, ?_, ?_, ?_⟩
  · exact (around.major gap fits (by decide)).trans held.pages
  · exact (around.major gap fits (by decide)).trans held.size
  · have total := b.tiled.sum_le
    have parts : ((xs ++ m :: ys).map Minor.extent).sum = ((xs ++ ys).map Minor.extent).sum + m.extent := by
      simp only [List.map_append, List.map_cons, List.sum_append, List.sum_cons]
      omega
    have long : m.extent = m.size + 24 := rfl
    change h'.get b.address majorUsage = sizeofMajor + ((xs ++ ys).map Minor.extent).sum
    rw [split] at total
    rw [detached.usage, held.usage, split]
    unfold MajorBlock.stop at fits
    unfold sub32 u32 sizeofMinor sizeofMajor at *
    omega
  · change h'.get b.address majorFirst = ((xs ++ ys).map Minor.address).headD null
    rw [detached.first, held.first, split]
    by_cases none : lastAddress xs = null
    · rw [if_pos none, gap.last_null none]
      rfl
    · rw [if_neg none]
      cases xs with
      | nil => exact absurd rfl none
      | cons z xs => rfl
  · change Linked null _ _ null ((xs ++ ys).map Minor.address)
    have linked := held.linked
    rw [split, List.map_append, List.map_cons] at linked
    rw [List.map_append]
    refine linked.erase ?_ ?_ (around.prevs gap fits) (around.nexts gap fits)
    · intro a last
      obtain ⟨rfl, some⟩ := gap.last_node last
      exact detached.before some
    · intro a first
      obtain ⟨rfl, some⟩ := gap.head_node first
      exact detached.after some
  · intro z member
    refine around.minor gap fits member (held.minors z ?_)
    rw [split]
    exact List.mem_append.mpr ((List.mem_append.mp member).imp_right (List.mem_cons_of_mem m))

/-! ## Back to the page source -/

/-- The block `maj` has been taken out from between `prev` and `next`. -/
structure Unlinked (h h' : Heap) (maj prev next : Nat) : Prop where
  memRoot : h'.memRoot = if h.memRoot = maj then next else h.memRoot
  bestBet : h'.bestBet = if h.bestBet = maj then null else h.bestBet
  before : prev ≠ null → h'.get prev majorNext = next
  after : next ≠ null → h'.get next majorPrev = prev
  others : ∀ x, (prev ≠ null → x < prev + 4 ∨ prev + 8 ≤ x) → (next ≠ null → x < next ∨ next + 4 ≤ x) →
    h'.memory x = h.memory x
  pages : h'.pages = h.pages
  inuse : h'.inuse = h.inuse
  errorCount : h'.errorCount = h.errorCount
  possibleOverruns : h'.possibleOverruns = h.possibleOverruns

theorem unlinkMajor_unlinked {h : Heap} {maj prev next : Nat} (prevs : h.get maj majorPrev = prev)
    (nexts : h.get maj majorNext = next) (fits : maj + 24 ≤ 2 ^ 32)
    (before : prev ≠ null → prev + 24 ≤ 2 ^ 32 ∧ (prev + 24 ≤ maj ∨ maj + 24 ≤ prev))
    (behind : next ≠ null → next + 24 ≤ 2 ^ 32 ∧ (next + 24 ≤ maj ∨ maj + 24 ≤ next))
    (apart : prev ≠ null → next ≠ null → prev + 24 ≤ next ∨ next + 24 ≤ prev) :
    Unlinked h (h.unlinkMajor maj) maj prev next := by
  have prevBound : prev < 2 ^ 32 := prevs ▸ h.get_lt maj majorPrev
  have nextBound : next < 2 ^ 32 := nexts ▸ h.get_lt maj majorNext
  unfold Heap.unlinkMajor
  extract_lets u₁ u₂ u₃
  have e₁ : u₁ = if h.memRoot = maj then { h with memRoot := h.get maj majorNext } else h := rfl
  have e₂ : u₂ = if u₁.bestBet = maj then { u₁ with bestBet := null } else u₁ := rfl
  have e₃ : u₃ = if u₂.get maj majorPrev ≠ null then u₂.set (u₂.get maj majorPrev) majorNext (u₂.get maj majorNext)
    else u₂ := rfl
  clear_value u₃ u₂ u₁
  have memory₁ : u₁.memory = h.memory := by
    rw [e₁]
    split <;> rfl
  have memory₂ : u₂.memory = h.memory := by
    rw [← memory₁, e₂]
    split <;> rfl
  have root₁ : u₁.memRoot = if h.memRoot = maj then next else h.memRoot := by
    rw [e₁, nexts]
    split <;> rfl
  have bet₁ : u₁.bestBet = h.bestBet := by
    rw [e₁]
    split <;> rfl
  have rest₁ : u₁.pages = h.pages ∧ u₁.inuse = h.inuse ∧ u₁.errorCount = h.errorCount ∧
      u₁.possibleOverruns = h.possibleOverruns := by
    rw [e₁]
    split <;> exact ⟨rfl, rfl, rfl, rfl⟩
  have rest₂ : u₂.memRoot = u₁.memRoot ∧ u₂.pages = u₁.pages ∧ u₂.inuse = u₁.inuse ∧
      u₂.errorCount = u₁.errorCount ∧ u₂.possibleOverruns = u₁.possibleOverruns := by
    rw [e₂]
    split <;> exact ⟨rfl, rfl, rfl, rfl, rfl⟩
  have bet₂ : u₂.bestBet = if h.bestBet = maj then null else h.bestBet := by
    rw [e₂, bet₁]
    split
    · rfl
    · exact bet₁
  have same₂ : ∀ p f, u₂.get p f = h.get p f := fun p f => congrArg (load32 · (p + f)) memory₂
  rw [same₂, prevs, same₂, nexts] at e₃
  have patch₃ : Patched u₂ u₃ prev majorNext next := by
    rw [e₃]
    exact patched u₂ (fun some => by have := before some; unfold majorNext; omega) nextBound
  have kept₃ : ∀ f ≤ 4, u₃.get maj f = h.get maj f := fun f less =>
    (patch₃.get (by omega) fun some => by have := before some; unfold majorNext; omega).trans (same₂ maj f)
  rw [kept₃ majorNext (by decide), nexts, kept₃ majorPrev (by decide), prevs]
  have patch₄ := patched u₃ (p := next) (f := majorPrev) (v := prev)
    (fun some => by have := behind some; unfold majorPrev; omega) prevBound
  obtain ⟨u₄, e₄⟩ : ∃ u₄, u₄ = if next ≠ null then u₃.set next majorPrev prev else u₃ := ⟨_, rfl⟩
  rw [← e₄] at patch₄ ⊢
  have kept := patch₃.kept.trans patch₄.kept
  refine ⟨?_, ?_, ?_, patch₄.value, ?_, ?_, ?_, ?_, ?_⟩
  · exact (kept.memRoot.trans rest₂.1).trans root₁
  · exact kept.bestBet.trans bet₂
  · intro some
    rw [patch₄.get (by have := before some; unfold majorNext; omega) fun some' => by
      have := apart some some'
      unfold majorNext majorPrev
      omega]
    exact patch₃.value some
  · intro x early late
    rw [patch₄.others x (fun some => by have := late some; unfold majorPrev; omega),
      patch₃.others x (fun some => by have := early some; unfold majorNext; omega), memory₂]
  · exact (kept.pages.trans rest₂.2.1).trans rest₁.1
  · exact ((patch₄.inuse.trans patch₃.inuse).trans rest₂.2.2.1).trans rest₁.2.1
  · exact (kept.errorCount.trans rest₂.2.2.2.1).trans rest₁.2.2.1
  · exact (kept.possibleOverruns.trans rest₂.2.2.2.2).trans rest₁.2.2.2

/-- The minor `m` is taken out of one of the blocks, or the block is, where it has no other. -/
inductive Removes (m : Minor) : List MajorBlock → List MajorBlock → Prop where
  | inside (l r : List MajorBlock) (b : MajorBlock) (xs ys : List Minor) (split : b.minors = xs ++ m :: ys) :
      xs ++ ys ≠ [] → Removes m (l ++ b :: r) (l ++ b.erase split :: r)
  | block (l r : List MajorBlock) (b : MajorBlock) : b.minors = [m] → Removes m (l ++ b :: r) (l ++ r)

theorem Held.erase (held : Held base taken h (l ++ b :: r)) (split : b.minors = xs ++ m :: ys)
    (detached : Detached h h' b.address (lastAddress xs) m.address (headAddress ys) m.size) :
    Held base taken h' (l ++ b.erase split :: r) := by
  have here : b ∈ l ++ b :: r := List.mem_append_right l List.mem_cons_self
  have fits := held.stop_le here
  have gap := erase_gap split
  have around : Around h h' (b.erase split).address (lastAddress xs) m.address (headAddress ys) := detached.around
  refine held.replace (c := b.erase split) rfl rfl ((held.blocks b here).erase split fits detached)
    (Held.around_outside (b := b.erase split) gap around) (fun f less => around.major gap fits (by omega))
    detached.kept ?_
  have before := held.inuse
  have more := Held.inUse_insert (l := l) (r := r) gap
  rw [erase_insert split] at more
  obtain ⟨_, bound, _⟩ := gap.own
  change m.address + m.size + 24 ≤ b.stop at bound
  rw [detached.inuse]
  rw [more] at before
  unfold Nat.ModEq at *
  omega

theorem rebet_cases (h : Heap) (maj : Nat) : h.rebet maj = h ∨ h.rebet maj = { h with bestBet := maj } := by
  unfold Heap.rebet
  split
  · extract_lets bestSize majSize
    split
    · exact .inr rfl
    · exact .inl rfl
  · exact .inl rfl

theorem Held.rebet (held : Held base taken h bs) (member : b ∈ bs) : Held base taken (h.rebet b.address) bs := by
  rcases rebet_cases h b.address with same | same <;> rw [same]
  · exact held
  · exact held.setBest member

theorem rebet_memory (h : Heap) (maj : Nat) : (h.rebet maj).memory = h.memory := by
  rcases rebet_cases h maj with same | same <;> rw [same]

theorem rebet_quiet (h : Heap) (maj : Nat) : Quiet h (h.rebet maj) := by
  rcases rebet_cases h maj with same | same <;> rw [same] <;> exact ⟨rfl, rfl, rfl⟩

/-! A block goes back. -/

variable {start : Nat}

/-- The pages of a block, of which `start` is the first. -/
theorem hasPage_iff (there : b.address = base + start * pageSize) (page : Nat) :
    b.HasPage base page ↔ start ≤ page ∧ page < start + b.pages := by
  unfold MajorBlock.HasPage MajorBlock.stop
  rw [there]
  unfold pageSize
  omega

/-- `liballoc_free` marks the pages of a block as free. -/
theorem liballocFree_used (higher : HigherHalf base h.pages.pmm) (placed : Placed base h.pages.pmm b) (page : Nat) :
    (liballocFree base h.pages.pmm b.address b.pages).Used page ↔
      ¬ b.HasPage base page ∧ h.pages.pmm.Used page := by
  obtain ⟨start, there⟩ := placed.aligned
  have stop := placed.fits
  have fits := higher.fits
  have positive := higher.positive
  have header := b.header_fits
  have first : addressPage (sub32 b.address base) = start := by
    unfold addressPage sub32 u32 pageSize MajorBlock.stop at *
    omega
  have clears : liballocFree base h.pages.pmm b.address b.pages = clearPages h.pages.pmm start b.pages := by
    rw [liballocFree, pmmFreePages, first]
  rw [clears, clearPages_used _ (by unfold MajorBlock.stop pageSize at *; omega), hasPage_iff there]

/-- The address of the first block of a list, or the null pointer. -/
def headBlock (r : List MajorBlock) : Nat := (r.map MajorBlock.address).headD null

theorem headBlock_some (some : headBlock r ≠ null) : ∃ c ∈ r, c.address = headBlock r := by
  cases r with
  | nil => exact absurd rfl some
  | cons c r => exact ⟨c, List.mem_cons_self, rfl⟩

theorem allocated_split (l r : List MajorBlock) (b : MajorBlock) :
    allocated (l ++ b :: r) = allocated (l ++ r) + b.pages * pageSize := by
  simp only [allocated, List.map_append, List.map_cons, List.sum_append, List.sum_cons]
  omega

/-- The headers of different blocks are apart. -/
theorem Held.headers (held : Held base taken h (l ++ b :: r)) (member : c ∈ l ++ r) :
    c.address + 24 ≤ 2 ^ 32 ∧ (c.address + 24 ≤ b.address ∨ b.address + 24 ≤ c.address) := by
  have inside : c ∈ l ++ b :: r :=
    List.mem_append.mpr ((List.mem_append.mp member).imp_right (List.mem_cons_of_mem b))
  have away := held.others member
  have header := c.header_fits
  have header' := b.header_fits
  exact ⟨held.address_lt inside, by omega⟩

theorem Held.unlinked (held : Held base taken h (l ++ b :: r)) :
    Unlinked h (h.unlinkMajor b.address) b.address (lastBlock l) (headBlock r) := by
  have linked := held.linked
  rw [List.map_append, List.map_cons] at linked
  refine unlinkMajor_unlinked linked.at_split.1 linked.at_split.2
    (held.address_lt (List.mem_append_right l List.mem_cons_self)) ?_ ?_ ?_
  · intro some
    obtain ⟨c, member, there⟩ := lastBlock_some some
    rw [← there]
    exact held.headers (List.mem_append_left r member)
  · intro some
    obtain ⟨c, member, there⟩ := headBlock_some some
    rw [← there]
    exact held.headers (List.mem_append_right l member)
  · intro some some'
    obtain ⟨c, member, there⟩ := lastBlock_some some
    obtain ⟨d, member', there'⟩ := headBlock_some some'
    have cross := (List.pairwise_append.mp held.apart).2.2 c member d (List.mem_cons_of_mem b member')
    have header := c.header_fits
    have header' := d.header_fits
    omega

/-- Different blocks are apart. -/
theorem Held.blocks_apart (held : Held base taken h bs) (member : b ∈ bs) (member' : c ∈ bs) (other : b ≠ c) :
    b.stop ≤ c.address ∨ c.stop ≤ b.address := by
  have symmetric : Std.Symm (fun a b : MajorBlock => a.stop ≤ b.address ∨ b.stop ≤ a.address) :=
    ⟨fun _ _ either => either.symm⟩
  exact held.apart.forall member member' other

theorem headBlock_tail (apart : r.Pairwise fun a b => a.stop ≤ b.address ∨ b.stop ≤ a.address)
    (member : b ∈ r.tail) : b.address ≠ headBlock r := by
  cases r with
  | nil => exact absurd member List.not_mem_nil
  | cons c r =>
    have away := (List.pairwise_cons.mp apart).1 b member
    have header := b.header_fits
    have header' := c.header_fits
    change b.address ≠ c.address
    omega

theorem lastBlock_getLast {a : Nat} (last : a ∈ (l.map MajorBlock.address).getLast?) : lastBlock l = a := by
  rw [lastBlock, List.getLastD_eq_getLast?, last, Option.getD_some]

theorem listed_before (member : c ∈ l ++ r) : c ∈ l ++ b :: r :=
  List.mem_append.mpr ((List.mem_append.mp member).imp_right (List.mem_cons_of_mem b))

/-! What is left of the other blocks when `b` is unlinked. -/
section Unlinked

variable {u : Heap} {f : Nat} (held : Held base taken h (l ++ b :: r))
    (unlinked : Unlinked h u b.address (lastBlock l) (headBlock r))

include held

/-- The blocks of the two sides are different. -/
theorem Held.sides (left : c ∈ l) {d : MajorBlock} (right : d ∈ r) : c.address ≠ d.address := by
  have away := (List.pairwise_append.mp held.apart).2.2 c left d (List.mem_cons_of_mem b right)
  have header := c.header_fits
  have header' := d.header_fits
  omega

theorem Held.prev_kept (member : c ∈ l ++ r.tail) : c.address ≠ headBlock r := by
  have inside : c ∈ l ++ b :: r := listed_before
    (List.mem_append.mpr ((List.mem_append.mp member).imp_right List.mem_of_mem_tail))
  rcases List.mem_append.mp member with before | behind
  · intro first
    obtain ⟨d, listed, there⟩ := headBlock_some (first ▸ held.present inside)
    exact held.sides before listed (first.trans there.symm)
  · exact headBlock_tail (List.pairwise_cons.mp (List.pairwise_append.mp held.apart).2.1).2 behind

theorem Held.next_kept (member : c ∈ l.dropLast ++ r) : c.address ≠ lastBlock l := by
  have inside : c ∈ l ++ b :: r := listed_before
    (List.mem_append.mpr ((List.mem_append.mp member).imp_left List.mem_of_mem_dropLast))
  rcases List.mem_append.mp member with before | behind
  · exact dropLast_block (List.pairwise_append.mp held.apart).1 before
  · intro last
    obtain ⟨d, listed, there⟩ := lastBlock_some (last ▸ held.present inside)
    exact held.sides listed behind (there.trans last.symm)

include unlinked

/-- Everything behind the links of the headers stays. -/
theorem Held.unlinked_byte (member : c ∈ l ++ b :: r) (above : c.address ≤ x) (below : x < c.stop)
    (nexts : c.address = lastBlock l → x < c.address + 4 ∨ c.address + 8 ≤ x)
    (prevs : c.address = headBlock r → c.address + 4 ≤ x) : u.memory x = h.memory x := by
  refine unlinked.others x (fun some => ?_) (fun some => ?_)
  · obtain ⟨d, listed, there⟩ := lastBlock_some some
    by_cases same : d = c
    · subst same
      have own := nexts there
      omega
    · have away := held.blocks_apart (List.mem_append_left _ listed) member same
      have header := d.header_fits
      omega
  · obtain ⟨d, listed, there⟩ := headBlock_some some
    by_cases same : d = c
    · subst same
      have own := prevs there
      omega
    · have away := held.blocks_apart (List.mem_append_right l (List.mem_cons_of_mem b listed)) member same
      have header := d.header_fits
      omega

theorem Held.unlinked_field (member : c ∈ l ++ b :: r) (less : f ≤ 20)
    (nexts : c.address = lastBlock l → f = 0 ∨ 8 ≤ f) (prevs : c.address = headBlock r → 4 ≤ f) :
    u.get c.address f = h.get c.address f := by
  have low := held.address_lt member
  have room := c.header_fits
  refine Heap.get_congr (by omega) fun x above below => held.unlinked_byte unlinked member (by omega) (by omega)
    (fun last => ?_) fun first => ?_
  · have next := nexts last
    omega
  · have prev := prevs first
    omega

theorem Held.unlinked_linked : Linked null (u.get · majorPrev) (u.get · majorNext) null
    (l.map MajorBlock.address ++ r.map MajorBlock.address) := by
  have linked := held.linked
  rw [List.map_append, List.map_cons] at linked
  refine linked.erase ?_ ?_ ?_ ?_
  · intro a last
    have is := lastBlock_getLast last
    obtain ⟨c, member, there⟩ := List.mem_map.mp (List.mem_of_getLast? last)
    rw [← is]
    refine unlinked.before ?_
    rw [is, ← there]
    exact held.present (List.mem_append_left _ member)
  · intro a first
    cases r with
    | nil => cases first
    | cons c r =>
      cases first
      exact unlinked.after (held.present (List.mem_append_right l (List.mem_cons_of_mem b List.mem_cons_self)))
  · intro a listed
    rw [← List.map_tail, ← List.map_append] at listed
    obtain ⟨c, member, rfl⟩ := List.mem_map.mp listed
    have inside : c ∈ l ++ r :=
      List.mem_append.mpr ((List.mem_append.mp member).imp_right List.mem_of_mem_tail)
    exact held.unlinked_field unlinked (listed_before inside) (by decide) (fun _ => .inl rfl) fun first =>
      absurd first (held.prev_kept member)
  · intro a listed
    rw [← List.map_dropLast, ← List.map_append] at listed
    obtain ⟨c, member, rfl⟩ := List.mem_map.mp listed
    have inside : c ∈ l ++ r :=
      List.mem_append.mpr ((List.mem_append.mp member).imp_left List.mem_of_mem_dropLast)
    exact held.unlinked_field unlinked (listed_before inside) (by decide)
      (fun last => absurd last (held.next_kept member)) fun _ => by decide

theorem Held.unlinked_block (member : c ∈ l ++ r) : BlockHeld u c := by
  have inside : c ∈ l ++ b :: r := listed_before member
  refine (held.blocks c inside).congr (held.stop_le inside) fun x about past => ?_
  have range := about.inside c.header_fits
  exact held.unlinked_byte unlinked inside range.1 range.2 (fun _ => .inr past) fun _ => by omega

theorem Held.unlinked_root : u.memRoot = ((l ++ r).map MajorBlock.address).headD null := by
  rw [unlinked.memRoot, held.root]
  cases l with
  | nil => exact if_pos rfl
  | cons a l =>
    have away := held.others (List.mem_append_left r List.mem_cons_self)
    have header := a.header_fits
    have header' := b.header_fits
    have other : a.address ≠ b.address := by omega
    exact if_neg other

theorem Held.unlinked_best : u.bestBet = null ∨ u.bestBet ∈ (l ++ r).map MajorBlock.address := by
  rw [unlinked.bestBet]
  by_cases mine : h.bestBet = b.address
  · exact .inl (if_pos mine)
  · rw [if_neg mine]
    refine held.bestBet.imp_right fun listed => ?_
    obtain ⟨c, member, there⟩ := List.mem_map.mp listed
    rcases Held.member_replaced member with rfl | other
    · exact absurd there.symm mine
    · exact there ▸ List.mem_map_of_mem other

end Unlinked

/-- The pages of `b` are free, and those of the other blocks are used as before. -/
theorem Held.freed_used (held : Held base taken h (l ++ b :: r)) (page : Nat) :
    (liballocFree base h.pages.pmm b.address b.pages).Used page ↔
      taken page ∨ ∃ c ∈ l ++ r, c.HasPage base page := by
  have here : b ∈ l ++ b :: r := List.mem_append_right l List.mem_cons_self
  rw [liballocFree_used held.higher (held.placed b here), held.used]
  constructor
  · rintro ⟨gone, others | ⟨c, member, has⟩⟩
    · exact .inl others
    · rcases Held.member_replaced member with rfl | other
      · exact absurd has gone
      · exact .inr ⟨c, other, has⟩
  · rintro (others | ⟨c, member, has⟩)
    · exact ⟨fun has => held.own b here page has others, .inl others⟩
    · refine ⟨fun own => ?_, .inr ⟨c, listed_before member, has⟩⟩
      have away := held.others member
      unfold MajorBlock.HasPage at own has
      omega

theorem inUse_remove (l r : List MajorBlock) (empty : b.minors = []) : inUse (l ++ b :: r) = inUse (l ++ r) := by
  simp only [inUse, List.flatMap_append, List.flatMap_cons, empty, List.nil_append]

theorem Held.freed_allocated (held : Held base taken h (l ++ b :: r)) :
    (h.pages.allocated + 2 ^ 64 - b.pages * pageSize) % 2 ^ 64 ≡
      Liballoc.allocated (l ++ r) [MOD 2 ^ 64] := by
  have before := held.allocated
  have bound := held.stop_le (List.mem_append_right l List.mem_cons_self)
  rw [allocated_split] at before
  unfold MajorBlock.stop at bound
  unfold Nat.ModEq at *
  omega

/-- A block without minors is taken out, and its pages go back. -/
theorem Held.remove (held : Held base taken h (l ++ b :: r)) (empty : b.minors = []) :
    Held base taken ((h.unlinkMajor b.address).returnPages base b.address) (l ++ r) := by
  have here : b ∈ l ++ b :: r := List.mem_append_right l List.mem_cons_self
  have unlinked := held.unlinked
  obtain ⟨u, same⟩ : ∃ u, u = h.unlinkMajor b.address := ⟨_, rfl⟩
  rw [← same] at unlinked ⊢
  have own := held.blocks b here
  have pages : u.get b.address majorPages = b.pages :=
    (held.unlinked_field unlinked here (by decide) (fun _ => .inr (by decide))
      fun _ => by decide).trans own.pages
  have size : u.get b.address majorSize = b.pages * pageSize :=
    (held.unlinked_field unlinked here (by decide) (fun _ => .inr (by decide))
      fun _ => by decide).trans own.size
  obtain ⟨v, returned⟩ : ∃ v, v = u.returnPages base b.address := ⟨_, rfl⟩
  rw [← returned]
  have memory : v.memory = u.memory := by rw [returned, Heap.returnPages]
  have root : v.memRoot = u.memRoot := by rw [returned, Heap.returnPages]
  have best : v.bestBet = u.bestBet := by rw [returned, Heap.returnPages]
  have inuse : v.inuse = h.inuse := by rw [returned, Heap.returnPages, unlinked.inuse]
  have pmm : v.pages.pmm = liballocFree base h.pages.pmm b.address b.pages := by
    rw [returned, Heap.returnPages, pages, unlinked.pages]
  have bytes : v.pages.allocated = (h.pages.allocated + 2 ^ 64 - b.pages * pageSize) % 2 ^ 64 := by
    rw [returned, Heap.returnPages, size, unlinked.pages]
  have total : v.pages.pmm.totalPages = h.pages.pmm.totalPages := by
    rw [pmm, liballocFree, pmmFreePages, clearPages_totalPages]
  refine ⟨⟨held.higher.positive, total ▸ held.higher.fits⟩, ?_, ?_, ?_, ?_, ?_, ?_, ?_, ?_, ?_, ?_⟩
  · exact root.trans (held.unlinked_root unlinked)
  · rw [List.map_append]
    have get : ∀ p f, v.get p f = u.get p f := fun p f => congrArg (load32 · (p + f)) memory
    exact (held.unlinked_linked unlinked).congr (fun a _ => get a majorPrev) fun a _ => get a majorNext
  · intro c member
    have fits := held.stop_le (listed_before member)
    exact (held.unlinked_block unlinked member).congr fits fun x _ _ => congrFun memory x
  · intro c member
    have placed := held.placed c (listed_before member)
    exact ⟨placed.aligned, total ▸ placed.fits⟩
  · exact held.apart.sublist (List.Sublist.append_left (List.sublist_cons_self b r) l)
  · intro page
    rw [pmm]
    exact held.freed_used page
  · exact fun c member => held.own c (listed_before member)
  · rw [best]
    exact held.unlinked_best unlinked
  · rw [inuse, ← inUse_remove l r empty]
    exact held.inuse
  · rw [bytes]
    exact held.freed_allocated

/-- What `kfree` leaves of a heap with the minor `m`. -/
structure Freed (base : Nat) (taken : Nat → Prop) (h h' : Heap) (bs bs' : List MajorBlock) (m : Minor) : Prop where
  removes : Removes m bs bs'
  held : Held base taken h' bs'
  outside : Outside bs h h'
  quiet : Quiet h h'
  magic : h'.get m.address minorMagic = liballocDead
  body : ∀ x, m.address + 24 ≤ x → x < m.address + m.size + 24 → h'.memory x = h.memory x

/-- Unlinking only changes bytes about the other blocks. -/
theorem Held.unlinked_outside (held : Held base taken h (l ++ b :: r)) :
    Outside (l ++ b :: r) h (h.unlinkMajor b.address) := by
  intro x aside
  refine held.unlinked.others x (fun some => ?_) (fun some => ?_)
  · obtain ⟨c, listed, there⟩ := lastBlock_some some
    by_contra inside
    exact aside c (List.mem_append_left _ listed) (.inl (by omega))
  · obtain ⟨c, listed, there⟩ := headBlock_some some
    by_contra inside
    exact aside c (List.mem_append_right l (List.mem_cons_of_mem b listed)) (.inl (by omega))

/-- Taking a minor out only changes bytes about its block, and none of its own behind the header. -/
theorem Detached.outside (split : b.minors = xs ++ m :: ys)
    (detached : Detached h h' b.address (lastAddress xs) m.address (headAddress ys) m.size)
    (member : b ∈ bs) : Outside bs h h' := by
  intro x aside
  have around : Around h h' (b.erase split).address (lastAddress xs) m.address (headAddress ys) := detached.around
  refine around.outside (erase_gap split) ?_
  rw [erase_insert split]
  exact aside b member

theorem Detached.body (split : b.minors = xs ++ m :: ys)
    (detached : Detached h h' b.address (lastAddress xs) m.address (headAddress ys) m.size)
    {x : Nat} (low : m.address + 24 ≤ x) (high : x < m.address + m.size + 24) : h'.memory x = h.memory x := by
  have gap := erase_gap split
  obtain ⟨above, below, _⟩ := gap.own
  change b.address + 24 ≤ m.address at above
  refine detached.others x ⟨by omega, by omega, fun some => ?_, fun some => ?_⟩ (by omega)
  · obtain ⟨z, member, there⟩ := lastAddress_some some
    have place := gap.before z member
    omega
  · obtain ⟨z, member, there⟩ := headAddress_some some
    have place := gap.behind z member
    omega

theorem returnPages_memory (h : Heap) (base maj : Nat) : (h.returnPages base maj).memory = h.memory := by
  rw [Heap.returnPages]

theorem returnPages_pages (h : Heap) (base maj : Nat) : ∃ allocated pmm,
    h.returnPages base maj = { h with pages := ⟨pmm, allocated, h.pages.warningCount⟩ } :=
  ⟨(h.pages.allocated + 2 ^ 64 - h.get maj majorSize) % 2 ^ 64,
    liballocFree base h.pages.pmm maj (h.get maj majorPages), rfl⟩

theorem returnPages_quiet (h : Heap) (base maj : Nat) : Quiet h (h.returnPages base maj) := by
  obtain ⟨allocated, pmm, returned⟩ := returnPages_pages h base maj
  rw [returned]
  exact ⟨rfl, rfl, rfl⟩

theorem erase_meta (split : b.minors = xs ++ m :: ys) {x : Nat} (about : (b.erase split).Meta x) : b.Meta x := by
  have more := insert_meta (erase_gap split) about
  rwa [erase_insert split] at more

theorem release_freed (held : Held base taken h bs) (member : b ∈ bs) (own : m ∈ b.minors) :
    ∃ bs', Freed base taken h (h.release base m.address) bs bs' m := by
  obtain ⟨l, r, rfl⟩ := List.append_of_mem member
  obtain ⟨xs, ys, split⟩ := List.append_of_mem own
  have block := held.blocks b member
  have fits := held.stop_le member
  have place := b.inside own
  have detached := block.detached split fits
  have owner := (block.minors m own).owner
  have erased := held.erase split detached
  have kept := detached.kept
  have memberErased : b.erase split ∈ l ++ b.erase split :: r := List.mem_append_right l List.mem_cons_self
  have first : (h.detach m.address).get b.address majorFirst = ((xs ++ ys).map Minor.address).headD null :=
    (erased.blocks (b.erase split) memberErased).first
  have addressed : ∀ z ∈ xs ++ ys, z.address ≠ null := by
    intro z member
    have inside := (b.erase split).inside (m := z) member
    unfold null
    omega
  have outside₁ : Outside (l ++ b :: r) h (h.detach m.address) := detached.outside split member
  have quiet₁ := detached.kept.quiet
  have body₁ : ∀ x, m.address + 24 ≤ x → x < m.address + m.size + 24 →
      (h.detach m.address).memory x = h.memory x := fun x low high => detached.body split low high
  have address : (b.erase split).address = b.address := rfl
  rw [Heap.release_eq, owner, first, ← address]
  by_cases last : xs ++ ys = []
  · obtain ⟨rfl, rfl⟩ := List.append_eq_nil_iff.mp last
    have none : ((([] : List Minor) ++ []).map Minor.address).headD null = null := rfl
    rw [if_pos none]
    have removed := erased.remove rfl
    have quiet₂ : Quiet (h.detach m.address) ((h.detach m.address).unlinkMajor (b.erase split).address) :=
      ⟨erased.unlinked.errorCount, erased.unlinked.possibleOverruns,
        congrArg HeapState.warningCount erased.unlinked.pages⟩
    have outside₂ := erased.unlinked_outside
    have body₂ := fun x => erased.unlinked_byte (x := x) erased.unlinked memberErased
    refine ⟨l ++ r, .block l r b split, removed, ?_, ?_, ?_, ?_⟩
    · intro x aside
      rw [returnPages_memory]
      refine (outside₂ x fun c listed about => ?_).trans (outside₁ x aside)
      rcases Held.member_replaced listed with rfl | other
      · exact aside b member (erase_meta split about)
      · exact aside c (List.mem_append.mpr ((List.mem_append.mp other).imp_right (List.mem_cons_of_mem b))) about
    · exact (quiet₁.trans quiet₂).trans (returnPages_quiet _ _ _)
    · rw [← detached.magic]
      refine Heap.get_congr (by unfold minorMagic; omega) fun x low high => ?_
      rw [returnPages_memory]
      exact body₂ x (by change b.address ≤ x; omega) (by change x < b.stop; unfold minorMagic at *; omega)
        (fun _ => .inr (by change b.address + 8 ≤ x; omega)) fun _ => by change b.address + 4 ≤ x; omega
    · intro x low high
      rw [returnPages_memory, ← body₁ x low high]
      exact body₂ x (by change b.address ≤ x; omega) (by change x < b.stop; omega)
        (fun _ => .inr (by change b.address + 8 ≤ x; omega)) fun _ => by change b.address + 4 ≤ x; omega
  · have some : ((xs ++ ys).map Minor.address).headD null ≠ null := by
      cases both : xs ++ ys with
      | nil => exact absurd both last
      | cons z zs => exact addressed z (both ▸ List.mem_cons_self)
    rw [if_neg some]
    refine ⟨_, .inside l r b xs ys split last, erased.rebet memberErased, ?_, ?_, ?_, ?_⟩
    · intro x aside
      rw [rebet_memory]
      exact outside₁ x aside
    · exact quiet₁.trans (rebet_quiet _ _)
    · exact (congrArg (load32 · (m.address + minorMagic)) (rebet_memory _ _)).trans detached.magic
    · intro x low high
      exact (congrFun (rebet_memory _ _) x).trans (body₁ x low high)

end Laomb.Liballoc
