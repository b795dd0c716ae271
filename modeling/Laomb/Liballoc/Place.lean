import Laomb.Liballoc.Words

/-! The four ways in which `kmalloc` puts a `liballoc_minor` into a block: what is written, and
that nothing else is. -/
namespace Laomb.Liballoc
open Word PMM Libc

/-- Everything but the memory, the flag and the number of bytes in use. -/
structure Kept (h h' : Heap) : Prop where
  pages : h'.pages = h.pages
  memRoot : h'.memRoot = h.memRoot
  bestBet : h'.bestBet = h.bestBet
  errorCount : h'.errorCount = h.errorCount
  possibleOverruns : h'.possibleOverruns = h.possibleOverruns

theorem Kept.refl (h : Heap) : Kept h h := ⟨rfl, rfl, rfl, rfl, rfl⟩

/-- A place for a header at `new` in the block `maj`, between the headers `prev` and `next` or null
pointers. -/
structure Room (maj prev new next : Nat) : Prop where
  low : maj + 24 ≤ new
  high : new + 56 ≤ 2 ^ 32
  before : prev ≠ null → maj + 24 ≤ prev ∧ prev + 24 ≤ new
  after : next ≠ null → new + 56 ≤ next ∧ next + 24 ≤ 2 ^ 32

/-- The byte is in none of the words that a new header's place and links take. -/
structure Aside (maj prev new next x : Nat) : Prop where
  header : x < new ∨ new + 24 ≤ x
  first : x < maj + 20 ∨ maj + 24 ≤ x
  before : prev ≠ null → x < prev + 4 ∨ prev + 8 ≤ x
  after : next ≠ null → x < next ∨ next + 4 ≤ x

/-- A header for `size` bytes at `new` is written and linked. -/
structure Headed (h h' : Heap) (maj prev new next size reqSize : Nat) : Prop where
  prevs : h'.get new minorPrev = prev
  nexts : h'.get new minorNext = next
  owner : h'.get new minorBlock = maj
  magic : h'.get new minorMagic = liballocMagic
  sized : h'.get new minorSize = size
  requested : h'.get new minorReqSize = reqSize
  first : h'.get maj majorFirst = if prev = null then new else h.get maj majorFirst
  before : prev ≠ null → h'.get prev minorNext = new
  after : next ≠ null → h'.get next minorPrev = new
  others : ∀ x, Aside maj prev new next x → h'.memory x = h.memory x
  kept : Kept h h'
  inuse : h'.inuse = h.inuse

/-- Nothing changes but a header at `new`, its place and links, the byte in front of its pointer and
the usage of its block. -/
def Around (h h' : Heap) (maj prev new next : Nat) : Prop :=
  ∀ x, Aside maj prev new next x → x ≠ userPtr new - alignInfo → (x < maj + 16 ∨ maj + 20 ≤ x) →
    h'.memory x = h.memory x

/-- The header, the space that it takes from the block, and the byte in front of the pointer that
is handed out. -/
structure Inserted (h h' : Heap) (maj prev new next size reqSize : Nat) : Prop where
  prevs : h'.get new minorPrev = prev
  nexts : h'.get new minorNext = next
  owner : h'.get new minorBlock = maj
  magic : h'.get new minorMagic = liballocMagic
  sized : h'.get new minorSize = size
  requested : h'.get new minorReqSize = reqSize
  first : h'.get maj majorFirst = if prev = null then new else h.get maj majorFirst
  before : prev ≠ null → h'.get prev minorNext = new
  after : next ≠ null → h'.get next minorPrev = new
  info : h'.memory (userPtr new - alignInfo) = BitVec.ofNat 8 (userPtr new - (new + sizeofMinor))
  usage : h'.get maj majorUsage = u32 (h.get maj majorUsage + u32 (size + sizeofMinor))
  others : Around h h' maj prev new next
  kept : Kept h h'
  inuse : h'.inuse = (h.inuse + size) % 2 ^ 64

variable {h h₁ : Heap} {maj prev new next size reqSize min p f : Nat}

theorem handOut_eq (h : Heap) (fits : min + 56 ≤ 2 ^ 32) : h.handOut min = (userPtr min, { h with
    memory := Function.update h.memory (userPtr min - alignInfo) (BitVec.ofNat 8 (userPtr min - (min + sizeofMinor)))
    interrupts := h.interrupts.sti }) := by
  rw [Heap.handOut, h.align_eq fits]
  rfl

theorem account_get (h : Heap) :
    (h.account maj size).get maj majorUsage = u32 (h.get maj majorUsage + u32 (size + sizeofMinor)) :=
  h.get_set maj majorUsage (u32_lt _)

theorem account_first (h : Heap) (fits : maj + 24 ≤ 2 ^ 32) :
    (h.account maj size).get maj majorFirst = h.get maj majorFirst :=
  Heap.get_set_field fits h majorFirst majorUsage _ (by decide) (by decide) (by decide)

theorem account_memory (h : Heap) {x : Nat} (fits : maj + 24 ≤ 2 ^ 32) (apart : x < maj + 16 ∨ maj + 20 ≤ x) :
    (h.account maj size).memory x = h.memory x :=
  h.set_memory (by unfold majorUsage; omega) (by unfold majorUsage; omega)

/-- Taking the space and handing out the pointer leave the links alone. -/
theorem Headed.handOut (headed : Headed h h₁ maj prev new next size reqSize) (room : Room maj prev new next) :
    ∃ h', (h₁.account maj size).handOut new = (userPtr new, h') ∧
      Inserted h h' maj prev new next size reqSize := by
  obtain ⟨low, high, _⟩ := userPtr_bounds new
  obtain ⟨above, fits, before, after⟩ := room
  refine ⟨_, handOut_eq _ fits, ?_⟩
  set h' : Heap := { h₁.account maj size with
    memory := Function.update (h₁.account maj size).memory (userPtr new - alignInfo)
      (BitVec.ofNat 8 (userPtr new - (new + sizeofMinor)))
    interrupts := (h₁.account maj size).interrupts.sti } with handed
  have byte : ∀ x, x ≠ userPtr new - alignInfo → (x < maj + 16 ∨ maj + 20 ≤ x) → h'.memory x = h₁.memory x :=
    fun x other apart => (Function.update_of_ne other _ _).trans (account_memory h₁ (by omega) apart)
  have field : ∀ p f, p + f + 4 ≤ 2 ^ 32 → (p + f + 4 ≤ new + 24 ∨ new + 40 ≤ p + f) →
      (p + f + 4 ≤ maj + 16 ∨ maj + 20 ≤ p + f) → h'.get p f = h₁.get p f := by
    intro p f room aside apart
    exact Heap.get_congr room fun x _ _ => byte x (by unfold alignInfo; omega) (by omega)
  have own : ∀ f ≤ 20, h'.get new f = h₁.get new f := fun f _ =>
    field new f (by omega) (by omega) (by omega)
  refine ⟨?_, ?_, ?_, ?_, ?_, ?_, ?_, ?_, ?_, ?_, ?_, ?_, ?_, ?_⟩
  · exact (own _ (by decide)).trans headed.prevs
  · exact (own _ (by decide)).trans headed.nexts
  · exact (own _ (by decide)).trans headed.owner
  · exact (own _ (by decide)).trans headed.magic
  · exact (own _ (by decide)).trans headed.sized
  · exact (own _ (by decide)).trans headed.requested
  · have same : h'.get maj majorFirst = h₁.get maj majorFirst := by
      apply field <;> unfold majorFirst <;> omega
    exact same.trans headed.first
  · intro some
    have place := before some
    have same : h'.get prev minorNext = h₁.get prev minorNext := by
      apply field <;> unfold minorNext <;> omega
    exact same.trans (headed.before some)
  · intro some
    have place := after some
    have same : h'.get next minorPrev = h₁.get next minorPrev := by
      apply field <;> unfold minorPrev <;> omega
    exact same.trans (headed.after some)
  · exact Function.update_self ..
  · have same : h'.get maj majorUsage = (h₁.account maj size).get maj majorUsage := by
      refine Heap.get_congr (by unfold majorUsage; omega) fun x low' high' => Function.update_of_ne ?_ _ _
      unfold majorUsage at high'
      unfold alignInfo
      omega
    have kept : h₁.get maj majorUsage = h.get maj majorUsage := by
      refine Heap.get_congr (by unfold majorUsage; omega) fun x low' high' => headed.others x ?_
      unfold majorUsage at low' high'
      exact ⟨by omega, by omega, fun some => by have := before some; omega, fun some => by have := after some; omega⟩
    rw [same, account_get, kept]
  · exact fun x aside other apart => (byte x other apart).trans (headed.others x aside)
  · have kept := headed.kept
    exact ⟨kept.pages, kept.memRoot, kept.bestBet, kept.errorCount, kept.possibleOverruns⟩
  · change (h₁.inuse + size) % 2 ^ 64 = _
    rw [headed.inuse]

variable (maj min) in
/-- CASE 4.1: behind the last header. -/
theorem lastMinor_inserted (h : Heap) (here : new = min + sizeofMinor + h.get min minorSize)
    (room : Room maj min new null) (some : min ≠ null) (sized : size < 2 ^ 32) (req : reqSize < 2 ^ 32) :
    ∃ h', h.lastMinor maj size reqSize min = (userPtr new, h') ∧
      Inserted h h' maj min new null size reqSize := by
  have above := room.low
  have fits := room.high
  have between := room.before some
  simp only [sizeofMinor, minorSize] at here
  have place : u32 (min + sizeofMinor + h.get min minorSize) = new := by
    unfold sizeofMinor u32 minorSize
    omega
  have fieldNew := Heap.get_set_field (p := new) (by omega)
  have atMin := Heap.get_set_header (p := min) (q := new) (by omega) (by omega) (by omega)
  have atMaj := Heap.get_set_header (p := maj) (q := new) (by omega) (by omega) (by omega)
  have atMaj' := Heap.get_set_header (p := maj) (q := min) (by omega) (by omega) (by omega)
  have first : (h.set min minorNext new).get min minorNext = new := h.get_set _ _ (by omega)
  have second : ((h.set min minorNext new).set new minorPrev min).get min minorNext = new :=
    (atMin _ _ _ _ (by decide) (by decide)).trans first
  rw [Heap.lastMinor]
  simp only [place, first, second]
  refine Headed.handOut (h := h) ?_ room
  simp only [minorPrev, minorNext, minorBlock, minorMagic, minorSize, minorReqSize]
  have magic : liballocMagic < 2 ^ 32 := by decide
  have zero : null < 2 ^ 32 := by decide
  refine ⟨?_, ?_, ?_, ?_, ?_, ?_, ?_, ?_, ?_, ?_, ?_, ?_⟩
  · simp (disch := omega) only [minorPrev, Heap.get_set, fieldNew]
  · simp (disch := omega) only [minorNext, Heap.get_set, fieldNew]
  · simp (disch := omega) only [minorBlock, Heap.get_set, fieldNew]
  · simp (disch := omega) only [minorMagic, Heap.get_set, fieldNew]
  · simp (disch := omega) only [minorSize, Heap.get_set, fieldNew]
  · simp (disch := omega) only [minorReqSize, Heap.get_set]
  · simp (disch := omega) only [majorFirst, if_neg some, atMaj, atMaj']
  · intro _
    simp (disch := omega) only [minorNext, atMin, Heap.get_set]
  · exact fun some => absurd rfl some
  · intro x aside
    have ⟨header, _, before, _⟩ := aside
    have before := before some
    simp (disch := omega) only [Heap.set_memory]
  · exact ⟨rfl, rfl, rfl, rfl, rfl⟩
  · rfl

variable (maj new) in
/-- CASE 2: the only header of its block. -/
theorem firstMinor_inserted (h : Heap) (here : new = maj + sizeofMajor) (room : Room maj null new null)
    (sized : size < 2 ^ 32) (req : reqSize < 2 ^ 32) :
    ∃ h', h.firstMinor maj size reqSize = (userPtr new, h') ∧
      Inserted h h' maj null new null size reqSize := by
  have fits := room.high
  have place : u32 (maj + sizeofMajor) = new := by
    rw [← here]
    exact u32_of_lt (by omega)
  unfold sizeofMajor at here
  have fieldNew := Heap.get_set_field (p := new) (by omega)
  have atMaj := Heap.get_set_header (p := maj) (q := new) (by omega) (by omega) (by omega)
  have account : ∀ h : Heap, (h.account maj size).get maj 20 = h.get maj 20 := fun h =>
    account_first h (by omega)
  have first : (h.set maj majorFirst new).get maj majorFirst = new := h.get_set _ _ (by omega)
  have magic : liballocMagic < 2 ^ 32 := by decide
  have zero : null < 2 ^ 32 := by decide
  rw [Heap.firstMinor]
  simp only [minorPrev, minorNext, minorBlock, minorMagic, minorSize, minorReqSize, majorFirst] at first ⊢
  simp (disch := omega) only [place, account, atMaj, first]
  refine Headed.handOut (h := h) ?_ room
  refine ⟨?_, ?_, ?_, ?_, ?_, ?_, ?_, ?_, ?_, ?_, ?_, ?_⟩
  · simp (disch := omega) only [minorPrev, Heap.get_set, fieldNew]
  · simp (disch := omega) only [minorNext, Heap.get_set, fieldNew]
  · simp (disch := omega) only [minorBlock, Heap.get_set, fieldNew]
  · simp (disch := omega) only [minorMagic, Heap.get_set, fieldNew]
  · simp (disch := omega) only [minorSize, Heap.get_set, fieldNew]
  · simp (disch := omega) only [minorReqSize, Heap.get_set]
  · simp (disch := omega) only [majorFirst, if_true, atMaj, first]
  · exact fun some => absurd rfl some
  · exact fun some => absurd rfl some
  · intro x aside
    have ⟨header, first, _, _⟩ := aside
    simp (disch := omega) only [Heap.set_memory]
  · exact ⟨rfl, rfl, rfl, rfl, rfl⟩
  · rfl

variable (maj new) in
/-- CASE 3: in front of the first header. -/
theorem frontMinor_inserted (h : Heap) (here : new = maj + sizeofMajor) (old : h.get maj majorFirst = next)
    (room : Room maj null new next) (some : next ≠ null) (sized : size < 2 ^ 32) (req : reqSize < 2 ^ 32) :
    ∃ h', h.frontMinor maj size reqSize = (userPtr new, h') ∧
      Inserted h h' maj null new next size reqSize := by
  have fits := room.high
  have behind := room.after some
  have place : u32 (maj + sizeofMajor) = new := by
    rw [← here]
    exact u32_of_lt (by omega)
  unfold sizeofMajor at here
  have fieldNew := Heap.get_set_field (p := new) (by omega)
  have fieldNext := Heap.get_set_field (p := next) (by omega)
  have atMaj := Heap.get_set_header (p := maj) (q := new) (by omega) (by omega) (by omega)
  have atMaj' := Heap.get_set_header (p := maj) (q := next) (by omega) (by omega) (by omega)
  have atNext := Heap.get_set_header (p := next) (q := new) (by omega) (by omega) (by omega)
  have atNext' := Heap.get_set_header (p := next) (q := maj) (by omega) (by omega) (by omega)
  have atNew := Heap.get_set_header (p := new) (q := maj) (by omega) (by omega) (by omega)
  have account : ∀ h : Heap, (h.account maj size).get maj 20 = h.get maj 20 := fun h =>
    account_first h (by omega)
  have magic : liballocMagic < 2 ^ 32 := by decide
  have zero : null < 2 ^ 32 := by decide
  rw [Heap.frontMinor]
  simp only [minorPrev, minorNext, minorBlock, minorMagic, minorSize, minorReqSize, majorFirst] at old ⊢
  simp (disch := omega) only [place, account, atMaj, atMaj', atNext, old, Heap.get_set]
  refine Headed.handOut (h := h) ?_ room
  refine ⟨?_, ?_, ?_, ?_, ?_, ?_, ?_, ?_, ?_, ?_, ?_, ?_⟩
  · simp (disch := omega) only [minorPrev, Heap.get_set, fieldNew]
  · simp (disch := omega) only [minorNext, Heap.get_set, fieldNew, atNew]
  · simp (disch := omega) only [minorBlock, Heap.get_set, fieldNew]
  · simp (disch := omega) only [minorMagic, Heap.get_set, fieldNew]
  · simp (disch := omega) only [minorSize, Heap.get_set, fieldNew]
  · simp (disch := omega) only [minorReqSize, Heap.get_set]
  · simp (disch := omega) only [majorFirst, if_true, atMaj, Heap.get_set]
  · exact fun some => absurd rfl some
  · intro _
    simp (disch := omega) only [minorPrev, atNext, atNext', Heap.get_set]
  · intro x aside
    have ⟨header, first, _, after⟩ := aside
    have after := after some
    simp (disch := omega) only [Heap.set_memory]
  · exact ⟨rfl, rfl, rfl, rfl, rfl⟩
  · rfl

variable (maj min) in
/-- CASE 4.2: between two headers. -/
theorem betweenMinors_inserted (h : Heap) (here : new = min + sizeofMinor + h.get min minorSize)
    (old : h.get min minorNext = next) (room : Room maj min new next) (some : min ≠ null)
    (some' : next ≠ null) (sized : size < 2 ^ 32) (req : reqSize < 2 ^ 32) :
    ∃ h', h.betweenMinors maj size reqSize min = (userPtr new, h') ∧
      Inserted h h' maj min new next size reqSize := by
  have above := room.low
  have fits := room.high
  have between := room.before some
  have behind := room.after some'
  simp only [sizeofMinor, minorSize] at here
  have place : u32 (min + sizeofMinor + h.get min minorSize) = new := by
    unfold sizeofMinor u32 minorSize
    omega
  have fieldNew := Heap.get_set_field (p := new) (by omega)
  have atMin := Heap.get_set_header (p := min) (q := new) (by omega) (by omega) (by omega)
  have atMin' := Heap.get_set_header (p := min) (q := next) (by omega) (by omega) (by omega)
  have atNext := Heap.get_set_header (p := next) (q := min) (by omega) (by omega) (by omega)
  have atNew := Heap.get_set_header (p := new) (q := min) (by omega) (by omega) (by omega)
  have atNew' := Heap.get_set_header (p := new) (q := next) (by omega) (by omega) (by omega)
  have atMaj := Heap.get_set_header (p := maj) (q := new) (by omega) (by omega) (by omega)
  have atMaj' := Heap.get_set_header (p := maj) (q := next) (by omega) (by omega) (by omega)
  have atMaj'' := Heap.get_set_header (p := maj) (q := min) (by omega) (by omega) (by omega)
  have magic : liballocMagic < 2 ^ 32 := by decide
  rw [Heap.betweenMinors]
  simp only [place]
  simp only [minorPrev, minorNext, minorBlock, minorMagic, minorSize, minorReqSize] at old ⊢
  simp (disch := omega) only [atMin, old]
  refine Headed.handOut (h := h) ?_ room
  refine ⟨?_, ?_, ?_, ?_, ?_, ?_, ?_, ?_, ?_, ?_, ?_, ?_⟩
  · simp (disch := omega) only [minorPrev, Heap.get_set, fieldNew, atNew, atNew']
  · simp (disch := omega) only [minorNext, Heap.get_set, fieldNew, atNew, atNew']
  · simp (disch := omega) only [minorBlock, Heap.get_set, atNew, atNew']
  · simp (disch := omega) only [minorMagic, Heap.get_set, fieldNew, atNew, atNew']
  · simp (disch := omega) only [minorSize, Heap.get_set, fieldNew, atNew, atNew']
  · simp (disch := omega) only [minorReqSize, Heap.get_set, fieldNew, atNew, atNew']
  · simp (disch := omega) only [majorFirst, if_neg some, atMaj, atMaj', atMaj'']
  · intro _
    exact Heap.get_set _ _ _ (by omega)
  · intro _
    simp (disch := omega) only [minorPrev, atNext, Heap.get_set]
  · intro x aside
    have ⟨header, _, before, after⟩ := aside
    have before := before some
    have after := after some'
    simp (disch := omega) only [Heap.set_memory]
  · exact ⟨rfl, rfl, rfl, rfl, rfl⟩
  · rfl

end Laomb.Liballoc
