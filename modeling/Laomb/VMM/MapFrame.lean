import Laomb.VMM.MapRange
import Mathlib.Data.List.Sort

/-! What `vmm_map_page` does outside its range. Tables that were there keep their pages, but
a new table is a recycled frame that nobody clears: whatever it held becomes mappings. -/
namespace Laomb.VMM
open PMM Word FirstFit

variable {p q : Pmm} {m m' m₁ m₂ : Machine} {dir n w t i count paddr flags : Nat} {done : Bool}
  {present : Nat → Bool}

/-- The translation of an address: its physical page, whether it is writable and whether
user code reaches it. -/
def Machine.translate (m : Machine) (dir vaddr : Nat) : Option (Nat × Bool × Bool) :=
  match m.look dir vaddr with
  | none => none
  | some (pageDirEntry, pageEntry) =>
    if pageEntry.present then
      some (pageEntry.address.toNat, pageDirEntry.readwrite && pageEntry.readwrite,
        pageDirEntry.user && pageEntry.user)
    else none

/-- The page starts in the `size` bytes from `vaddr` on. -/
def InRange (vaddr size page : Nat) : Prop :=
  ∃ k, k * pageSize < size ∧ page * pageSize = u32 (vaddr + k * pageSize)

/-- The pages outside the range are translated as before. -/
def ChangesNothingElse (m : Machine) (dir vaddr size paddr flags : Nat) : Prop :=
  ∀ page < 2 ^ 20, ¬ InRange vaddr size page →
    (m.vmmMapPage id dir vaddr size paddr flags).2.translate dir (page * pageSize) =
      m.translate dir (page * pageSize)

/-- The entries of the directory that `count` pages from `page` on have to link, in order. -/
def newTables (present : Nat → Bool) : (count page : Nat) → List Nat
  | 0, _ => []
  | count + 1, page =>
    if present (page / 1024) then newTables present count ((page + 1) % 2 ^ 20)
    else page / 1024 ::
      newTables (Function.update present (page / 1024) true) count ((page + 1) % 2 ^ 20)

/-- The free pages, lowest first. -/
def freePages (p : Pmm) : List Nat := (List.range p.totalPages).filter fun page => p.Free page

/-- The frames that become tables one after another: the free pages, unless the null page
is the first of them. -/
def handable (p : Pmm) : List Nat := (freePages p).takeWhile (· ≠ 0)

/-- Each frame that has to become a table holds no present entry but for pages of the range. -/
def CleanFrames (m : Machine) (dir vaddr size : Nat) : Prop :=
  ∀ entry ∈ (newTables (fun i => (m.frames dir i).present) (roundUpToPage size / pageSize)
      (vaddr / pageSize)).zip (handable m.pmm),
    ∀ slot < 1024, ¬ InRange vaddr size (entry.1 * 1024 + slot) →
      (m.frames entry.2 slot).present = false

theorem mem_freePages {page : Nat} : page ∈ freePages p ↔ page < p.totalPages ∧ p.Free page := by
  simp only [freePages, List.mem_filter, List.mem_range, decide_eq_true_eq]

theorem freePages_sorted (p : Pmm) : (freePages p).Pairwise (· < ·) := List.pairwise_lt_range.filter _

theorem freePages_cons (first : First p.Free p.totalPages 1 t) (total : q.totalPages = p.totalPages)
    (taken : ∀ page, q.Used page ↔ page = t ∨ p.Used page) : freePages p = t :: freePages q := by
  obtain ⟨low, free⟩ := runAt_one.mp first.fits
  have fewer : ∀ page, q.Free page ↔ page ≠ t ∧ p.Free page :=
    fun page => (not_congr (taken page)).trans not_or
  refine List.Pairwise.eq_of_mem_iff (freePages_sorted p) (List.pairwise_cons.mpr ⟨?_, freePages_sorted q⟩) ?_
  · intro page member
    obtain ⟨below, unused⟩ := mem_freePages.mp member
    obtain ⟨other, unused⟩ := (fewer page).mp unused
    by_contra early
    exact first.least page (by omega) (runAt_one.mpr ⟨by omega, unused⟩)
  · intro page
    rw [List.mem_cons, mem_freePages, mem_freePages, total, fewer]
    constructor
    · rintro ⟨below, unused⟩
      by_cases same : page = t
      · exact .inl same
      · exact .inr ⟨below, same, unused⟩
    · rintro (rfl | ⟨below, _, unused⟩)
      · exact ⟨low, free⟩
      · exact ⟨below, unused⟩

theorem handable_cons (nonnull : t ≠ 0) (first : First p.Free p.totalPages 1 t)
    (total : q.totalPages = p.totalPages) (taken : ∀ page, q.Used page ↔ page = t ∨ p.Used page) :
    handable p = t :: handable q := by
  rw [handable, freePages_cons first total taken, List.takeWhile_cons_of_pos (by simpa using nonnull)]
  rfl

theorem handable_nil (none : ∀ t, First p.Free p.totalPages 1 t → t = 0) : handable p = [] := by
  cases pages : freePages p with
  | nil =>
    rw [handable, pages]
    rfl
  | cons page rest =>
    have sorted := freePages_sorted p
    have listed : ∀ other, other ∈ page :: rest ↔ other < p.totalPages ∧ p.Free other := by
      intro other
      rw [← pages, mem_freePages]
    rw [pages] at sorted
    have first : First p.Free p.totalPages 1 page := by
      refine ⟨runAt_one.mpr ((listed page).mp List.mem_cons_self), fun other less run => ?_⟩
      rcases List.mem_cons.mp ((listed other).mpr (runAt_one.mp run)) with same | later
      · omega
      · have above := (List.pairwise_cons.mp sorted).1 other later
        omega
    rw [handable, pages, List.takeWhile_cons_of_neg (by simpa using none page first)]

theorem handable_free (member : t ∈ handable p) : p.Free t :=
  (mem_freePages.mp ((List.takeWhile_prefix _).subset member)).2

theorem newTables_absent (member : i ∈ newTables present count n) : present i = false := by
  induction count generalizing present n with
  | zero => exact absurd member List.not_mem_nil
  | succ count ih =>
    rw [newTables] at member
    split at member
    · exact ih member
    · rename_i absent
      rcases List.mem_cons.mp member with rfl | later
      · simpa using absent
      · have before := ih later
        by_cases here : i = n / 1024
        · rw [here]
          simpa using absent
        · rwa [Function.update_of_ne here] at before

/-- The pairs of an entry and the frame that it is linked to. -/
abbrev linkings (m : Machine) (dir count n : Nat) : List (Nat × Nat) :=
  (newTables (fun i => (m.frames dir i).present) count n).zip (handable m.pmm)

/-- What is found after the call for a page outside the range without a table before: the
slot of the frame that was linked, if one was. -/
structure Recycles (m m' : Machine) (dir count n w : Nat) : Prop where
  linked : ∀ t, (w / 1024, t) ∈ linkings m dir count n →
    ∃ e, m'.look dir (w * pageSize) = some (e, m.frames t (w % 1024))
  absent : (∀ t, (w / 1024, t) ∉ linkings m dir count n) → m'.look dir (w * pageSize) = none

/-- The presence bits after a linking. -/
theorem linking_row (fits : m.pmm.totalPages ≤ 2 ^ 20) (bound : i < 1024)
    (linking : Linking m dir i (true, m')) :
    (fun j => (m'.frames dir j).present) = Function.update (fun j => (m.frames dir j).present) i true := by
  obtain ⟨t, links⟩ := linking_links fits bound linking
  funext j
  by_cases here : j = i
  · subst here
    rw [Function.update_self]
    exact links.present
  · rw [Function.update_of_ne here]
    cases before : (m.frames dir j).present with
    | false => exact absent_kept linking here before
    | true =>
      by_contra lost
      have absent := absent_before linking (by simpa using lost)
      exact absurd (before.symm.trans absent) (by decide)

/-- The list of linkings after one page: the one that was made for it is gone. -/
theorem linkings_succ (count : Nat) (fits : m.pmm.totalPages ≤ 2 ^ 20) (bound : n / 1024 < 1024)
    (page : PageMapped m dir n paddr flags m₁ m₂ t) :
    (¬ m.absent dir (n / 1024) ∧
        linkings m dir (count + 1) n = linkings m₂ dir count ((n + 1) % 2 ^ 20)) ∨
      (m.absent dir (n / 1024) ∧
        linkings m dir (count + 1) n = (n / 1024, t) :: linkings m₂ dir count ((n + 1) % 2 ^ 20)) := by
  have row := linking_row fits bound page.linking
  have apart := (page.linked.used _ t page.links).2
  have same : (fun j => (m₂.frames dir j).present) =
      Function.update (fun j => (m.frames dir j).present) (n / 1024) true := by
    rw [← row, page.set, setPage_put _ _ page.links]
    funext j
    rw [Machine.put_frames, if_neg fun h => apart h.1.symm]
  rw [linkings, linkings, newTables, same, page.pmm]
  cases page.linking with
  | kept present =>
    refine .inl ⟨by simp [present], ?_⟩
    rw [if_pos present, ← present, Function.update_eq_self]
  | added t' q absent nonnull first total taken =>
    refine .inr ⟨absent, ?_⟩
    have table : t = t' := by
      rcases Distinct.added_links fits first page.links with ⟨_, same⟩ | ⟨other, _⟩
      · exact same
      · exact absurd rfl other
    rw [if_neg (by simp [absent]), handable_cons nonnull first total taken, List.zip_cons_cons, table]
    rfl

/-- The frames that are still free keep their contents. -/
theorem PageMapped.contents {t' : Nat} (page : PageMapped m dir n paddr flags m₁ m₂ t)
    (free : m₂.pmm.Free t') : m₂.frames t' = m.frames t' := by
  rw [page.pmm] at free
  have notTable : t' ≠ t := fun same => free (same ▸ (page.linked.used _ t page.links).1)
  have notDir : t' ≠ dir := fun same => free (same ▸ page.linked.own)
  rw [← linking_frames page.linking notDir, page.set, setPage_put _ _ page.links]
  funext j
  rw [Machine.put_frames, if_neg fun h => notTable h.1]

theorem mapPages_recycles (flags paddr : Nat) (distinct : Distinct m dir)
    (fits : m.pmm.totalPages ≤ 2 ^ 20) (small : n < 2 ^ 20)
    (inside : w < 2 ^ 20) (outside : ∀ k < count, w ≠ (n + k) % 2 ^ 20) (absent : m.absent dir (w / 1024)) :
    Recycles m (Machine.mapPages id dir flags count (n * pageSize) paddr m).2 dir count n w := by
  induction count generalizing n paddr m with
  | zero => exact ⟨fun t member => absurd member List.not_mem_nil, fun _ => look_none absent⟩
  | succ count ih =>
    rcases mapPages_step flags count paddr distinct fits small with
      ⟨q, linking, run⟩ | ⟨m₁, m₂, t, page, run⟩
    · -- nothing is handed out: the call ends here
      rw [run]
      cases linking with
      | failed q _ none total =>
        have empty : linkings m dir (count + 1) n = [] := by
          rw [linkings, handable_nil none, List.zip_nil_right]
        refine ⟨fun t member => ?_, fun _ => look_none absent⟩
        rw [empty] at member
        exact absurd member List.not_mem_nil
    · have bound : n / 1024 < 1024 := by omega
      have other : w ≠ n := by
        have first := outside 0 (Nat.succ_pos count)
        omega
      have rest : ∀ k < count, w ≠ ((n + 1) % 2 ^ 20 + k) % 2 ^ 20 := by
        intro k below
        have later := outside (k + 1) (by omega)
        omega
      have later : (n + 1) % 2 ^ 20 < 2 ^ 20 := Nat.mod_lt _ (by decide)
      have tail := linkings_succ count fits bound page
      rw [run]
      by_cases here : w / 1024 = n / 1024
      · rcases tail with ⟨linkedBefore, _⟩ | ⟨_, listed⟩
        · rw [here] at absent
          exact absurd absent linkedBefore
        · have links := page.links
          have links₂ := page.kept.mpr links
          rw [← here] at links links₂
          have found := mapPages_look flags (u32 (paddr + pageSize)) page.distinct page.fits later inside
            rest links₂.present
          rw [page.set, page.linked.look_set _ _ page.links inside other, look_links links,
            linking_frames page.linking (page.linked.used _ t links).2, ← page.set] at found
          refine ⟨fun t' member => ?_, fun none => absurd ?_ (none t)⟩
          · rw [listed] at member
            rcases List.mem_cons.mp member with same | again
            · obtain ⟨_, rfl⟩ := Prod.mk.inj same
              exact ⟨_, found⟩
            · have unlinked := newTables_absent (List.of_mem_zip again).1
              exact absurd (links₂.present.symm.trans unlinked) (by decide)
          · rw [listed, here]
            exact List.mem_cons_self
      · have absent₂ := page.absent.mpr (absent_kept page.linking here absent)
        have recycles := ih (u32 (paddr + pageSize)) page.distinct page.fits later rest absent₂
        have members : ∀ t', (w / 1024, t') ∈ linkings m dir (count + 1) n ↔
            (w / 1024, t') ∈ linkings m₂ dir count ((n + 1) % 2 ^ 20) := by
          intro t'
          rcases tail with ⟨_, same⟩ | ⟨_, same⟩
          · rw [same]
          · rw [same, List.mem_cons, Prod.mk.injEq]
            exact or_iff_right fun h => here h.1
        refine ⟨fun t' member => ?_, fun none => recycles.absent fun t' => (members t').not.mp (none t')⟩
        have member₂ := (members t').mp member
        obtain ⟨e, found⟩ := recycles.linked t' member₂
        rw [page.contents (handable_free (List.of_mem_zip member₂).2)] at found
        exact ⟨e, found⟩

theorem newTables_lt (member : i ∈ newTables present count n) (small : n < 2 ^ 20) : i < 1024 := by
  induction count generalizing present n with
  | zero => exact absurd member List.not_mem_nil
  | succ count ih =>
    have later : (n + 1) % 2 ^ 20 < 2 ^ 20 := Nat.mod_lt _ (by decide)
    rw [newTables] at member
    split at member
    · exact ih member later
    · rcases List.mem_cons.mp member with rfl | rest
      · omega
      · exact ih rest later

theorem inRange_iff {size : Nat} : InRange (n * pageSize) size w ↔
    ∃ k < (size + pageSize - 1) / pageSize, w = (n + k) % 2 ^ 20 := by
  refine exists_congr fun k => and_congr ?_ ?_
  · unfold pageSize
    omega
  · rw [offset_page]
    unfold pageSize
    omega

theorem mapPages_frame_iff {size : Nat} (distinct : Distinct m dir) (fits : m.pmm.totalPages ≤ 2 ^ 20)
    (small : n < 2 ^ 20) (counted : ∀ page < 2 ^ 20, InRange (n * pageSize) size page ↔
      ∃ k < count, page = (n + k) % 2 ^ 20) :
    (∀ page < 2 ^ 20, ¬ InRange (n * pageSize) size page →
      (Machine.mapPages id dir flags count (n * pageSize) paddr m).2.translate dir (page * pageSize) =
        m.translate dir (page * pageSize)) ↔
    ∀ entry ∈ linkings m dir count n, ∀ slot < 1024, ¬ InRange (n * pageSize) size (entry.1 * 1024 + slot) →
      (m.frames entry.2 slot).present = false := by
  have outside : ∀ page < 2 ^ 20, ¬ InRange (n * pageSize) size page → ∀ k < count, page ≠ (n + k) % 2 ^ 20 :=
    fun page inside out k below same => out ((counted page inside).mpr ⟨k, below, same⟩)
  constructor
  · rintro same ⟨j, t⟩ member slot slotBound out
    have listed := (List.of_mem_zip member).1
    have bound := newTables_lt listed small
    have inside : j * 1024 + slot < 2 ^ 20 := by omega
    have table : (j * 1024 + slot) / 1024 = j := by omega
    have index : (j * 1024 + slot) % 1024 = slot := by omega
    have absent : m.absent dir ((j * 1024 + slot) / 1024) := by
      rw [table]
      exact newTables_absent listed
    obtain ⟨e, found⟩ := (mapPages_recycles flags paddr distinct fits small inside
      (outside _ inside out) absent).linked t (by rw [table]; exact member)
    have kept := same _ inside out
    rw [Machine.translate, Machine.translate, found, look_none absent, index] at kept
    dsimp only at kept
    cases held : (m.frames t slot).present with
    | false => rfl
    | true =>
      rw [held, if_pos rfl] at kept
      cases kept
  · intro clean page inside out
    by_cases present : (m.frames dir (page / 1024)).present = true
    · rw [Machine.translate, Machine.translate, mapPages_look _ _ distinct fits small inside
        (outside page inside out)
        present]
    · have absent : m.absent dir (page / 1024) := by simpa using present
      have recycles := mapPages_recycles flags paddr distinct fits small inside
        (outside page inside out) absent
      rw [Machine.translate, Machine.translate, look_none absent]
      by_cases linked : ∃ t, (page / 1024, t) ∈ linkings m dir count n
      · obtain ⟨t, member⟩ := linked
        obtain ⟨e, found⟩ := recycles.linked t member
        have place : page / 1024 * 1024 + page % 1024 = page := by omega
        have empty := clean _ member (page % 1024) (Nat.mod_lt _ (by decide)) (by rw [place]; exact out)
        rw [found]
        exact if_neg (by simp [empty])
      · rw [recycles.absent fun t member => linked ⟨t, member⟩]

/-- Mapping a range changes no other translation if and only if each frame that becomes a
table for it held no present entry, but for pages of the range. -/
theorem changesNothingElse_iff (m : Machine) (dir vaddr size paddr flags : Nat) (distinct : Distinct m dir)
    (fits : m.pmm.totalPages ≤ 2 ^ 20) (vaddrPage : pageSize ∣ vaddr) (vaddrWord : vaddr < 2 ^ 32)
    (sizeWord : size < 2 ^ 32) :
    ChangesNothingElse m dir vaddr size paddr flags ↔ CleanFrames m dir vaddr size := by
  obtain ⟨n, rfl⟩ := vaddrPage
  rw [Nat.mul_comm] at *
  have small : n < 2 ^ 20 := by
    unfold pageSize at vaddrWord
    omega
  have start : n * pageSize / pageSize = n := Nat.mul_div_cancel n (by decide)
  rw [ChangesNothingElse, CleanFrames, Machine.vmmMapPage, start]
  by_cases bound : size ≤ 0xFFFFF000
  · rw [roundUp_pages bound]
    exact mapPages_frame_iff distinct fits small fun _ _ => inRange_iff
  · -- the size rounds up to zero: nothing is mapped
    have wrapped : roundUpToPage size / pageSize = 0 := by
      rw [roundUpToPage, show pageSize = 2 ^ 12 from rfl, alignUp_pow (by decide)]
      omega
    rw [wrapped]
    exact iff_of_true (fun page _ _ => rfl) (fun entry member => absurd member List.not_mem_nil)

/-- The same empty directory, with a frame to come that holds an old present entry. -/
def staleFrame : Machine :=
  { emptyDirectory with
    frames := fun frame slot => if frame = 8 ∧ slot = 5 then ⟨true, true, false, 0, 0x1234⟩ else .zero }

theorem staleFrame_distinct : Distinct staleFrame 1 := by
  have absent : ∀ j t, ¬ Links staleFrame 1 j t := fun j t links => by
    have present := links.present
    simp [staleFrame, PageEntry.zero] at present
  exact ⟨by decide, fun j t links => absurd links (absent j t), fun i j t links => absurd links (absent i t)⟩

/-- Mapping the page at zero also maps the page at 0x5000, to what the frame held. -/
theorem staleFrame_appears : Distinct staleFrame 1 ∧
    ¬ ChangesNothingElse staleFrame 1 0 pageSize 0x7000 pagePresent := by
  refine ⟨staleFrame_distinct, fun same => ?_⟩
  have outside : ¬ InRange 0 pageSize 5 := by
    rintro ⟨k, below, place⟩
    unfold pageSize at *
    unfold u32 at place
    omega
  exact absurd (same 5 (by decide) outside) (by decide +kernel)

theorem changesNothingElse_empty :
    ChangesNothingElse emptyDirectory 1 0x3FF000 0x1001 0x7000 (pagePresent ||| pageRw) := by
  apply (changesNothingElse_iff emptyDirectory 1 0x3FF000 0x1001 0x7000 (pagePresent ||| pageRw)
    emptyDirectory_distinct (by decide) (by decide) (by decide) (by decide)).mpr
  intro entry _ slot _ _
  rfl

end Laomb.VMM
