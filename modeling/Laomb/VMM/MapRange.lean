import Laomb.VMM.Switch

/-! What `vmm_map_page` does to a directory whose frames are apart. The code takes the
physical address of a table for a pointer; here every pointer reaches the frame of its
own number. -/
namespace Laomb.VMM
open PMM Word FirstFit

variable {p q : Pmm} {m m' : Machine} {dir n w t i count paddr flags : Nat} {done : Bool}

/-- The directory's frame and those of its tables are in use, and no two are the same. -/
structure Distinct (m : Machine) (dir : Nat) : Prop where
  own : m.pmm.Used dir
  used : ∀ j t, Links m dir j t → m.pmm.Used t ∧ t ≠ dir
  apart : ∀ i j t, Links m dir i t → Links m dir j t → i = j

/-- The two entries that the processor finds for an address, if the directory's is present. -/
def Machine.look (m : Machine) (dir vaddr : Nat) : Option (PageEntry × PageEntry) :=
  let pageDirEntry := m.frames dir (dirIndex vaddr)
  if pageDirEntry.present then
    some (pageDirEntry, m.frames pageDirEntry.address.toNat (tableIndex vaddr))
  else none

/-- The entries of the directory that refer to no table. -/
abbrev Machine.absent (m : Machine) (dir i : Nat) : Prop := (m.frames dir i).present = false

/-- The ways `linkTable` ends for entry `i` of the directory: there was a table, the lowest
free frame became one, or there is no free frame but that of the null pointer. -/
inductive Linking (m : Machine) (dir i : Nat) : Bool × Machine → Prop where
  | kept : (m.frames dir i).present = true → Linking m dir i (true, m)
  | added (t : Nat) (q : Pmm) : m.absent dir i → t ≠ 0 → First m.pmm.Free m.pmm.totalPages 1 t →
      q.totalPages = m.pmm.totalPages → (∀ page, q.Used page ↔ page = t ∨ m.pmm.Used page) →
      Linking m dir i (true, ({ m with pmm := q } : Machine).put dir i
        ((m.frames dir i).set (t * pageSize) (pagePresent ||| pageRw)))
  | failed (q : Pmm) : m.absent dir i → (∀ t, First m.pmm.Free m.pmm.totalPages 1 t → t = 0) →
      q.totalPages = m.pmm.totalPages → Linking m dir i (false, { m with pmm := q })

theorem linkTable_linking (dir : Nat) (fits : m.pmm.totalPages ≤ 2 ^ 20) (vaddr : Nat) :
    Linking m dir (dirIndex vaddr) (m.linkTable dir vaddr) := by
  unfold Machine.linkTable
  by_cases present : (m.frames dir (dirIndex vaddr)).present = true
  · rw [if_pos present]
    exact .kept present
  · rw [if_neg present]
    have absent : m.absent dir (dirIndex vaddr) := by simpa using present
    have outcome := pmmAlloc_outcome m.pmm (by omega)
    generalize pmmAlloc m.pmm = result at outcome
    cases outcome with
    | exhausted q none viewed =>
      exact .failed q absent (fun t first => absurd first.fits (none t)) viewed.totalPages
    | found t q first viewed =>
      have low := (runAt_one.mp first.fits).1
      have address : pageAddress t = t * pageSize := u32_of_lt (by unfold pageSize; omega)
      have total : (setPages q t 1).totalPages = m.pmm.totalPages := by
        rw [setPages_totalPages, viewed.totalPages]
      simp only
      by_cases null : t = 0
      · rw [if_pos ((pageAddress_null (by omega)).mpr null)]
        exact .failed _ absent (fun t' first' => (first'.unique first).trans null) total
      · rw [if_neg fun h => null ((pageAddress_null (by omega)).mp h), address]
        refine .added t _ absent null first total fun page => ?_
        rw [setPages_used q (by omega), viewed.used]
        apply or_congr_left
        omega

/-- The entry for a table in frame `t`. -/
theorem tableEntry (entry : PageEntry) (small : t < 2 ^ 20) :
    (entry.set (t * pageSize) (pagePresent ||| pageRw)).present = true ∧
      (entry.set (t * pageSize) (pagePresent ||| pageRw)).address.toNat = t := by
  have leaf := set_leaf entry (pagePresent ||| pageRw) small
  exact ⟨leaf.present, leaf.address⟩

theorem look_page (m : Machine) (dir page : Nat) : m.look dir (page * pageSize) =
    if (m.frames dir (page / 1024)).present then
      some (m.frames dir (page / 1024), m.frames (m.frames dir (page / 1024)).address.toNat (page % 1024))
    else none := by
  rw [Machine.look, dirIndex_page, tableIndex_page]

theorem look_none (absent : m.absent dir (w / 1024)) : m.look dir (w * pageSize) = none := by
  rw [look_page, absent, if_neg (by decide)]

theorem look_links (links : Links m dir (w / 1024) t) :
    m.look dir (w * pageSize) = some (m.frames dir (w / 1024), m.frames t (w % 1024)) := by
  rw [look_page, if_pos links.present, links.address]

theorem links_of_present (small : n < 2 ^ 20) (present : (m.frames dir (n / 1024)).present = true) :
    ∃ t, Links m dir (n / 1024) t := ⟨_, by omega, present, rfl⟩

theorem setPage_put (paddr flags : Nat) (links : Links m dir (n / 1024) t) :
    m.setPage id dir (n * pageSize) paddr flags =
    m.put t (n % 1024) ((m.frames t (n % 1024)).set paddr flags) := by
  rw [Machine.setPage, dirIndex_page, tableIndex_page, PageEntry.target, Nat.mul_div_cancel _ (by decide),
    id, links.address]

/-- Writing into a table leaves the entries of the directory alone. -/
theorem put_links {frame index j : Nat} {e : PageEntry} (other : frame ≠ dir) :
    Links (m.put frame index e) dir j t ↔ Links m dir j t := by
  have same : (m.put frame index e).frames dir j = m.frames dir j := by
    rw [Machine.put_frames, if_neg fun h => other h.1.symm]
  constructor
  · rintro ⟨index, present, address⟩
    rw [same] at present address
    exact ⟨index, present, address⟩
  · rintro ⟨index, present, address⟩
    exact ⟨index, by rw [same]; exact present, by rw [same]; exact address⟩

namespace Distinct

theorem set (paddr flags : Nat) (distinct : Distinct m dir) (links : Links m dir (n / 1024) t) :
    Distinct (m.setPage id dir (n * pageSize) paddr flags) dir := by
  have other := (distinct.used _ t links).2
  rw [setPage_put _ _ links]
  refine ⟨distinct.own, fun j t' links' => ?_, fun i j t' left right => ?_⟩
  · exact distinct.used j t' ((put_links other).mp links')
  · exact distinct.apart i j t' ((put_links other).mp left) ((put_links other).mp right)

/-- The links after a table was added: those there were, and the new one. -/
theorem added_links {j t' : Nat} (fits : m.pmm.totalPages ≤ 2 ^ 20)
    (first : First m.pmm.Free m.pmm.totalPages 1 t)
    (links : Links (({ m with pmm := q } : Machine).put dir i
      ((m.frames dir i).set (t * pageSize) (pagePresent ||| pageRw))) dir j t') :
    j = i ∧ t' = t ∨ j ≠ i ∧ Links m dir j t' := by
  have low := (runAt_one.mp first.fits).1
  obtain ⟨index, present, address⟩ := links
  rw [Machine.put_frames] at present address
  by_cases here : j = i
  · rw [if_pos ⟨rfl, here⟩, (tableEntry _ (by omega)).2] at address
    exact .inl ⟨here, address.symm⟩
  · rw [if_neg fun h => here h.2] at present address
    exact .inr ⟨here, index, present, address⟩

theorem link (distinct : Distinct m dir) (fits : m.pmm.totalPages ≤ 2 ^ 20)
    (linking : Linking m dir i (true, m')) : Distinct m' dir := by
  cases linking with
  | kept present => exact distinct
  | added t q absent nonnull first total taken =>
    have free := (runAt_one.mp first.fits).2
    refine ⟨(taken dir).mpr (.inr distinct.own), fun j t' links => ?_, fun j k t' left right => ?_⟩
    · rcases added_links fits first links with ⟨rfl, rfl⟩ | ⟨_, old⟩
      · exact ⟨(taken t').mpr (.inl rfl), fun same => free (same ▸ distinct.own)⟩
      · exact ⟨(taken t').mpr (.inr (distinct.used j t' old).1), (distinct.used j t' old).2⟩
    · rcases added_links fits first left with ⟨rfl, rfl⟩ | ⟨_, old⟩
      · rcases added_links fits first right with ⟨rfl, _⟩ | ⟨_, old'⟩
        · rfl
        · exact absurd (distinct.used k t' old').1 free
      · rcases added_links fits first right with ⟨rfl, rfl⟩ | ⟨_, old'⟩
        · exact absurd (distinct.used j t' old).1 free
        · exact distinct.apart j k t' old old'

/-- Mapping one page changes what is found for no other page. -/
theorem look_set (paddr flags : Nat) (distinct : Distinct m dir) (links : Links m dir (n / 1024) t)
    (small : w < 2 ^ 20)
    (other : w ≠ n) :
    (m.setPage id dir (n * pageSize) paddr flags).look dir (w * pageSize) = m.look dir (w * pageSize) := by
  have apart := (distinct.used _ t links).2
  rw [setPage_put _ _ links]
  by_cases present : (m.frames dir (w / 1024)).present = true
  · obtain ⟨t', links'⟩ := links_of_present small present
    rw [look_links links', look_links ((put_links apart).mpr links')]
    rw [Machine.put_frames, if_neg fun h => apart h.1.symm, Machine.put_frames, if_neg]
    rintro ⟨rfl, slot⟩
    have table := distinct.apart _ _ t' links' links
    omega
  · have absent : m.absent dir (w / 1024) := by simpa using present
    rw [look_none absent, look_none]
    rw [Machine.absent, Machine.put_frames, if_neg fun h => apart h.1.symm]
    exact absent

/-- Linking a table keeps what is found where there was one. -/
theorem look_kept (distinct : Distinct m dir) (linking : Linking m dir i (true, m')) (small : w < 2 ^ 20)
    (present : (m.frames dir (w / 1024)).present = true) :
    m'.look dir (w * pageSize) = m.look dir (w * pageSize) := by
  cases linking with
  | kept _ => rfl
  | added t q absent nonnull first total taken =>
    obtain ⟨t', links⟩ := links_of_present small present
    have apart := (distinct.used _ t' links).2
    have elsewhere : w / 1024 ≠ i := by
      rintro rfl
      exact absurd (present.symm.trans absent) (by decide)
    have row : ∀ q e, (({ m with pmm := q } : Machine).put dir i e).frames dir (w / 1024) =
        m.frames dir (w / 1024) := by
      intro q e
      rw [Machine.put_frames, if_neg fun h => elsewhere h.2]
    have links' : ∀ q e, Links (({ m with pmm := q } : Machine).put dir i e) dir (w / 1024) t' := by
      intro q e
      exact ⟨links.index, by rw [row]; exact present, by rw [row]; exact links.address⟩
    rw [look_links links, look_links (links' _ _), row, Machine.put_frames, if_neg fun h => apart h.1]

end Distinct

theorem Links.unique {t' : Nat} (first : Links m dir i t) (second : Links m dir i t') : t = t' :=
  first.address.symm.trans second.address

/-- No entry of the directory loses its table. -/
theorem absent_before {j : Nat} (linking : Linking m dir i (true, m')) (absent : m'.absent dir j) :
    m.absent dir j := by
  cases linking with
  | kept _ => exact absent
  | added t q before nonnull first total taken =>
    by_cases here : j = i
    · exact here ▸ before
    · rw [Machine.absent, Machine.put_frames, if_neg fun h => here h.2] at absent
      exact absent

/-- Linking a table in another entry of the directory adds nothing. -/
theorem absent_kept {j : Nat} (linking : Linking m dir i (true, m')) (other : j ≠ i)
    (absent : m.absent dir j) :
    m'.absent dir j := by
  cases linking with
  | kept _ => exact absent
  | added t q _ nonnull first total taken =>
    rw [Machine.absent, Machine.put_frames, if_neg fun h => other h.2]
    exact absent

/-- Frames other than the directory's keep their contents when a table is linked. -/
theorem linking_frames {frame : Nat} (linking : Linking m dir i (done, m')) (other : frame ≠ dir) :
    m'.frames frame = m.frames frame := by
  cases linking with
  | kept _ => rfl
  | added t q _ nonnull first total taken =>
    funext j
    rw [Machine.put_frames, if_neg fun h => other h.1]
  | failed => rfl

theorem linking_links (fits : m.pmm.totalPages ≤ 2 ^ 20) (bound : i < 1024)
    (linking : Linking m dir i (true, m')) : ∃ t, Links m' dir i t := by
  cases linking with
  | kept present => exact ⟨_, bound, present, rfl⟩
  | added t q _ nonnull first total taken =>
    have low := (runAt_one.mp first.fits).1
    have leaf := tableEntry (m.frames dir i) (t := t) (by omega)
    refine ⟨t, bound, ?_, ?_⟩
    · rw [Machine.put_frames, if_pos ⟨rfl, rfl⟩]
      exact leaf.1
    · rw [Machine.put_frames, if_pos ⟨rfl, rfl⟩]
      exact leaf.2

theorem next_page (n : Nat) :
    u32 (n * pageSize + pageSize) = (n + 1) % 2 ^ 20 * pageSize := by
  unfold u32 pageSize
  omega

/-- One page of the loop and the rest of it. -/
theorem mapPages_succ (n dir flags count paddr : Nat) (fits : m.pmm.totalPages ≤ 2 ^ 20) :
    (∃ q, Linking m dir (n / 1024) (false, { m with pmm := q }) ∧
      Machine.mapPages id dir flags (count + 1) (n * pageSize) paddr m = (false, { m with pmm := q })) ∨
    ∃ m₁, Linking m dir (n / 1024) (true, m₁) ∧
      Machine.mapPages id dir flags (count + 1) (n * pageSize) paddr m =
        Machine.mapPages id dir flags count ((n + 1) % 2 ^ 20 * pageSize) (u32 (paddr + pageSize))
          (m₁.setPage id dir (n * pageSize) paddr flags) := by
  have linking := linkTable_linking dir fits (n * pageSize)
  rw [dirIndex_page] at linking
  rw [Machine.mapPages, next_page n]
  generalize m.linkTable dir (n * pageSize) = result at linking
  cases linking with
  | kept present => exact .inr ⟨m, .kept present, rfl⟩
  | added t q absent nonnull first total taken =>
    exact .inr ⟨_, .added t q absent nonnull first total taken, rfl⟩
  | failed q absent none total => exact .inl ⟨q, .failed q absent none total, rfl⟩

theorem linking_total (linking : Linking m dir i (done, m')) : m'.pmm.totalPages = m.pmm.totalPages := by
  cases linking with
  | kept _ => rfl
  | added t q _ nonnull first total taken => exact total
  | failed q _ none total => exact total

/-- The loop has mapped one page: `m₁` is the state behind `linkTable`, with the table `t` for the page,
and `m₂` the one with the entry. -/
structure PageMapped (m : Machine) (dir n paddr flags : Nat) (m₁ m₂ : Machine) (t : Nat) : Prop where
  linking : Linking m dir (n / 1024) (true, m₁)
  linked : Distinct m₁ dir
  links : Links m₁ dir (n / 1024) t
  set : m₂ = m₁.setPage id dir (n * pageSize) paddr flags
  distinct : Distinct m₂ dir
  fits : m₂.pmm.totalPages ≤ 2 ^ 20

/-- The loop ends for want of a page, or it maps the page and goes on. -/
theorem mapPages_step (flags count paddr : Nat) (distinct : Distinct m dir) (fits : m.pmm.totalPages ≤ 2 ^ 20)
    (small : n < 2 ^ 20) :
    (∃ q, Linking m dir (n / 1024) (false, { m with pmm := q }) ∧
      Machine.mapPages id dir flags (count + 1) (n * pageSize) paddr m = (false, { m with pmm := q })) ∨
    ∃ m₁ m₂ t, PageMapped m dir n paddr flags m₁ m₂ t ∧
      Machine.mapPages id dir flags (count + 1) (n * pageSize) paddr m =
        Machine.mapPages id dir flags count ((n + 1) % 2 ^ 20 * pageSize) (u32 (paddr + pageSize)) m₂ := by
  refine (mapPages_succ n dir flags count paddr fits).imp_right ?_
  rintro ⟨m₁, linking, run⟩
  have linked := distinct.link fits linking
  obtain ⟨t, links⟩ := linking_links fits (by omega) linking
  refine ⟨m₁, _, t, ⟨linking, linked, links, rfl, linked.set paddr flags links, ?_⟩, run⟩
  rw [setPage_put _ _ links]
  exact (linking_total linking).trans_le fits

/-- Pages outside a mapped range with a table keep what is found for them. -/
theorem mapPages_look (flags paddr : Nat) (distinct : Distinct m dir)
    (fits : m.pmm.totalPages ≤ 2 ^ 20) (small : n < 2 ^ 20)
    (inside : w < 2 ^ 20) (outside : ∀ k < count, w ≠ (n + k) % 2 ^ 20)
    (present : (m.frames dir (w / 1024)).present = true) :
    (Machine.mapPages id dir flags count (n * pageSize) paddr m).2.look dir (w * pageSize) =
      m.look dir (w * pageSize) := by
  induction count generalizing n paddr m with
  | zero => rfl
  | succ count ih =>
    rcases mapPages_step flags count paddr distinct fits small with ⟨q, _, run⟩ | ⟨m₁, m₂, t, page, run⟩
    · rw [run]
      rfl
    · have other : w ≠ n := by
        have first := outside 0 (Nat.succ_pos count)
        omega
      have same := (page.linked.look_set paddr flags page.links inside other).trans
        (distinct.look_kept page.linking inside present)
      rw [← page.set] at same
      have present' : (m₂.frames dir (w / 1024)).present = true := by
        by_contra absent
        rw [look_none (by simpa using absent), look_page, if_pos present] at same
        cases same
      have outside' : ∀ k < count, w ≠ ((n + 1) % 2 ^ 20 + k) % 2 ^ 20 := by
        intro k below
        have later := outside (k + 1) (by omega)
        omega
      rw [run, ih _ page.distinct page.fits (Nat.mod_lt _ (by decide)) outside' present', same]

theorem setPage_links {j t' : Nat} (paddr flags : Nat) (distinct : Distinct m dir)
    (links : Links m dir (n / 1024) t) :
    Links (m.setPage id dir (n * pageSize) paddr flags) dir j t' ↔ Links m dir j t' := by
  rw [setPage_put _ _ links]
  exact put_links (distinct.used _ t links).2

theorem setPage_absent {j : Nat} (paddr flags : Nat) (distinct : Distinct m dir)
    (links : Links m dir (n / 1024) t) :
    (m.setPage id dir (n * pageSize) paddr flags).absent dir j ↔ m.absent dir j := by
  have apart := (distinct.used _ t links).2
  rw [setPage_put _ _ links, Machine.absent, Machine.put_frames, if_neg fun h => apart h.1.symm]

namespace PageMapped
variable {m₁ m₂ : Machine}

theorem pmm (page : PageMapped m dir n paddr flags m₁ m₂ t) : m₂.pmm = m₁.pmm := by
  rw [page.set, setPage_put _ _ page.links]
  rfl

theorem kept {j t' : Nat} (page : PageMapped m dir n paddr flags m₁ m₂ t) :
    Links m₂ dir j t' ↔ Links m₁ dir j t' := by
  rw [page.set]
  exact setPage_links paddr flags page.linked page.links

theorem absent {j : Nat} (page : PageMapped m dir n paddr flags m₁ m₂ t) :
    m₂.absent dir j ↔ m₁.absent dir j := by
  rw [page.set]
  exact setPage_absent paddr flags page.linked page.links

end PageMapped

/-- The tables that were there stay linked. -/
theorem linking_kept {j t' : Nat} (linking : Linking m dir i (true, m')) (links : Links m dir j t') :
    Links m' dir j t' := by
  cases linking with
  | kept _ => exact links
  | added t q absent nonnull first total taken =>
    have elsewhere : j ≠ i := by
      rintro rfl
      exact absurd (links.present.symm.trans absent) (by decide)
    have row : ∀ e, (({ m with pmm := q } : Machine).put dir i e).frames dir j = m.frames dir j := by
      intro e
      rw [Machine.put_frames, if_neg fun h => elsewhere h.2]
    exact ⟨links.index, by rw [row]; exact links.present, by rw [row]; exact links.address⟩

/-- The bits that linking sets: none, or that of the table. -/
theorem linking_used {page : Nat} (fits : m.pmm.totalPages ≤ 2 ^ 20) (bound : i < 1024)
    (linking : Linking m dir i (true, m')) : m'.pmm.Used page ↔
      m.pmm.Used page ∨ m.absent dir i ∧ Links m' dir i page := by
  obtain ⟨t', links⟩ := linking_links fits bound linking
  cases linking with
  | kept present =>
    refine ⟨Or.inl, fun used => used.elim id fun new => ?_⟩
    exact absurd (present.symm.trans new.1) (by decide)
  | added t q absent nonnull first total taken =>
    have same : t' = t := by
      rcases Distinct.added_links fits first links with ⟨_, same⟩ | ⟨other, _⟩
      · exact same
      · exact absurd rfl other
    subst same
    rw [Machine.put_pmm, taken, or_comm]
    apply or_congr_right
    constructor
    · rintro rfl
      exact ⟨absent, links⟩
    · intro new
      exact new.2.unique links

section
variable (distinct : Distinct m dir) (fits : m.pmm.totalPages ≤ 2 ^ 20) (small : n < 2 ^ 20)
include distinct fits small

theorem mapPages_distinct (done : (Machine.mapPages id dir flags count (n * pageSize) paddr m).1 = true) :
    Distinct (Machine.mapPages id dir flags count (n * pageSize) paddr m).2 dir := by
  induction count generalizing n paddr m with
  | zero => exact distinct
  | succ count ih =>
    rcases mapPages_step flags count paddr distinct fits small with ⟨q, _, run⟩ | ⟨m₁, m₂, t, page, run⟩
    · rw [run] at done
      cases done
    · rw [run] at done ⊢
      exact ih page.distinct page.fits (Nat.mod_lt _ (by decide)) done

theorem mapPages_links {j t' : Nat} (count flags paddr : Nat) (links' : Links m dir j t') :
    Links (Machine.mapPages id dir flags count (n * pageSize) paddr m).2 dir j t' := by
  induction count generalizing n paddr m with
  | zero => exact links'
  | succ count ih =>
    rcases mapPages_step flags count paddr distinct fits small with ⟨q, _, run⟩ | ⟨m₁, m₂, t, page, run⟩
    · rw [run]
      exact ⟨links'.index, links'.present, links'.address⟩
    · rw [run]
      exact ih page.distinct page.fits (Nat.mod_lt _ (by decide)) _
        (page.kept.mpr (linking_kept page.linking links'))

/-- The bits that a call sets are those of the tables it links. -/
theorem mapPages_used (done : (Machine.mapPages id dir flags count (n * pageSize) paddr m).1 = true)
    (page : Nat) :
    (Machine.mapPages id dir flags count (n * pageSize) paddr m).2.pmm.Used page ↔ m.pmm.Used page ∨
      ∃ j, m.absent dir j ∧
        Links (Machine.mapPages id dir flags count (n * pageSize) paddr m).2 dir j page := by
  induction count generalizing n paddr m with
  | zero =>
    refine ⟨Or.inl, fun used => used.elim id fun ⟨j, absent, links⟩ => ?_⟩
    exact absurd (links.present.symm.trans absent) (by decide)
  | succ count ih =>
    rcases mapPages_step flags count paddr distinct fits small with ⟨q, _, run⟩ | ⟨m₁, m₂, t, mapped, run⟩
    · rw [run] at done
      cases done
    · have bound : n / 1024 < 1024 := by omega
      have later : (n + 1) % 2 ^ 20 < 2 ^ 20 := Nat.mod_lt _ (by decide)
      have kept := mapPages_links mapped.distinct mapped.fits later count flags (u32 (paddr + pageSize))
        (mapped.kept.mpr mapped.links)
      rw [run] at done ⊢
      rw [ih mapped.distinct mapped.fits later done, mapped.pmm, linking_used fits bound mapped.linking,
        or_assoc]
      refine or_congr_right ⟨?_, ?_⟩
      · rintro (⟨absent, new⟩ | ⟨j, absent, new⟩)
        · have same : t = page := mapped.links.unique new
          exact ⟨_, absent, same ▸ kept⟩
        · rw [mapped.absent] at absent
          exact ⟨j, absent_before mapped.linking absent, new⟩
      · rintro ⟨j, absent, new⟩
        by_cases here : j = n / 1024
        · subst here
          have same : t = page := kept.unique new
          exact .inl ⟨absent, same ▸ mapped.links⟩
        · exact .inr ⟨j, mapped.absent.mpr (absent_kept mapped.linking here absent), new⟩

end

/-- The address is mapped to this physical address, with these flags. -/
structure Maps (m : Machine) (dir vaddr paddr flags : Nat) : Prop where
  found : ∃ pageDirEntry pageEntry, m.look dir vaddr = some (pageDirEntry, pageEntry) ∧
    pageDirEntry.present = true ∧ pageEntry.address.toNat = paddr >>> 12 ∧
    pageEntry.present = (flags &&& pagePresent != 0) ∧ pageEntry.readwrite = (flags &&& pageRw != 0) ∧
    pageEntry.user = (flags &&& pageUser != 0)

theorem setPage_maps (flags : Nat) (distinct : Distinct m dir) (links : Links m dir (n / 1024) t)
    (word : paddr < 2 ^ 32) :
    Maps (m.setPage id dir (n * pageSize) paddr flags) dir (n * pageSize) paddr flags := by
  have kept := (setPage_links paddr flags distinct links).mpr links
  refine ⟨_, _, look_links kept, kept.present, ?_⟩
  rw [setPage_put _ _ links, Machine.put_frames, if_pos ⟨rfl, rfl⟩]
  refine ⟨?_, rfl, rfl, rfl⟩
  simp only [PageEntry.set, BitVec.toNat_ofNat, Nat.shiftRight_eq_div_pow]
  omega

theorem offset_page (n k : Nat) : u32 (n * pageSize + k * pageSize) = (n + k) % 2 ^ 20 * pageSize := by
  unfold u32 pageSize
  omega

theorem mapPages_maps (distinct : Distinct m dir) (fits : m.pmm.totalPages ≤ 2 ^ 20) (small : n < 2 ^ 20)
    (room : count ≤ 2 ^ 20) (word : paddr < 2 ^ 32)
    (done : (Machine.mapPages id dir flags count (n * pageSize) paddr m).1 = true) :
    ∀ k < count, Maps (Machine.mapPages id dir flags count (n * pageSize) paddr m).2 dir
      ((n + k) % 2 ^ 20 * pageSize) (u32 (paddr + k * pageSize)) flags := by
  induction count generalizing n paddr m with
  | zero => exact fun k below => absurd below (Nat.not_lt_zero k)
  | succ count ih =>
    rcases mapPages_step flags count paddr distinct fits small with ⟨q, _, run⟩ | ⟨m₁, m₂, t, mapped, run⟩
    · rw [run] at done
      cases done
    · rw [run] at done ⊢
      intro k below
      cases k with
      | zero =>
        have first := setPage_maps flags mapped.linked mapped.links word
        rw [← mapped.set] at first
        have links₂ := mapped.kept.mpr mapped.links
        -- the later pages of the range are others, so the entries stay
        have others : ∀ k < count, n ≠ ((n + 1) % 2 ^ 20 + k) % 2 ^ 20 := fun k below => by omega
        have same := mapPages_look flags (u32 (paddr + pageSize)) mapped.distinct mapped.fits
          (Nat.mod_lt (n + 1) (by decide)) small others links₂.present
        have here : (n + 0) % 2 ^ 20 * pageSize = n * pageSize := by rw [Nat.add_zero, Nat.mod_eq_of_lt small]
        have address : u32 (paddr + 0 * pageSize) = paddr := by
          rw [Nat.zero_mul, Nat.add_zero, u32_of_lt word]
        obtain ⟨e, e', found, fields⟩ := first
        rw [here, address]
        exact ⟨e, e', same.trans found, fields⟩
      | succ k =>
        have page : (n + (k + 1)) % 2 ^ 20 = ((n + 1) % 2 ^ 20 + k) % 2 ^ 20 := by omega
        have address : u32 (paddr + (k + 1) * pageSize) = u32 (u32 (paddr + pageSize) + k * pageSize) := by
          unfold u32
          rw [Nat.mod_add_mod, Nat.succ_mul, Nat.add_assoc, Nat.add_comm pageSize]
        rw [page, address]
        exact ih mapped.distinct mapped.fits (Nat.mod_lt _ (by decide)) (by omega) (u32_lt _) done k
          (by omega)

theorem roundUp_pages {size : Nat} (bound : size ≤ 0xFFFFF000) :
    roundUpToPage size / pageSize = (size + pageSize - 1) / pageSize := by
  rw [roundUpToPage, show pageSize = 2 ^ 12 from rfl, alignUp_pow (by decide),
    Nat.mul_div_cancel _ (by decide),
    Nat.mod_eq_of_lt (by omega)]

/-- A call that succeeds maps every page of its range, keeps the frames distinct and sets no
bit of the bitmap but those of the tables it linked. Physical addresses have 32 bits, so that
the bitmap has no more than `2 ^ 20` pages. -/
theorem vmmMapPage_maps (m : Machine) (dir vaddr size paddr flags : Nat) (distinct : Distinct m dir)
    (fits : m.pmm.totalPages ≤ 2 ^ 20) (vaddrPage : pageSize ∣ vaddr) (vaddrWord : vaddr < 2 ^ 32)
    (paddrWord : paddr < 2 ^ 32) (bound : size ≤ 0xFFFFF000)
    (done : (m.vmmMapPage id dir vaddr size paddr flags).1 = true) :
    (∀ k < (size + pageSize - 1) / pageSize, Maps (m.vmmMapPage id dir vaddr size paddr flags).2 dir
      (u32 (vaddr + k * pageSize)) (u32 (paddr + k * pageSize)) flags) ∧
    Distinct (m.vmmMapPage id dir vaddr size paddr flags).2 dir ∧
    ∀ page, (m.vmmMapPage id dir vaddr size paddr flags).2.pmm.Used page ↔ m.pmm.Used page ∨
      ∃ j, m.absent dir j ∧ Links (m.vmmMapPage id dir vaddr size paddr flags).2 dir j page := by
  obtain ⟨n, rfl⟩ := vaddrPage
  rw [Nat.mul_comm] at *
  have small : n < 2 ^ 20 := by
    unfold pageSize at vaddrWord
    omega
  rw [Machine.vmmMapPage, roundUp_pages bound] at *
  have room : (size + pageSize - 1) / pageSize ≤ 2 ^ 20 := by
    unfold pageSize
    omega
  refine ⟨fun k below => ?_, mapPages_distinct distinct fits small done,
    mapPages_used distinct fits small done⟩
  rw [offset_page]
  exact mapPages_maps distinct fits small room paddrWord done k below

/-- An empty directory in frame 1; the frames from 8 to 15 are free. -/
def emptyDirectory : Machine := ⟨fun _ _ => .zero, ⟨fun i => if i = 0 then 0xFF#8 else 0#8, 16, 2, []⟩⟩

theorem emptyDirectory_distinct : Distinct emptyDirectory 1 := by
  have absent : ∀ j t, ¬ Links emptyDirectory 1 j t := fun j t links => Bool.false_ne_true links.present
  exact ⟨by decide, fun j t links => absurd links (absent j t), fun i j t links => absurd links (absent i t)⟩

/-- Two pages on both sides of a directory boundary. -/
theorem vmmMapPage_maps_boundary :
    Maps (emptyDirectory.vmmMapPage id 1 0x3FF000 0x1001 0x7000 (pagePresent ||| pageRw)).2 1 0x400000 0x8000
      (pagePresent ||| pageRw) :=
  (vmmMapPage_maps emptyDirectory 1 0x3FF000 0x1001 0x7000 (pagePresent ||| pageRw) emptyDirectory_distinct
    (by decide) (by decide) (by decide) (by decide) (by decide) (by decide +kernel)).1 1 (by decide)

end Laomb.VMM
