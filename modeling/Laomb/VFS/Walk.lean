import Laomb.Base.Fields
import Laomb.VFS.Path
import Laomb.VFS.Siblings

/-! Path walking over the components of a path, without the tokenizer. -/
namespace Laomb.VFS
open Fields

/-- The non-empty parts of a path between slashes. -/
def components (path : CString) : List CString := fields (· = '/') path

/-- A name that a path can spell. -/
abbrev Component (name : CString) : Prop := Segment (· = '/') name

/-- `/c1/.../ck`. -/
def render (parts : List CString) : CString := join '/' parts

variable {s s' : Vfs} {kids : Kids} {a b c d e : Addr} {path text front part rest : CString}
  {parts ts us : List CString} {r : Ptr}

theorem components_render (good : ∀ part ∈ parts, Component part) : components (render parts) = parts :=
  fields_join (by simp) good

theorem components_slash (l m : CString) : components (l ++ '/' :: m) = components l ++ components m :=
  fields_append_sep (by simp)

theorem components_good (path : CString) : ∀ t ∈ components path, Component t :=
  fun _ member => part_of_mem member

theorem component_iff : Component text ↔ text ≠ [] ∧ '/' ∉ text := by
  refine and_congr_right fun _ => ⟨fun all inside => ?_, fun outside x member => ?_⟩
  · simpa using all '/' inside
  · have other : x ≠ '/' := fun same => outside (same ▸ member)
    simpa using other

theorem strtok_blank (blank : ∀ c ∈ text, decide (c = '/')) : strtok (some text) = (none, none) :=
  if_pos (List.dropWhile_eq_nil_iff.mpr blank)

theorem strtok_last (skipped : ∀ c ∈ front, decide (c = '/')) (token : Component part) :
    strtok (some (front ++ part)) = (some part, none) := by
  obtain ⟨c, part, rfl⟩ := List.exists_cons_of_ne_nil token.1
  have first := token.2 c List.mem_cons_self
  have inside : ∀ x ∈ c :: part, decide (x ≠ '/') := fun x member => by
    simpa using token.2 x member
  have body : (front ++ c :: part).dropWhile (· = '/') = c :: part := by
    rw [List.dropWhile_append_of_pos skipped, List.dropWhile_cons_of_neg (by simpa using first)]
  have whole : (c :: part).takeWhile (· ≠ '/') = c :: part := List.takeWhile_eq_self_iff.mpr inside
  have none_left : (c :: part).dropWhile (· ≠ '/') = [] := List.dropWhile_eq_nil_iff.mpr inside
  simp only [strtok, body, whole, none_left, if_neg (List.cons_ne_nil c part)]

theorem strtok_more (skipped : ∀ c ∈ front, decide (c = '/')) (token : Component part) :
    strtok (some (front ++ (part ++ '/' :: rest))) = (some part, some rest) := by
  obtain ⟨c, part, rfl⟩ := List.exists_cons_of_ne_nil token.1
  have first := token.2 c List.mem_cons_self
  have inside : ∀ x ∈ c :: part, decide (x ≠ '/') := fun x member => by
    simpa using token.2 x member
  have body : (front ++ (c :: part ++ '/' :: rest)).dropWhile (· = '/') = c :: part ++ '/' :: rest := by
    rw [List.dropWhile_append_of_pos skipped, List.cons_append,
      List.dropWhile_cons_of_neg (by simpa using first)]
  have whole : (c :: part ++ '/' :: rest).takeWhile (· ≠ '/') = c :: part := by
    rw [List.takeWhile_append_of_pos inside, List.takeWhile_cons_of_neg (by simp), List.append_nil]
  have after : (c :: part ++ '/' :: rest).dropWhile (· ≠ '/') = '/' :: rest := by
    rw [List.dropWhile_append_of_pos inside, List.dropWhile_cons_of_neg (by simp)]
  simp only [strtok, body, whole, after]
  exact if_neg (List.cons_ne_nil c _)

/-- One call of the tokenizer returns the first component and leaves the others. -/
theorem strtok_components (str : Option CString) :
    (components (str.getD []) = [] ∧ strtok str = (none, none)) ∨
    ∃ token last, strtok str = (some token, last) ∧
      components (str.getD []) = token :: components (last.getD []) ∧
      (last.getD []).length < (str.getD []).length := by
  cases str with
  | none => exact .inl ⟨rfl, rfl⟩
  | some text =>
    rw [Option.getD_some, components]
    cases Fields.start (· = '/') text with
    | blank blank => exact .inl ⟨fields_blank blank, strtok_blank blank⟩
    | @last front part skipped token =>
      have some := List.length_pos_iff.mpr token.1
      refine .inr ⟨part, none, strtok_last skipped token, fields_last skipped token, ?_⟩
      rw [List.length_append]
      exact Nat.lt_add_left _ some
    | @more front part rest c skipped token isSep =>
      obtain rfl : c = '/' := of_decide_eq_true isSep
      refine .inr ⟨part, rest, strtok_more skipped token, fields_more skipped token isSep, ?_⟩
      simp only [Option.getD_some, List.length_append, List.length_cons]
      omega

/-- The calls of a loop that goes on to the end of the text. -/
@[elab_as_elim]
theorem token_induction {motive : Nat → Option CString → Prop} (fuel : Nat) (str : Option CString)
    (enough : (str.getD []).length ≤ fuel)
    (ended : ∀ fuel str, components (str.getD []) = [] → strtok str = (none, none) → motive fuel str)
    (next : ∀ fuel str token last, strtok str = (some token, last) →
      components (str.getD []) = token :: components (last.getD []) → motive fuel last →
      motive (fuel + 1) str) : motive fuel str := by
  induction fuel generalizing str with
  | zero =>
    rcases strtok_components str with ⟨finished, run⟩ | ⟨token, last, run, split, shorter⟩
    · exact ended 0 str finished run
    · omega
  | succ fuel ih =>
    rcases strtok_components str with ⟨finished, run⟩ | ⟨token, last, run, split, shorter⟩
    · exact ended _ str finished run
    · exact next fuel str token last run split (ih last (by omega))

theorem lastSlash_append {l m : CString} (outside : '/' ∉ m) :
    lastSlash (l ++ '/' :: m) = some l.length := by
  have first : (l ++ '/' :: m).reverse.idxOf '/' = m.length := by
    rw [List.reverse_append, List.reverse_cons, List.append_assoc, List.singleton_append,
      List.idxOf_append_of_notMem (by simpa using outside), List.idxOf_cons_self, List.length_reverse,
      Nat.add_zero]
  rw [lastSlash, if_pos (by simp), first, List.length_append, List.length_cons]
  exact congrArg some (by omega)

theorem lastSlash_cases (path : CString) :
    lastSlash path = none ∨ ∃ l m, path = l ++ '/' :: m ∧ '/' ∉ m ∧ lastSlash path = some l.length := by
  by_cases inside : '/' ∈ path
  · obtain ⟨m, l, split, outside⟩ := List.eq_append_cons_of_mem (List.mem_reverse.mpr inside)
    have shape : path = l.reverse ++ '/' :: m.reverse := by
      rw [← List.reverse_reverse path, split]
      simp
    have away : '/' ∉ m.reverse := by simpa using outside
    exact .inr ⟨_, _, shape, away, shape ▸ lastSlash_append away⟩
  · exact .inl (if_neg inside)

namespace Vfs

/-- `vfs_traverse_path` on a path already cut into components. -/
def walk (s : Vfs) : (current : Addr) → List CString → Result Ptr
  | current, [] => pure (some current)
  | current, token :: rest => do
    match ← s.vfsSearchNode (s.redirect current) token with
    | none => pure none
    | some current => walk s current rest

theorem traverseLoop_eq (fuel : Nat) (str : Option CString) (current : Addr)
    (enough : (str.getD []).length ≤ fuel) :
    s.traverseLoop fuel current (strtok str).1 (strtok str).2 =
      s.walk current (components (str.getD [])) := by
  revert current
  refine token_induction fuel str enough (fun fuel str finished run current => ?_)
    (fun fuel str token last run split ih current => ?_)
  · rw [run, finished]
    cases fuel <;> rfl
  · rw [run, split]
    simp only [traverseLoop, walk]
    cases s.vfsSearchNode (s.redirect current) token with
    | error fault => rfl
    | ok found =>
      cases found with
      | none => rfl
      | some next => exact ih next

theorem traverse_eq (root : s.root = some a) (nonempty : path ≠ []) :
    s.vfsTraversePath path = s.walk a (components path) := by
  have loop := s.traverseLoop_eq path.length (some path) a (Nat.le_refl _)
  simp only [vfsTraversePath, if_neg nonempty, root]
  exact loop

theorem walk_append (s : Vfs) (current : Addr) (ts us : List CString) :
    s.walk current (ts ++ us) = (do
      match ← s.walk current ts with
      | none => pure none
      | some found => s.walk found us) := by
  induction ts generalizing current with
  | nil => rfl
  | cons t ts ih =>
    simp only [List.cons_append, walk]
    cases s.vfsSearchNode (s.redirect current) t with
    | error fault => rfl
    | ok found =>
      cases found with
      | none => rfl
      | some next => exact ih next

theorem walk_cons_ok {t : CString} (run : s.walk a (t :: ts) = .ok (some d)) :
    ∃ c, s.vfsSearchNode (s.redirect a) t = .ok (some c) ∧ s.walk c ts = .ok (some d) := by
  simp only [walk] at run
  cases search : s.vfsSearchNode (s.redirect a) t with
  | error fault => simp [search, bind, Except.bind] at run
  | ok found =>
    cases found with
    | none => simp [search, bind, Except.bind, pure, Except.pure] at run
    | some c => exact ⟨c, rfl, by simpa [search, bind, Except.bind] using run⟩

theorem walk_append_ok (run : s.walk a (ts ++ us) = .ok (some d)) :
    ∃ c, s.walk a ts = .ok (some c) ∧ s.walk c us = .ok (some d) := by
  rw [walk_append] at run
  cases first : s.walk a ts with
  | error fault => simp [first, bind, Except.bind] at run
  | ok found =>
    cases found with
    | none => simp [first, bind, Except.bind, pure, Except.pure] at run
    | some c => exact ⟨c, rfl, by simpa [first, bind, Except.bind] using run⟩

theorem walk_step (s : Vfs) (d : Addr) (t : CString) :
    s.walk d [t] = s.vfsSearchNode (s.redirect d) t := by
  simp only [walk]
  cases s.vfsSearchNode (s.redirect d) t with
  | error fault => rfl
  | ok found => cases found <;> rfl

theorem redirect_plain (free : ∀ m ∈ s.mounts, m.mountPoint ≠ d) : s.redirect d = d := by
  have absent : s.mounts.find? (fun mount => mount.mountPoint = d) = none := by simpa using free
  simp only [redirect, absent]

theorem redirect_mounted (mounted : ∃ m ∈ s.mounts, m.mountPoint = d) :
    ∃ m ∈ s.mounts, m.mountPoint = d ∧ s.redirect d = m.mountedRoot := by
  cases found : s.mounts.find? (fun mount => mount.mountPoint = d) with
  | none =>
    obtain ⟨m, member, point⟩ := mounted
    have elsewhere := List.find?_eq_none.mp found m member
    exact absurd (decide_eq_true point) elsewhere
  | some m =>
    have point : m.mountPoint = d := by simpa using List.find?_some found
    exact ⟨m, List.mem_of_find?_eq_some found, point, by simp only [redirect, found]⟩

end Vfs

namespace Forest

theorem search_iff (forest : Forest s kids) :
    s.vfsSearchNode d text = .ok r ↔ s.Live d ∧ s.child kids d text = r := by
  constructor
  · intro run
    have alive := Vfs.search_live run
    rw [forest.search alive] at run
    exact ⟨alive, Except.ok.inj run⟩
  · rintro ⟨alive, rfl⟩
    exact forest.search alive

/-- A walk over at least one component ends at a listed node of the last name. -/
theorem walk_listed (forest : Forest s kids) (run : s.walk a (ts ++ [text]) = .ok (some d)) :
    ∃ e, d ∈ kids e ∧ s.nameOf d = some text := by
  obtain ⟨c, _, last⟩ := Vfs.walk_append_ok run
  rw [Vfs.walk_step] at last
  obtain ⟨_, found⟩ := forest.search_iff.mp last
  exact ⟨_, Vfs.child_some found⟩

end Forest
end Laomb.VFS
