import Laomb.VFS.MountTable

/-! Mounting overlays a folder and unmounting restores it, over any
well-formed state and for stacked mounts as well. -/
namespace Laomb.VFS
open LinkedList Transition Vfs Fields Relation

/-- A forest without cycles in which each mounted root is listed by its mount point. -/
structure WellFormed (s : Vfs) : Prop where
  forest : ∃ kids, Forest s kids
  rooted : ∃ root, s.root = some root
  anchored : ∀ m ∈ s.mounts, s.Child m.mountPoint m.mountedRoot
  acyclic : ∀ a, ¬ TransGen s.Child a a

/-- A file system of its own: no list holds its root, and none of its nodes is
reached from the root of the tree or used as a mount point. -/
structure DetachedTree (s : Vfs) (r : Addr) : Prop where
  record : ∃ n, s.heap r = some n ∧ n.next = none
  name : s.nameOf r = some ['/']
  unlisted : ∀ d, ¬ s.Child d r
  apart : ∀ x, ReflTransGen s.Child r x →
    (∀ root, s.root = some root → ¬ ReflTransGen s.Child root x) ∧ ∀ m ∈ s.mounts, m.mountPoint ≠ x

namespace Vfs

/-- The same nodes seen from `r` as the root, without mounts. -/
def alone (s : Vfs) (r : Addr) : Vfs := { s with root := some r, mounts := [] }

/-- While `path` is resolved, a component is looked up with `d` as the current node. -/
def LooksUpIn (s : Vfs) (path : CString) (d : Addr) : Prop :=
  ∃ root us t vs, s.root = some root ∧ components path = us ++ t :: vs ∧ s.walk root us = .ok (some d)

end Vfs

variable {s s' s₁ s₂ : Vfs} {kids kids' : Kids} {a b c d e r root x y : Addr} {op : Op} {path t : CString}
  {ts : List CString}

theorem Forest.child_eq (forest : Forest s kids) : s.Child = fun d c => c ∈ kids d := by
  funext d c
  exact propext forest.child_iff

theorem search_dead (dead : s.heap d = none) : s.vfsSearchNode d t = .error .useAfterFree := by
  simp only [vfsSearchNode, load_dead dead, bind, Except.bind]

/-- Two states search alike when their lists and names agree on this component. -/
theorem search_congr (forest : Forest s kids) (forest' : Forest s' kids')
    (live : s'.Live d ↔ s.Live d) (same : s'.child kids' d t = s.child kids d t) :
    s'.vfsSearchNode d t = s.vfsSearchNode d t := by
  by_cases alive : s.Live d
  · rw [forest.search alive, forest'.search (live.mpr alive), same]
  · have dead : ∀ {u : Vfs}, ¬ u.Live d → u.heap d = none := by
      intro u gone
      cases found : u.heap d with
      | none => rfl
      | some n => exact absurd ⟨n, found⟩ gone
    rw [search_dead (dead alive), search_dead (dead fun h => alive (live.mp h))]

theorem search_alone (forest : Forest s kids) (b : Addr) (t : CString) :
    (s.alone r).vfsSearchNode b t = s.vfsSearchNode b t := by
  have forest' : Forest (s.alone r) kids := forest.of_heap rfl
  exact search_congr forest forest' Iff.rfl rfl

theorem walk_congr (redirects : ∀ e, s'.redirect e = s.redirect e)
    (searches : ∀ e t, s'.vfsSearchNode e t = s.vfsSearchNode e t) (x : Addr) (ts : List CString) :
    s'.walk x ts = s.walk x ts := by
  induction ts generalizing x with
  | nil => rfl
  | cons t ts ih =>
    simp only [walk, redirects, searches]
    cases s.vfsSearchNode (s.redirect x) t with
    | error fault => rfl
    | ok found =>
      cases found with
      | none => rfl
      | some next => exact ih next

namespace WellFormed

/-- A child of the node a lookup is redirected to lies strictly below the current node. -/
theorem redirect_step (wf : WellFormed s) (last : s.Child (s.redirect x) y) : TransGen s.Child x y := by
  by_cases plain : ∀ m ∈ s.mounts, m.mountPoint ≠ x
  · rw [redirect_plain plain] at last
    exact .single last
  · push Not at plain
    obtain ⟨m, member, point, redirected⟩ := redirect_mounted plain
    have first := wf.anchored m member
    rw [point] at first
    rw [redirected] at last
    exact .head first (.single last)

/-- Looking a component up leads strictly down the children lists. -/
theorem walk_cons (wf : WellFormed s) (run : s.walk x (t :: ts) = .ok (some y)) : TransGen s.Child x y := by
  obtain ⟨kids, forest⟩ := wf.forest
  induction ts generalizing x t with
  | nil =>
    rw [walk_step] at run
    obtain ⟨_, found⟩ := forest.search_iff.mp run
    exact wf.redirect_step (forest.child_iff.mpr (child_some found).1)
  | cons u ts ih =>
    obtain ⟨next, first, rest⟩ := walk_cons_ok run
    obtain ⟨_, found⟩ := forest.search_iff.mp first
    exact (wf.redirect_step (forest.child_iff.mpr (child_some found).1)).trans (ih rest)

theorem walk_below (wf : WellFormed s) (run : s.walk x ts = .ok (some y)) : ReflTransGen s.Child x y := by
  cases ts with
  | nil =>
    cases run
    exact .refl
  | cons t ts => exact (wf.walk_cons run).to_reflTransGen

/-- The walk to a node does not pass it before. -/
theorem not_looksUpIn (wf : WellFormed s) (found : s.openPath path = .ok (some d)) :
    ¬ s.LooksUpIn path d := by
  rintro ⟨root, us, t, vs, top, split, early⟩
  have nonempty : path ≠ [] := by
    rintro rfl
    simp [components] at split
  rw [openPath, traverse_eq top nonempty, split] at found
  obtain ⟨middle, first, rest⟩ := walk_append_ok found
  cases Option.some.inj (Except.ok.inj (early.symm.trans first))
  exact wf.acyclic d (wf.walk_cons rest)

end WellFormed

namespace Spliced

theorem live (spliced : Spliced s kids d r s₁) : s₁.Live b ↔ s.Live b := by
  by_cases same : b = r
  · subst same
    obtain ⟨n, n', found, found', _⟩ := spliced.record
    exact ⟨fun _ => ⟨n, found⟩, fun _ => ⟨n', found'⟩⟩
  · exact part_live (spliced.core b same)

theorem nameOf (spliced : Spliced s kids d r s₁) (b : Addr) : s₁.nameOf b = s.nameOf b := by
  by_cases same : b = r
  · subst same
    obtain ⟨n, n', found, found', core⟩ := spliced.record
    have same := Node.core_name core
    simpa only [Vfs.nameOf, found, found', Option.bind_some] using same
  · exact nameOf_of_core (spliced.core b same)

/-- No component is called "/", so the spliced root is never found by name. -/
theorem search (forest : Forest s kids) (spliced : Spliced s kids d r s₁)
    (name : s.nameOf r = some ['/']) (component : Component t) (b : Addr) :
    s₁.vfsSearchNode b t = s.vfsSearchNode b t := by
  apply search_congr forest spliced.forest spliced.live
  unfold child
  have names : (fun c => decide (s₁.nameOf c = some t)) = fun c => decide (s.nameOf c = some t) := by
    funext c
    rw [spliced.nameOf]
  rw [names]
  by_cases host : b = d
  · subst host
    have other : ['/'] ≠ t := fun same => slash_notMem component same.symm
    rw [Function.update_self, List.find?_append, List.find?_singleton]
    simp [name, other]
  · rw [Function.update_of_ne host]

theorem redirect_self (spliced : Spliced s kids d r s₁) : s₁.redirect d = r := by
  simp [Vfs.redirect, spliced.mounts]

theorem redirect_other (spliced : Spliced s kids d r s₁) (ne : b ≠ d) : s₁.redirect b = s.redirect b := by
  have skip : decide (d = b) = false := by simpa using ne.symm
  simp only [Vfs.redirect, spliced.mounts, List.find?_cons, skip]

/-- A walk that never looks up at the mount point does not notice the mount. -/
theorem walk (forest : Forest s kids) (spliced : Spliced s kids d r s₁)
    (name : s.nameOf r = some ['/']) (good : ∀ t ∈ ts, Component t)
    (away : ∀ us t vs, ts = us ++ t :: vs → s.walk x us ≠ .ok (some d)) :
    s₁.walk x ts = s.walk x ts := by
  induction ts generalizing x with
  | nil => rfl
  | cons t ts ih =>
    have ne : x ≠ d := by
      rintro rfl
      exact away [] t ts rfl rfl
    simp only [Vfs.walk, spliced.redirect_other ne, spliced.search forest name (good t List.mem_cons_self)]
    cases step : s.vfsSearchNode (s.redirect x) t with
    | error fault => rfl
    | ok found =>
      cases found with
      | none => rfl
      | some next =>
        apply ih (fun u member => good u (List.mem_cons_of_mem t member))
        intro us u vs split
        have longer := away (t :: us) u vs (by rw [split, List.cons_append])
        simpa only [Vfs.walk, step, bind, Except.bind] using longer

end Spliced

theorem openPath_congr (root : s'.root = s.root)
    (walks : ∀ top, s.root = some top → s'.walk top (components path) = s.walk top (components path)) :
    s'.openPath path = s.openPath path := by
  by_cases empty : path = []
  · subst empty
    rfl
  · cases top : s.root with
    | none => simp only [openPath, vfsTraversePath, if_neg empty, top, root.trans top]
    | some a =>
      rw [openPath, openPath, traverse_eq top empty, traverse_eq (root.trans top) empty, walks a top]

namespace DetachedTree

/-- Inside the detached tree the walk meets no mount point. -/
theorem walk (forest : Forest s kids) (tree : DetachedTree s r) (spliced : Spliced s kids d r s₁)
    (outside : ¬ ReflTransGen s.Child r d) (inside : ReflTransGen s.Child r x) (alive : s.Live x)
    (good : ∀ t ∈ ts, Component t) : s₁.walk x ts = (s.alone r).walk x ts := by
  induction ts generalizing x with
  | nil => rfl
  | cons t ts ih =>
    have ne : x ≠ d := fun same => outside (same ▸ inside)
    have here : s₁.redirect x = x := by
      rw [spliced.redirect_other ne]
      exact redirect_plain fun m member => (tree.apart x inside).2 m member
    have there : (s.alone r).redirect x = x := redirect_plain (by simp [alone])
    simp only [Vfs.walk, here, there, search_alone forest,
      spliced.search forest tree.name (good t List.mem_cons_self),
      forest.search alive]
    cases found : s.child kids x t with
    | none => rfl
    | some next =>
      have member := (child_some found).1
      exact ih (inside.tail (forest.child_iff.mpr member)) (forest.live member)
        fun u later => good u (List.mem_cons_of_mem t later)

end DetachedTree

/-- A root as `vfs_initialize` left it, other than that of the tree, is a detached tree. -/
theorem DetachedTree.fresh (forest : Forest s kids) (unused : s.heap r = some rootNode)
    (other : s.root ≠ some r) (points : ∀ m ∈ s.mounts, m.mountPoint ≠ r) : DetachedTree s r := by
  have outside := forest.unlisted_parent unused rfl
  have unlisted : ∀ d, ¬ s.Child d r := fun d child => outside d (forest.child_iff.mp child)
  refine ⟨⟨rootNode, unused, rfl⟩, ?_, unlisted, fun x below => ?_⟩
  · simp only [nameOf, unused, Option.bind_some, rootNode]
  · cases childless_below unused rfl below
    refine ⟨fun root top under => ?_, points⟩
    rcases ReflTransGen.cases_tail under with same | ⟨d, _, last⟩
    · exact other (same ▸ top)
    · exact unlisted d last

def Acyclic (kids : Kids) : Prop := ∀ a, ¬ TransGen (fun d c => c ∈ kids d) a a

theorem Acyclic.mono (acyclic : Acyclic kids) (sub : ∀ d, ∀ c ∈ kids' d, c ∈ kids d) : Acyclic kids' :=
  fun a loop => acyclic a (TransGen.mono (fun d c => sub d c) _ _ loop)

/-- A new leaf closes no cycle. -/
theorem Acyclic.append (acyclic : Acyclic kids) (leaf : kids c = []) (ne : c ≠ d) :
    Acyclic (Function.update kids d (kids d ++ [c])) := by
  have paths : ∀ {x y}, TransGen (fun e b => b ∈ Function.update kids d (kids d ++ [c]) e) x y →
      TransGen (fun e b => b ∈ kids e) x y ∨ y = c := by
    intro x y path
    induction path with
    | single member =>
      rcases mem_update_append.mp member with old | ⟨_, added⟩
      · exact .inl (.single old)
      · exact .inr (List.mem_singleton.mp added)
    | @tail b y _ member ih =>
      rcases mem_update_append.mp member with old | ⟨_, added⟩
      · rcases ih with before | rfl
        · exact .inl (before.tail old)
        · rw [leaf] at old
          exact absurd old List.not_mem_nil
      · exact .inr (List.mem_singleton.mp added)
  intro a loop
  rcases paths loop with old | rfl
  · exact acyclic a old
  · obtain ⟨b, member, _⟩ := TransGen.head'_iff.mp loop
    rw [Function.update_of_ne ne, leaf] at member
    exact List.not_mem_nil member

theorem Change.acyclic (forest : Forest s kids) (acyclic : Acyclic kids) (fresh : FreshMount s op)
    (change : Change s kids op s' kids') : Acyclic kids' := by
  cases change with
  | idle => exact acyclic
  | vfsInitialize => exact acyclic
  | create _ _ _ d a _ free _ _ live _ =>
    exact acyclic.append (forest.dead a free) (live.ne_fresh free).symm
  | remove _ c _ _ _ _ _ _ => exact acyclic.mono fun d x member => (mem_prune.mp member).2.1
  | mount _ d r _ _ _ ne _ _ =>
    refine acyclic.append ?_ ne.symm
    have head := forest.children_eq (show s.heap r = some rootNode from fresh)
    exact List.head?_eq_none_iff.mp head.symm
  | unmount _ d entry _ _ _ _ =>
    exact acyclic.mono fun e x member => ((mem_update_erase (forest.nodup d)).mp member).1

/-- Runs with fresh mounts and sparing removals stay among well-formed states. -/
theorem run_wellFormed (root : Addr) (reached : Reachable (Along Step FreshSparing) (boot root) s) :
    WellFormed s := by
  obtain ⟨kids, forest, anchored, acyclic, top⟩ :
      ∃ kids, Forest s kids ∧ Anchored s kids ∧ Acyclic kids ∧ s.root = some root := by
    refine reached_invariant (I := fun s kids => Anchored s kids ∧ Acyclic kids ∧ s.root = some root)
      (fun _ _ allowed => allowed.1.clean) ?_ ?_ reached
    · refine ⟨⟨fun m member => absurd member List.not_mem_nil, .nil⟩, fun a loop => ?_, rfl⟩
      obtain ⟨b, member, _⟩ := TransGen.head'_iff.mp loop
      exact List.not_mem_nil member
    · rintro s kids op s' kids' forest ⟨anchored, acyclic, top⟩ ⟨fresh, spares⟩ change
      exact ⟨change.anchored forest anchored spares, change.acyclic forest acyclic fresh,
        change.root.trans top⟩
  refine ⟨⟨kids, forest⟩, ⟨root, top⟩, fun m member => forest.child_iff.mpr (anchored.listed m member),
    fun a loop => ?_⟩
  rw [forest.child_eq] at loop
  exact acyclic a loop

namespace Spliced

/-- Below the target the detached tree is seen as it is on its own. -/
theorem openPath_below (forest : Forest s kids) (tree : DetachedTree s r) (spliced : Spliced s kids d r s₁)
    (outside : ¬ ReflTransGen s.Child r d) (top : s₁.root = some root)
    (target : s₁.walk root (components path) = .ok (some d)) {q : CString} (nonempty : components q ≠ []) :
    s₁.openPath (path ++ '/' :: q) = (s.alone r).openPath q := by
  have given : q ≠ [] := by
    rintro rfl
    exact nonempty rfl
  have full : path ++ '/' :: q ≠ [] := by simp
  have tops : (s.alone r).root = some r := rfl
  obtain ⟨t, ts, split⟩ := List.exists_cons_of_ne_nil nonempty
  have good := components_good q
  rw [split] at good
  have own : (s.alone r).redirect r = r := redirect_plain (by simp [alone])
  have first : s₁.vfsSearchNode r t = (s.alone r).vfsSearchNode r t :=
    (spliced.search forest tree.name (good t List.mem_cons_self) r).trans (search_alone forest r t).symm
  rw [Vfs.openPath, Vfs.openPath, traverse_eq top full, traverse_eq tops given, components_slash,
    walk_append, target, split]
  simp only [bind, Except.bind, Vfs.walk, spliced.redirect_self, own, first]
  cases step : (s.alone r).vfsSearchNode r t with
  | error fault => rfl
  | ok found =>
    cases found with
    | none => rfl
    | some next =>
      have forest' : Forest (s.alone r) kids := forest.of_heap rfl
      obtain ⟨_, listed⟩ := forest'.search_iff.mp step
      have member := (child_some listed).1
      exact tree.walk forest spliced outside (.single (forest.child_iff.mpr member)) (forest.live member)
        fun u later => good u (List.mem_cons_of_mem t later)

/-- Unmounting takes the root out again and leaves lists, names and table as before. -/
theorem unmount (spliced : Spliced s kids d r s₁) (unlisted : Unlisted kids r) (alive : s.Live d)
    (top : s₁.root = some root) (target : s₁.vfsTraversePath path = .ok (some d)) :
    ∃ s₂, s₁.vfsUnmount (some path) = .ok (.success, s₂) ∧ Forest s₂ kids ∧ s₂.root = s.root ∧
      s₂.mounts = s.mounts ∧ (∀ e, s₂.Live e ↔ s.Live e) ∧ ∀ c, s₂.nameOf c = s.nameOf c := by
  obtain ⟨p, host⟩ : s₁.Live d := spliced.live.mpr alive
  have forest₁ : Forest (s₁.setMounts s.mounts) (Function.update kids d (kids d ++ [r])) :=
    spliced.forest.of_heap rfl
  obtain ⟨s₂, unlinked, forest₂, relinked⟩ := forest₁.unlink (p := p) host r
  have back : Function.update (Function.update kids d (kids d ++ [r])) d
      ((Function.update kids d (kids d ++ [r]) d).erase r) = kids := by
    rw [Function.update_self, List.erase_append_right _ (unlisted d), List.erase_cons_head, List.append_nil,
      Function.update_idem, Function.update_eq_self]
  have taken : takeMount d s₁.mounts = some (⟨d, r⟩, s.mounts) := by
    rw [spliced.mounts, takeMount, if_pos rfl]
  refine ⟨s₂, ?_, back ▸ forest₂, relinked.root.trans spliced.root, relinked.mounts, ?_, ?_⟩
  · simp only [vfsUnmount, top, target, bind, Except.bind, taken, unlinked, pure, Except.pure]
  · exact fun e => relinked.core.live_iff.trans spliced.live
  · exact fun c => (relinked.core.nameOf c).trans (spliced.nameOf c)

end Spliced

/-- Mounting a detached tree on a folder succeeds, shows the tree below the
target and changes no path that looks nothing up there; unmounting then
succeeds and brings the mount table, every list and every path back. -/
theorem mount_overlays (wf : WellFormed s) (target : s.openPath path = .ok (some d))
    (folder : ∃ p, s.heap d = some p ∧ p.type = .folder) (tree : DetachedTree s r) :
    ∃ s₁, s.vfsMount (some path) (some r) = .ok (.success, s₁) ∧
      (∀ q, components q ≠ [] → s₁.openPath (path ++ '/' :: q) = (s.alone r).openPath q) ∧
      (∀ other, ¬ s.LooksUpIn other d → s₁.openPath other = s.openPath other) ∧
      ∃ s₂, s₁.vfsUnmount (some path) = .ok (.success, s₂) ∧ s₂.mounts = s.mounts ∧
        (∀ e l, s₂.ChildList e l ↔ s.ChildList e l) ∧ ∀ other, s₂.openPath other = s.openPath other := by
  obtain ⟨kids, forest⟩ := wf.forest
  obtain ⟨root, top⟩ := wf.rooted
  obtain ⟨p, host, isFolder⟩ := folder
  obtain ⟨n, found, last⟩ := tree.record
  have unlisted : Unlisted kids r := fun e member => tree.unlisted e (forest.child_iff.mpr member)
  have nonempty : path ≠ [] := by
    rintro rfl
    simp [openPath, vfsTraversePath, pure, Except.pure] at target
  have walked : s.walk root (components path) = .ok (some d) := by
    rw [← traverse_eq top nonempty]
    exact target
  have outside : ¬ ReflTransGen s.Child r d :=
    fun below => (tree.apart d below).1 root top (wf.walk_below walked)
  have ne : d ≠ r := by
    rintro rfl
    exact outside .refl
  obtain ⟨s₁, mounted, spliced⟩ := vfsMount_ok forest top target host isFolder found last unlisted ne
  have top₁ := spliced.root.trans top
  have unchanged : ∀ other, ¬ s.LooksUpIn other d → s₁.openPath other = s.openPath other := by
    intro other away
    apply openPath_congr spliced.root
    intro start top'
    exact spliced.walk forest tree.name (components_good other)
      fun us t vs split early => away ⟨start, us, t, vs, top', split, early⟩
  have reached : s₁.vfsTraversePath path = .ok (some d) :=
    (unchanged path (wf.not_looksUpIn target)).trans target
  have walked₁ : s₁.walk root (components path) = .ok (some d) := by
    rw [← traverse_eq top₁ nonempty]
    exact reached
  obtain ⟨s₂, unmounted, forest₂, root₂, mounts₂, live, names⟩ :=
    spliced.unmount unlisted ⟨p, host⟩ top₁ reached
  refine ⟨s₁, mounted, fun q => spliced.openPath_below forest tree outside top₁ walked₁, unchanged,
    s₂, unmounted, mounts₂, ?_, ?_⟩
  · intro e l
    rw [forest₂.childList_iff, forest.childList_iff, live e]
  · intro other
    refine openPath_congr root₂ fun start _ => walk_congr ?_ ?_ start (components other)
    · intro e
      simp only [redirect, mounts₂]
    · intro e t
      apply search_congr forest forest₂ (live e)
      simp only [child, names]

/-- A second file system mounted over the first at `/m`, and taken off again. -/
theorem mount_overlays_stacked : ∃ s s₁ s₂, Run Step (boot 0) (mountedAtM ++ [.vfsInitialize 3]) s ∧
    s.mounts = [⟨1, 2⟩] ∧ s.vfsMount (some "/m".toList) (some 3) = .ok (.success, s₁) ∧
    s₁.vfsUnmount (some "/m".toList) = .ok (.success, s₂) ∧ s₂.mounts = [⟨1, 2⟩] := by
  have tested : (script (fun s op => freshCheck s op && sparesMounts s op) (boot 0)
      (mountedAtM ++ [.vfsInitialize 3])).any (fun s => s.mounts = [⟨1, 2⟩] ∧ s.heap 3 = some rootNode ∧
        s.root = some 0 ∧ (s.heap 1).map Node.type = some .folder ∧
        s.openPath "/m".toList = .ok (some 1)) = true := by decide +kernel
  obtain ⟨s, run, table, unused, top, host, target⟩ := script_sparing tested
  have wf := run_wellFormed 0 ⟨_, run⟩
  obtain ⟨kids, forest⟩ := wf.forest
  have point : ∀ m ∈ s.mounts, m.mountPoint ≠ 3 := by
    rw [table]
    decide
  have tree : DetachedTree s 3 := .fresh forest unused (by rw [top]; decide) point
  obtain ⟨s₁, mounted, _, _, s₂, unmounted, back, _⟩ :=
    mount_overlays wf target (Option.map_eq_some_iff.mp host) tree
  exact ⟨s, s₁, s₂, run.mono fun _ _ _ step => step.1, table, mounted, unmounted, back.trans table⟩

end Laomb.VFS
