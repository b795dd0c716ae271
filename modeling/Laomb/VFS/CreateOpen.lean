import Laomb.VFS.Runs

/-! `create` followed by `open` of the same path. The walker leaves a mount
point only when a further component follows, so `create` ends at the mount
point itself while `open` goes on below the mounted root. -/
namespace Laomb.VFS
open LinkedList Transition Vfs Fields

/-- `/c1/.../ck` with at least one component, none empty or with a slash inside. -/
def Canonical (path : CString) : Prop :=
  ∃ parts, parts ≠ [] ∧ (∀ part ∈ parts, Component part) ∧ path = render parts

/-- The node `create` looks up for the part of the path before the last slash. -/
def Vfs.hostOf (s : Vfs) (path : CString) : Result Ptr :=
  match lastSlash path with
  | none => pure none
  | some slash => do s.vfsTraversePath (← parentPath path slash)

/-- The mounted root is as `vfs_initialize` left it. -/
def FreshMount (s : Vfs) : Op → Prop
  | .mount _ root => s.heap root = some rootNode
  | _ => True

/-- No entry mounts a node on itself. -/
def Apart (s : Vfs) : Prop := ∀ m ∈ s.mounts, m.mountPoint ≠ m.mountedRoot

variable {s s' : Vfs} {kids kids' : Kids} {a b c d e r : Addr} {op : Op} {text name path : CString}
  {type : NodeType} {ts : List CString}

theorem FreshMount.clean (fresh : FreshMount s op) : CleanMount s op := by
  cases op with
  | mount _ root =>
    intro n found
    cases Option.some.inj (found.symm.trans fresh)
    rfl
  | vfsInitialize _ | create _ _ _ | removeP _ | remove _ | unmount _ => trivial

theorem Change.mounts_sub (change : Change s kids op s' kids') :
    ∀ m ∈ s'.mounts, m ∈ s.mounts ∨ m.mountPoint ≠ m.mountedRoot := by
  intro m member
  cases change with
  | idle => exact .inl member
  | vfsInitialize => exact .inl member
  | create _ _ _ _ _ _ _ _ _ _ created => exact .inl (created.mounts ▸ member)
  | remove _ _ _ _ _ _ _ destroyed => exact .inl (destroyed.mounts ▸ member)
  | mount _ _ _ _ _ _ ne _ spliced =>
    rw [spliced.mounts] at member
    rcases List.mem_cons.mp member with rfl | old
    · exact .inr ne
    · exact .inl old
  | unmount _ _ _ _ _ taken unspliced =>
    exact .inl (takeMount_sub taken m (unspliced.mounts ▸ member))

theorem Change.root (change : Change s kids op s' kids') : s'.root = s.root := by
  cases change with
  | idle => rfl
  | vfsInitialize => rfl
  | create _ _ _ _ _ _ _ _ _ _ created => exact created.root
  | remove _ _ _ _ _ _ _ destroyed => exact destroyed.root
  | mount _ _ _ _ _ _ _ _ spliced => exact spliced.root
  | unmount _ _ _ _ _ _ unspliced => exact unspliced.root

theorem canonical_split (canonical : Canonical path) :
    ∃ left name, path = left ++ '/' :: name ∧ Component name ∧
      components path = components left ++ [name] := by
  obtain ⟨parts, nonempty, good, rfl⟩ := canonical
  rcases List.eq_nil_or_concat' parts with empty | ⟨front, last, rfl⟩
  · exact absurd empty nonempty
  · have component : Component last := good last (by simp)
    have early : ∀ part ∈ front, Component part := fun part member => good part (by simp [member])
    refine ⟨render front, last, by simp [render, join], component, ?_⟩
    rw [components_render good, components_render early]

theorem create_open_iff (forest : Forest s kids) (apart : Apart s) (canonical : Canonical path)
    (absent : s.openPath path = .ok none) (free : s.Fresh a)
    (run : s.create path type a = .ok (.success, s')) :
    s'.openPath path = .ok (some a) ↔
      ∀ d, s.hostOf path = .ok (some d) → ∀ m ∈ s.mounts, m.mountPoint ≠ d := by
  obtain ⟨left, name, rfl, component, parts⟩ := canonical_split canonical
  have outside := (component_iff.mp component).2
  rcases create_cases forest free run with
    ⟨fails, _⟩ | ⟨left', name', d, p, same, outside', short, host, _, _, _, _, created⟩
  · exact absurd rfl fails
  have lengths := (lastSlash_append outside).symm.trans (same ▸ lastSlash_append outside')
  obtain ⟨rfl, tails⟩ := List.append_inj same (Option.some.inj lengths)
  cases List.cons.inj tails |>.2
  have hosted : s.hostOf (left ++ '/' :: name) = .ok (some d) := by
    simp only [hostOf, lastSlash_append outside, parentPath_append short, bind, Except.bind, host]
  obtain ⟨root, rooted⟩ : ∃ root, s.root = some root := by
    cases top : s.root with
    | none =>
      by_cases empty : left = [] <;>
        simp [vfsTraversePath, top, hostPath, empty] at host
    | some root => exact ⟨root, rfl⟩
  rw [traverse_hostPath rooted] at host
  have opened : ∀ t : Vfs, t.root = some root →
      t.openPath (left ++ '/' :: name) = t.walk root (components left ++ [name]) := by
    intro t top
    rw [openPath, traverse_eq top (by simp), parts]
  have before : s.vfsSearchNode (s.redirect d) name = .ok none := by
    rw [opened s rooted, walk_append, host] at absent
    simpa only [bind, Except.bind, walk_step] using absent
  have after : s'.openPath (left ++ '/' :: name) = s'.vfsSearchNode (s.redirect d) name := by
    rw [opened s' (created.root.trans rooted), walk_append, created.walk forest free host]
    simp only [bind, Except.bind, walk_step, created.redirect]
  rw [after]
  constructor
  · intro found e hosted' m member point
    cases Option.some.inj (Except.ok.inj (hosted.symm.trans hosted'))
    obtain ⟨m', member', point', redirected⟩ := redirect_mounted ⟨m, member, point⟩
    have away : s.redirect d ≠ d := by
      rw [redirected]
      exact fun same => apart m' member' (point'.trans same.symm)
    obtain ⟨_, listed⟩ := created.forest.search_iff.mp found
    rw [created.child_other forest free away] at listed
    exact forest.unlisted_dead free _ (child_some listed).1
  · intro plain
    rw [redirect_plain (plain d hosted)] at before ⊢
    obtain ⟨alive, unlisted⟩ := forest.search_iff.mp before
    refine created.forest.search_iff.mpr ⟨created.live alive, ?_⟩
    rw [created.child_host forest free, unlisted, if_pos rfl, Option.none_or]

/-- In every state that calls with fresh mounts lead to, `open` returns the
node just created exactly when the parent is not a mount point. -/
theorem run_create_open_iff (root : Addr)
    (reached : Reachable (Along Step FreshMount) (boot root) s) (canonical : Canonical path)
    (absent : s.openPath path = .ok none) (free : s.Fresh a)
    (run : s.create path type a = .ok (.success, s')) :
    s'.openPath path = .ok (some a) ↔
      ∀ d, s.hostOf path = .ok (some d) → ∀ m ∈ s.mounts, m.mountPoint ≠ d := by
  obtain ⟨kids, forest, apart⟩ : ∃ kids, Forest s kids ∧ Apart s := by
    refine reached_invariant (I := fun s _ => Apart s) (fun _ _ fresh => fresh.clean) ?_ ?_ reached
    · exact fun m member => absurd member List.not_mem_nil
    · intro s kids op s' kids' forest apart _ change m member
      rcases change.mounts_sub m member with old | distinct
      · exact apart m old
      · exact distinct
  exact create_open_iff forest apart canonical absent free run

def freshMount (s : Vfs) : Op → Bool
  | .mount _ root => s.heap root = some rootNode
  | _ => true

theorem freshMount_sound (passed : freshMount s op = true) : FreshMount s op := by
  cases op with
  | mount _ root =>
    have unused : s.heap root = some rootNode := of_decide_eq_true passed
    exact unused
  | vfsInitialize _ | create _ _ _ | removeP _ | remove _ | unmount _ => trivial

/-- A fresh file system mounted at `/m`. -/
def mountedAtM : List Op := [.create "/m".toList .folder 1, .vfsInitialize 2, .mount "/m".toList 2]

def freshCheck (s : Vfs) (op : Op) : Bool := admissible s op && freshMount s op

theorem script_fresh {P : Vfs → Prop} [DecidablePred P] {ops : List Op}
    (tested : (script freshCheck s ops).any (fun s => P s) = true) :
    ∃ s', Run (Along Step FreshMount) s ops s' ∧ P s' := by
  refine script_run (fun s op passed => ?_) tested
  obtain ⟨allowed, unused⟩ := Bool.and_eq_true _ _ ▸ passed
  exact ⟨admissible_sound allowed, freshMount_sound unused⟩

theorem canonical_single (component : Component name) : Canonical ('/' :: name) :=
  ⟨[name], by simp, by simpa using component, by simp [render, join]⟩

theorem create_ok_of (s : Vfs) (path : CString) (type : NodeType) (a : Addr)
    (code : (s.create path type a).map (fun r => r.1) = .ok .success)
    {found : Result Ptr} (value : (s.create path type a).bind (fun r => r.2.openPath path) = found) :
    ∃ s', s.create path type a = .ok (.success, s') ∧ s'.openPath path = found := by
  cases run : s.create path type a with
  | error fault => simp [run, Except.map] at code
  | ok result =>
    obtain ⟨err, s'⟩ := result
    rw [run] at code value
    have success : err = .success := Except.ok.inj code
    exact ⟨s', by rw [success], value⟩

/-- Next to the mount point a created file is found. -/
theorem run_create_open_beside : ∃ s s', Run Step (boot 0) mountedAtM s ∧
    s.create "/f".toList .file 3 = .ok (.success, s') ∧ s'.openPath "/f".toList = .ok (some 3) := by
  have tested : (script freshCheck (boot 0) mountedAtM).any (fun s => s.openPath "/f".toList = .ok none ∧
      s.Fresh 3 ∧ s.hostOf "/f".toList = .ok (some 0) ∧ s.mounts = [⟨1, 2⟩] ∧
      (s.create "/f".toList .file 3).map (fun r => r.1) = .ok .success) = true := by decide +kernel
  obtain ⟨s, run, absent, free, top, table, code⟩ := script_fresh tested
  obtain ⟨s', created, _⟩ := create_ok_of s "/f".toList .file 3 code rfl
  have named : Component "f".toList := ⟨by simp, by simp⟩
  refine ⟨s, s', run.mono fun _ _ _ step => step.1, created, ?_⟩
  apply (run_create_open_iff 0 ⟨_, run⟩ (canonical_single named) absent free created).mpr
  intro d host m member point
  cases Option.some.inj (Except.ok.inj (top.symm.trans host))
  rw [table, List.mem_singleton] at member
  subst member
  exact absurd point (by decide)

/-- Created in the mount point itself, a file cannot be opened: it is listed
behind the mounted root that the walker turns to. -/
theorem mountPoint_hides_created : ∃ s s', Run (Along Step FreshMount) (boot 0) mountedAtM s ∧
    Canonical "/m/x".toList ∧ s.openPath "/m/x".toList = .ok none ∧ s.Fresh 3 ∧
    s.create "/m/x".toList .file 3 = .ok (.success, s') ∧ s'.openPath "/m/x".toList = .ok none := by
  have tested : (script freshCheck (boot 0) mountedAtM).any (fun s =>
      s.openPath "/m/x".toList = .ok none ∧ s.Fresh 3 ∧
      (s.create "/m/x".toList .file 3).map (fun r => r.1) = .ok .success ∧
      (s.create "/m/x".toList .file 3).bind (fun r => r.2.openPath "/m/x".toList) = .ok none) = true := by
    decide +kernel
  obtain ⟨s, run, absent, free, code, found⟩ := script_fresh tested
  obtain ⟨s', created, hidden⟩ := create_ok_of s "/m/x".toList .file 3 code found
  have canonical : Canonical "/m/x".toList := by
    refine ⟨["m".toList, "x".toList], by simp, fun part member => ?_, rfl⟩
    simp only [List.mem_cons, List.not_mem_nil, or_false] at member
    rcases member with rfl | rfl <;> exact ⟨by simp, by simp⟩
  exact ⟨s, s', run, canonical, absent, free, created, hidden⟩

end Laomb.VFS
