import Laomb.Base.Transition
import Laomb.VFS.Calls

/-! Whole runs of the file system calls, and the forest invariant over them. -/
namespace Laomb.VFS
open LinkedList Transition Vfs Fields

/-- A call with its arguments; allocating calls name the address `kmalloc` returns. -/
inductive Op where
  | vfsInitialize (fresh : Addr)
  | create (path : CString) (type : NodeType) (fresh : Addr)
  | removeP (path : CString)
  | remove (handle : Addr)
  | mount (target : CString) (root : Addr)
  | unmount (target : CString)

def Op.run (s : Vfs) : Op → Result (Err × Vfs)
  | .vfsInitialize fresh => pure (.success, s.vfsInitialize fresh)
  | .create path type fresh => s.create path type fresh
  | .removeP path => s.removeP path
  | .remove handle => s.remove (some handle)
  | .mount target root => s.vfsMount (some target) (some root)
  | .unmount target => s.vfsUnmount (some target)

namespace Vfs

/-- `c` is met when the children list of `d` is followed. -/
def Child (s : Vfs) (d c : Addr) : Prop := ∃ n, s.heap d = some n ∧ Passes s.nextOf n.children c

/-- Some mount entry names `r`, and its mount point lists it. -/
def Mounted (s : Vfs) (r : Addr) : Prop := ∃ m ∈ s.mounts, m.mountedRoot = r ∧ s.Child m.mountPoint r

/-- A live root that `vfs_initialize` made, other than the root of `g_Vfs`,
and not mounted at the moment. Only such roots are named "/". -/
structure LooseRoot (s : Vfs) (r : Addr) : Prop where
  live : s.Live r
  name : s.nameOf r = some ['/']
  other : s.root ≠ some r
  loose : ¬ s.Mounted r

end Vfs

/-- What a caller must respect: `kmalloc` returns free memory, handles are
live, and a mounted file system is a loose root. -/
def Op.Allowed (s : Vfs) : Op → Prop
  | .vfsInitialize fresh => s.Fresh fresh
  | .create _ _ fresh => s.Fresh fresh
  | .removeP _ => True
  | .remove handle => s.Live handle
  | .mount _ root => s.LooseRoot root
  | .unmount _ => True

def Step (s : Vfs) (op : Op) (s' : Vfs) : Prop := op.Allowed s ∧ ∃ err, op.run s = .ok (err, s')

/-- A mount is clean when the root to be mounted has no link to a sibling. -/
def CleanMount (s : Vfs) : Op → Prop
  | .mount _ root => ∀ n, s.heap root = some n → n.next = none
  | _ => True

/-- Every children list ends, lists no node twice and shares none with
another, and the listed nodes point back at the directory. -/
structure IsForest (s : Vfs) : Prop where
  finite : ∀ d, s.Live d → ∃ l, s.ChildList d l
  once : ∀ d l, s.ChildList d l → l.Nodup
  owner : ∀ d e l m c, s.ChildList d l → s.ChildList e m → c ∈ l → c ∈ m → d = e
  parent : ∀ d l c, s.ChildList d l → c ∈ l → ∃ n, s.heap c = some n ∧ n.parent = some d

/-- What one call can do to a forest, with the new lists. -/
inductive Change (s : Vfs) (kids : Kids) : Op → Vfs → Kids → Prop where
  | idle (op : Op) : Change s kids op s kids
  | vfsInitialize (a : Addr) : s.Fresh a → Change s kids (.vfsInitialize a) (s.vfsInitialize a) kids
  | create (left name : CString) (type : NodeType) (d a : Addr) (s' : Vfs) : s.Fresh a → '/' ∉ name →
      s.vfsTraversePath (hostPath left) = .ok (some d) → s.Live d → Created s kids d name type a s' →
      Change s kids (.create (left ++ '/' :: name) type a) s' (Function.update kids d (kids d ++ [a]))
  | remove (op : Op) (c : Addr) (n : Node) (s' : Vfs) : s.heap c = some n → n.parent ≠ none →
      (op = .remove c ∨ ∃ path, op = .removeP path ∧ s.openPath path = .ok (some c)) →
      Destroyed (subtree kids c) s kids s' → Change s kids op s' (prune (subtree kids c) kids)
  | mount (target : CString) (d r : Addr) (s' : Vfs) : s.LooseRoot r → Unlisted kids r → d ≠ r →
      s.Live d → Spliced s kids d r s' →
      Change s kids (.mount target r) s' (Function.update kids d (kids d ++ [r]))
  | unmount (target : CString) (d : Addr) (entry : Mount) (rest : List Mount) (s' : Vfs) :
      takeMount d s.mounts = some (entry, rest) → Unspliced s kids d entry rest s' →
      Change s kids (.unmount target) s' (Function.update kids d ((kids d).erase entry.mountedRoot))

/-- A listed node named "/" is a mounted root, and the mount table says where. -/
def RootsListed (s : Vfs) (kids : Kids) : Prop :=
  ∀ d, ∀ c ∈ kids d, s.nameOf c = some ['/'] → ⟨d, c⟩ ∈ s.mounts

variable {s s' : Vfs} {kids kids' : Kids} {a b c d e r : Addr} {op : Op} {n : Node} {text : CString}
  {type : NodeType}

namespace Forest

theorem child_iff (forest : Forest s kids) : s.Child d c ↔ c ∈ kids d := by
  constructor
  · rintro ⟨n, found, passes⟩
    exact (forest.chain d n found).passes_iff.mp passes
  · intro member
    obtain ⟨n, found⟩ := forest.live_parent member
    exact ⟨n, found, (forest.chain d n found).passes_iff.mpr member⟩

theorem isForest (forest : Forest s kids) : IsForest s := by
  refine ⟨?_, ?_, ?_, ?_⟩
  · rintro d ⟨n, found⟩
    exact ⟨kids d, forest.childList found⟩
  · intro d l list
    exact forest.childList_eq list ▸ forest.nodup d
  · intro d e l m c left right inLeft inRight
    rw [forest.childList_eq left] at inLeft
    rw [forest.childList_eq right] at inRight
    exact forest.owner inLeft inRight
  · intro d l c list member
    rw [forest.childList_eq list] at member
    obtain ⟨n, found⟩ := forest.live member
    exact ⟨n, found, forest.parent d c n member found⟩

end Forest

theorem slash_notMem (name : Component text) : text ≠ ['/'] := by
  rintro rfl
  exact (component_iff.mp name).2 List.mem_cons_self

/-- A path leads to the root of the tree or to a node that is not named "/". -/
theorem traverse_ends (forest : Forest s kids) {path : CString}
    (run : s.vfsTraversePath path = .ok (some d)) :
    s.root = some d ∨ ∃ e, d ∈ kids e ∧ s.nameOf d ≠ some ['/'] := by
  cases root : s.root with
  | none =>
    rw [vfsTraversePath] at run
    split at run <;> simp [root, pure, Except.pure] at run
  | some a =>
    have nonempty : path ≠ [] := by
      rintro rfl
      simp [vfsTraversePath, pure, Except.pure] at run
    rw [traverse_eq root nonempty] at run
    rcases List.eq_nil_or_concat' (components path) with empty | ⟨ts, t, split⟩
    · rw [empty] at run
      cases run
      exact .inl rfl
    · rw [split] at run
      obtain ⟨e, member, name⟩ := forest.walk_listed run
      have good : Component t := part_of_mem (l := path) (by rw [← components, split]; simp)
      refine .inr ⟨e, member, ?_⟩
      rw [name]
      exact fun same => slash_notMem good (Option.some.inj same)

theorem loose_unlisted (forest : Forest s kids) (listed : RootsListed s kids) (loose : s.LooseRoot r) :
    Unlisted kids r := by
  intro e member
  exact loose.loose ⟨⟨e, r⟩, listed e r member loose.name, rfl, forest.child_iff.mpr member⟩

theorem step_change (forest : Forest s kids) (listed : RootsListed s kids) (step : Step s op s')
    (clean : CleanMount s op) : ∃ kids', Change s kids op s' kids' := by
  obtain ⟨allowed, err, run⟩ := step
  cases op with
  | vfsInitialize a =>
    cases run
    exact ⟨kids, .vfsInitialize a allowed⟩
  | create path type a =>
    rcases create_cases forest allowed run with
      ⟨_, rfl⟩ | ⟨left, name, d, p, rfl, outside, _, host, record, _, _, _, created⟩
    · exact ⟨kids, .idle _⟩
    · exact ⟨_, .create left name type d a s' allowed outside host ⟨p, record⟩ created⟩
  | removeP path =>
    obtain ⟨handle, opened, removed⟩ := removeP_eq run
    rcases remove_cases forest removed with ⟨_, rfl⟩ | ⟨c, n, rfl, found, parent, _, destroyed⟩
    · exact ⟨kids, .idle _⟩
    · exact ⟨_, .remove _ c n s' found parent (.inr ⟨path, rfl, opened⟩) destroyed⟩
  | remove handle =>
    have removed : s.remove (some handle) = .ok (err, s') := run
    rcases remove_cases forest removed with ⟨_, rfl⟩ | ⟨c, n, same, found, parent, _, destroyed⟩
    · exact ⟨kids, .idle _⟩
    · cases same
      exact ⟨_, .remove _ handle n s' found parent (.inl rfl) destroyed⟩
  | mount target r =>
    have loose : s.LooseRoot r := allowed
    obtain ⟨n, found⟩ := loose.live
    have outside := loose_unlisted forest listed loose
    have apart : s.vfsTraversePath target ≠ .ok (some r) := by
      intro reached
      rcases traverse_ends forest reached with root | ⟨e, member, _⟩
      · exact loose.other root
      · exact outside e member
    rcases vfsMount_cases forest found (clean n found) outside apart run with
      ⟨_, rfl⟩ | ⟨d, p, _, host, _, ne, _, spliced⟩
    · exact ⟨kids, .idle _⟩
    · exact ⟨_, .mount target d r s' loose outside ne ⟨p, host⟩ spliced⟩
  | unmount target =>
    rcases vfsUnmount_cases forest run with ⟨_, rfl⟩ | ⟨d, entry, rest, _, taken, _, unspliced⟩
    · exact ⟨kids, .idle _⟩
    · exact ⟨_, .unmount target d entry rest s' taken unspliced⟩

theorem Change.forest (forest : Forest s kids) (change : Change s kids op s' kids') :
    Forest s' kids' := by
  cases change with
  | idle => exact forest
  | vfsInitialize a free => exact forest.alloc free rootNode_sound rfl
  | create _ _ _ _ _ _ _ _ _ _ created => exact created.forest
  | remove _ _ _ _ _ _ _ destroyed => exact destroyed.forest
  | mount _ _ _ _ _ _ _ _ spliced => exact spliced.forest
  | unmount _ _ _ _ _ _ unspliced => exact unspliced.forest

theorem Change.rootsListed (forest : Forest s kids) (listed : RootsListed s kids)
    (change : Change s kids op s' kids') : RootsListed s' kids' := by
  cases change with
  | idle => exact listed
  | vfsInitialize a free =>
    intro e c member name
    have other : c ≠ a := fun same => forest.unlisted_dead free e (same ▸ member)
    apply listed e c member
    simpa only [nameOf, Vfs.vfsInitialize, store_heap, Function.update_of_ne other] using name
  | create left text type d a s' free outside _ _ created =>
    intro e c member name
    rw [created.mounts]
    rcases mem_update_append.mp member with old | ⟨_, added⟩
    · have other : c ≠ a := fun same => forest.unlisted_dead free e (same ▸ old)
      exact listed e c old (nameOf_of_core (created.core c other) ▸ name)
    · cases List.mem_singleton.mp added
      rw [created.nameOf, Option.some.injEq] at name
      exact absurd (name ▸ List.mem_cons_self) outside
  | remove _ c n s' _ _ _ destroyed =>
    intro e x member name
    obtain ⟨_, old, survives⟩ := mem_prune.mp member
    rw [destroyed.mounts]
    exact listed e x old (destroyed.nameOf survives ▸ name)
  | mount _ d r s' _ outside _ _ spliced =>
    intro e c member name
    rw [spliced.mounts]
    rcases mem_update_append.mp member with old | ⟨rfl, added⟩
    · have other : c ≠ r := fun same => outside e (same ▸ old)
      exact List.mem_cons_of_mem _ (listed e c old (nameOf_of_core (spliced.core c other) ▸ name))
    · cases List.mem_singleton.mp added
      exact List.mem_cons_self
  | unmount _ d entry rest s' taken unspliced =>
    intro e c member name
    obtain ⟨old, kept⟩ := (mem_update_erase (forest.nodup d)).mp member
    rw [unspliced.core.nameOf] at name
    obtain ⟨newer, older, split, left, point⟩ := takeMount_some taken
    have entered := listed e c old name
    rw [split] at entered
    rw [unspliced.mounts, left]
    rcases List.mem_append.mp entered with early | late
    · exact List.mem_append_left older early
    · rcases List.mem_cons.mp late with same | later
      · subst same
        exact absurd ⟨point, rfl⟩ kept
      · exact List.mem_append_right newer later

/-- The forest with its book-keeping, as it survives every clean step. -/
def Inv (s : Vfs) : Prop := ∃ kids, Forest s kids ∧ RootsListed s kids

theorem Inv.step (inv : Inv s) (step : Along Step CleanMount s op s') : Inv s' := by
  obtain ⟨kids, forest, listed⟩ := inv
  obtain ⟨kids', change⟩ := step_change forest listed step.1 step.2
  exact ⟨kids', change.forest forest, change.rootsListed forest listed⟩

theorem Inv.boot (root : Addr) : Inv (boot root) :=
  ⟨_, boot_forest root, fun _ _ member => absurd member List.not_mem_nil⟩

/-- The induction rule for further invariants: what the first state has and
every change of a forest keeps, every state has along with the forest. -/
theorem reached_invariant {Q : Vfs → Op → Prop} {I : Vfs → Kids → Prop} {root : Addr}
    (clean : ∀ s op, Q s op → CleanMount s op) (initial : I (Vfs.boot root) fun _ => [])
    (stable : ∀ s kids op s' kids', Forest s kids → I s kids → Q s op → Change s kids op s' kids' →
      I s' kids')
    (reached : Reachable (Along Step Q) (Vfs.boot root) s) : ∃ kids, Forest s kids ∧ I s kids := by
  have inv : ∃ kids, (Forest s kids ∧ RootsListed s kids) ∧ I s kids := by
    refine reached.invariant (I := fun s => ∃ kids, (Forest s kids ∧ RootsListed s kids) ∧ I s kids) ?_ ?_
    · rintro s op s' ⟨kids, ⟨forest, listed⟩, holds⟩ ⟨step, allowed⟩
      obtain ⟨kids', change⟩ := step_change forest listed step (clean s op allowed)
      exact ⟨kids', ⟨change.forest forest, change.rootsListed forest listed⟩,
        stable s kids op s' kids' forest holds allowed change⟩
    · exact ⟨_, ⟨boot_forest root, fun _ _ member => absurd member List.not_mem_nil⟩, initial⟩
  obtain ⟨kids, ⟨forest, _⟩, holds⟩ := inv
  exact ⟨kids, forest, holds⟩

/-- One call, if it passes the check and finishes. -/
def callIf (check : Vfs → Op → Bool) (s : Vfs) (op : Op) : Option Vfs :=
  if check s op then (op.run s).toOption.map fun done => done.2 else none

/-- The calls of a list in order. -/
def script (check : Vfs → Op → Bool) (s : Vfs) (ops : List Op) : Option Vfs := ops.foldlM (callIf check) s

/-- A script that goes through is a run, and its last state can be tested. -/
theorem script_run {check : Vfs → Op → Bool} {Q : Vfs → Op → Prop} {P : Vfs → Prop} [DecidablePred P]
    {ops : List Op} (sound : ∀ s op, check s op = true → op.Allowed s ∧ Q s op)
    (tested : (script check s ops).any (fun s => P s) = true) : ∃ s', Run (Along Step Q) s ops s' ∧ P s' := by
  refine Run.of_tested (fun s op t call => ?_) tested
  unfold callIf at call
  split at call
  · rename_i passed
    obtain ⟨result, run, rfl⟩ := Option.map_eq_some_iff.mp call
    exact ⟨⟨(sound s op passed).1, result.1, ok_of_toOption run⟩, (sound s op passed).2⟩
  · cases call

/-- A test that is enough for `Op.Allowed`. -/
def admissible (s : Vfs) : Op → Bool
  | .vfsInitialize fresh => s.Fresh fresh
  | .create _ _ fresh => s.Fresh fresh
  | .removeP _ => true
  | .remove handle => (s.heap handle).isSome
  | .mount _ root => s.nameOf root = some ['/'] ∧ s.root ≠ some root ∧
      s.mounts.all (·.mountedRoot ≠ root)
  | .unmount _ => true

theorem admissible_sound (passed : admissible s op = true) : op.Allowed s := by
  cases op with
  | vfsInitialize fresh =>
    have free : s.Fresh fresh := of_decide_eq_true passed
    exact free
  | create _ _ fresh =>
    have free : s.Fresh fresh := of_decide_eq_true passed
    exact free
  | removeP _ => trivial
  | remove handle => exact Option.isSome_iff_exists.mp passed
  | mount _ root =>
    simp only [admissible, Bool.decide_and, Bool.and_eq_true, decide_eq_true_eq,
      List.all_eq_true] at passed
    obtain ⟨name, other, free⟩ := passed
    refine ⟨?_, name, other, ?_⟩
    · cases found : s.heap root with
      | none => simp [nameOf, found] at name
      | some n => exact ⟨n, found⟩
    · rintro ⟨m, member, same, _⟩
      exact free m member same
  | unmount _ => trivial

/-- The node graph is a forest in every state of a run whose mounts are clean. -/
theorem run_isForest (root : Addr) (reached : Reachable (Along Step CleanMount) (Vfs.boot root) s) :
    IsForest s := by
  obtain ⟨kids, forest, _⟩ := reached.invariant (fun _ _ _ inv step => inv.step step) (Inv.boot root)
  exact forest.isForest

/-- A file system is mounted at `/m`, and a file is created in `/m` behind it. -/
def occupied : List Op :=
  [.create "/m".toList .folder 1, .vfsInitialize 2, .mount "/m".toList 2,
    .create "/m/x".toList .file 3]

/-- It is unmounted, which leaves its link to the file, and mounted again. -/
def remounted : List Op := occupied ++ [.unmount "/m".toList, .mount "/m".toList 2]

def cleanMount (s : Vfs) : Op → Bool
  | .mount _ root => (s.heap root).all (·.next.isNone)
  | _ => true

theorem cleanMount_sound (passed : cleanMount s op = true) : CleanMount s op := by
  cases op with
  | mount _ root =>
    intro n found
    simpa only [cleanMount, found, Option.all_some, Option.isNone_iff_eq_none] using passed
  | vfsInitialize _ | create _ _ _ | removeP _ | remove _ | unmount _ => trivial

theorem run_isForest_occupied : ∃ s, Run Step (Vfs.boot 0) occupied s ∧ IsForest s := by
  have tested : (script (fun s op => admissible s op && cleanMount s op) (Vfs.boot 0) occupied).any
      (fun _ => True) = true := by decide +kernel
  obtain ⟨s, run, _⟩ : ∃ s, Run (Along Step CleanMount) (Vfs.boot 0) occupied s ∧ True := by
    refine script_run (fun s op passed => ?_) tested
    obtain ⟨allowed, clean⟩ := Bool.and_eq_true _ _ ▸ passed
    exact ⟨admissible_sound allowed, cleanMount_sound clean⟩
  exact ⟨s, run.mono fun _ _ _ step => step.1, run_isForest 0 ⟨_, run⟩⟩

/-- The file system and the file end up linked to each other. -/
theorem remounted_loops : ∃ s, Run Step (Vfs.boot 0) remounted s ∧ ¬ IsForest s := by
  have tested : (script admissible (Vfs.boot 0) remounted).any (fun s => s.nextOf 3 = some (some 2) ∧
      s.nextOf 2 = some (some 3) ∧ (s.heap 1).map Node.children = some (some 3)) = true := by
    decide +kernel
  obtain ⟨s, steps, there, back, first⟩ :=
    script_run (Q := fun _ _ => True) (fun _ _ passed => ⟨admissible_sound passed, trivial⟩) tested
  refine ⟨s, steps.mono fun _ _ _ step => step.1, fun forest => ?_⟩
  obtain ⟨n, found, children⟩ := Option.map_eq_some_iff.mp first
  obtain ⟨l, m, found', chain⟩ := forest.finite 1 ⟨n, found⟩
  cases Option.some.inj (found.symm.trans found')
  exact Chain.not_loop there back (children ▸ chain)

end Laomb.VFS
