import Laomb.VFS.EveryFile
import Laomb.VFS.Runs

/-! The memory that `remove` gives back, by the log of the heap. -/
namespace Laomb.VFS
open Vfs Transition

/-- The three blocks that one node can have. -/
inductive Block where
  | node (a : Addr)
  | name (a : Addr)
  | data (a : Addr)
deriving DecidableEq, Repr

def Event.freed : Event → Option Block
  | .kfreeNode a => some (.node a)
  | .kfreeName a => some (.name a)
  | .kfreeData a => some (.data a)
  | .readFreed _ => none

namespace Vfs

/-- The blocks of the node at `a`. -/
def Owns (s : Vfs) (a : Addr) (b : Block) : Prop :=
  ∃ n, s.heap a = some n ∧
    (b = .node a ∨ (b = .name a ∧ n.name ≠ none) ∨ (b = .data a ∧ n.data ≠ none))

/-- `a` is `c` or one of its descendants. -/
def Descends (s : Vfs) (c a : Addr) : Prop := Relation.ReflTransGen s.Child c a

end Vfs

/-- The blocks of `c` and its descendants are freed, each once, and no others, and no
freed node is read. -/
def Releases (s : Vfs) (c : Addr) (s' : Vfs) : Prop :=
  ∃ events, s'.log = events ++ s.log ∧ (events.filterMap Event.freed).Nodup ∧
    (∀ b, b ∈ events.filterMap Event.freed ↔ ∃ a, s.Descends c a ∧ s.Owns a b) ∧
    ∀ a, Event.readFreed a ∉ events

variable {s s' s'' : Vfs} {kids : Kids} {root a b c d : Addr} {n : Node} {l l' : List Addr}

/-- The nodes `l` are freed, and nothing else happens to the heap but relinking. -/
structure Freed (s : Vfs) (l : List Addr) (s' : Vfs) : Prop where
  log : s'.log = l.map Event.kfreeNode ++ s.log
  nodup : l.Nodup
  was : ∀ a ∈ l, s.Live a
  live : ∀ a, s'.Live a ↔ s.Live a ∧ a ∉ l

namespace Freed

theorem nothing (live : ∀ a, s'.Live a ↔ s.Live a) (log : s'.log = s.log) : Freed s [] s' :=
  ⟨log, .nil, fun _ member => absurd member List.not_mem_nil, fun a => by simp [live a]⟩

theorem trans (first : Freed s l s') (second : Freed s' l' s'') : Freed s (l' ++ l) s'' := by
  refine ⟨?_, ?_, fun a member => ?_, fun a => ?_⟩
  · rw [second.log, first.log, List.map_append, List.append_assoc]
  · refine List.nodup_append.mpr ⟨second.nodup, first.nodup, fun a later b earlier same => ?_⟩
    exact ((first.live a).mp (second.was a later)).2 (same ▸ earlier)
  · rcases List.mem_append.mp member with later | earlier
    · exact ((first.live a).mp (second.was a later)).1
    · exact first.was a earlier
  · rw [second.live, first.live, List.mem_append, not_or]
    tauto

/-- The node itself goes last, with its record cleared before its name is freed. -/
theorem node (found : s.heap c = some n) :
    Freed s [c] (((s.store c n.clear).kfreeName c n.clear).kfreeNode c) := by
  refine ⟨rfl, List.nodup_singleton c, fun a member => ?_, fun a => ?_⟩
  · cases List.mem_singleton.mp member
    exact ⟨n, found⟩
  · rw [List.mem_singleton, kfreeName_clear, Live, Live, kfreeNode_heap, store_heap, Function.update_idem]
    by_cases same : a = c
    · subst same
      simp
    · rw [Function.update_of_ne same]
      simp [same]

end Freed

theorem removal_freed (fuel : Nat) :
    (∀ s d c s', s.vfsRemoveNode d c fuel = .ok s' → ∃ l, Freed s l s') ∧
      ∀ s d c s', s.removeChildren d c fuel = .ok s' → ∃ l, Freed s l s' := by
  induction fuel with
  | zero =>
    refine ⟨fun s d c s' run => ?_, fun s d c s' run => ?_⟩
    · rw [vfsRemoveNode] at run
      cases run
    · rw [removeChildren] at run
      cases run
  | succ fuel ih =>
    refine ⟨fun s d c s' run => ?_, fun s d c s' run => ?_⟩
    · rw [vfsRemoveNode] at run
      obtain ⟨s₁, unlinked, run⟩ := bind_ok run
      obtain ⟨n, _, run⟩ := bind_ok run
      obtain ⟨s₂, removed, run⟩ := bind_ok run
      obtain ⟨m, found, run⟩ := bind_ok run
      cases run
      obtain ⟨same, log⟩ := unlink_core unlinked
      obtain ⟨l, below⟩ := ih.2 _ _ _ _ removed
      have first : Freed s [] s₁ := .nothing (fun a => same.live_iff) log
      exact ⟨_, (first.trans below).trans (.node (load_ok.mp found))⟩
    · cases c with
      | none =>
        rw [removeChildren] at run
        cases run
        exact ⟨[], .nothing (fun _ => Iff.rfl) rfl⟩
      | some c =>
        rw [removeChildren] at run
        obtain ⟨n, _, run⟩ := bind_ok run
        obtain ⟨s₁, removed, run⟩ := bind_ok run
        obtain ⟨l, first⟩ := ih.1 _ _ _ _ removed
        obtain ⟨l', rest⟩ := ih.2 _ _ _ _ run
        exact ⟨_, first.trans rest⟩

/-- The `kfree(ramfs_node->data)` at the end of `ramfs_remove`. -/
def dataEvents (c : Addr) (n : Node) : List Event :=
  match n.data with
  | none => []
  | some _ => [.kfreeData c]

/-- Each node below `c` is freed once, then `c` is read, and its data alone is freed. -/
theorem remove_log (forest : Forest s kids) (member : c ∈ kids d) (found : s.heap c = some n) :
    ∃ s', ∃ nodes : List Addr, s.remove (some c) = .ok (.success, s') ∧ nodes.Nodup ∧
      (∀ a, a ∈ nodes ↔ s.Descends c a) ∧
      s'.log = dataEvents c n ++ .readFreed c :: (nodes.map Event.kfreeNode ++ s.log) := by
  obtain ⟨p, host⟩ := forest.live_parent member
  have folder := forest.folder_of_mem host member
  obtain ⟨t, run, destroyed⟩ := forest.vfsRemoveNode host ⟨n, found⟩ fun e other => forest.owner other member
  obtain ⟨l, freed⟩ := (removal_freed limit).1 s d c t run
  have descends : ∀ a, s.Descends c a ↔ Below kids c a := by
    intro a
    have same : s.Child = fun d c => c ∈ kids d := by
      funext d c
      exact propext forest.child_iff
    rw [Descends, same, Below]
  have members : ∀ a, a ∈ l ↔ s.Descends c a := by
    intro a
    rw [descends]
    constructor
    · intro inside
      by_contra outside
      have alive := (part_live (destroyed.core a outside)).mpr (freed.was a inside)
      exact ((freed.live a).mp alive).2 inside
    · intro below
      have alive : s.Live a := by
        rcases Below.listed_or below with rfl | ⟨e, listed⟩
        · exact ⟨n, found⟩
        · exact forest.live listed
      by_contra outside
      obtain ⟨m, kept⟩ := (freed.live a).mpr ⟨alive, outside⟩
      cases (destroyed.dead a below).symm.trans kept
  rw [remove_eq found (forest.parent d c n member found) host (forest.ops host)]
  cases data : n.data with
  | none =>
    refine ⟨{ t with log := .readFreed c :: t.log }, l, ?_, freed.nodup, members, ?_⟩
    · simp only [ramfsRemove, load_eq host, bind, Except.bind, folder, load_eq found, run, data, pure,
        Except.pure, ne_eq, not_true_eq_false, if_false]
    · simp only [dataEvents, data, List.nil_append, freed.log]
  | some bytes =>
    refine ⟨{ t with log := .kfreeData c :: .readFreed c :: t.log }, l, ?_, freed.nodup, members, ?_⟩
    · simp only [ramfsRemove, load_eq host, bind, Except.bind, folder, load_eq found, run, data, pure,
        Except.pure, ne_eq, not_true_eq_false, if_false]
    · simp only [dataEvents, data, List.cons_append, List.nil_append, freed.log]

/-- The read of the freed node alone is enough. -/
theorem not_releases (nodes : List Addr)
    (log : s'.log = dataEvents c n ++ .readFreed c :: (nodes.map Event.kfreeNode ++ s.log)) :
    ¬ Releases s c s' := by
  rintro ⟨events, all, _, _, unread⟩
  have split : events = dataEvents c n ++ .readFreed c :: nodes.map Event.kfreeNode := by
    rw [log, ← List.cons_append, ← List.append_assoc] at all
    exact (List.append_cancel_right all).symm
  exact unread c (split ▸ List.mem_append_right _ List.mem_cons_self)

/-! ## Runs -/

/-- A call that builds the tree. -/
inductive Build where
  | create (path : CString) (type : NodeType) (fresh : Addr)
  | write (handle : Addr) (offset size : Nat) (source : List Byte) (junk : Nat → Byte)

def Build.run (s : Vfs) : Build → Result (Err × Vfs)
  | .create path type fresh => s.create path type fresh
  | .write handle offset size source junk => s.write handle offset size source junk

/-- `kmalloc` returns free memory. -/
def Build.Allowed (s : Vfs) : Build → Prop
  | .create _ _ fresh => s.Fresh fresh
  | .write _ _ _ _ _ => True

def BuildStep (s : Vfs) (call : Build) (s' : Vfs) : Prop :=
  call.Allowed s ∧ ∃ err, call.run s = .ok (err, s')

/-- Every node but the root hangs in the tree. -/
structure Hanging (root : Addr) (s : Vfs) (kids : Kids) : Prop where
  forest : Forest s kids
  top : s.root = some root
  listed : ∀ a, s.Live a → a ≠ root → ∃ d, a ∈ kids d

namespace Hanging

theorem boot (root : Addr) : Hanging root (Vfs.boot root) fun _ => [] := by
  refine ⟨boot_forest root, rfl, fun a alive other => ?_⟩
  obtain ⟨n, found⟩ := alive
  simp [Vfs.boot, vfsInitialize, other] at found

theorem step (hanging : Hanging root s kids) {call : Build} (step : BuildStep s call s') :
    ∃ kids', Hanging root s' kids' := by
  obtain ⟨forest, top, listed⟩ := hanging
  obtain ⟨allowed, err, run⟩ := step
  cases call with
  | create path type a =>
    rcases create_cases forest allowed run with ⟨_, rfl⟩ | ⟨left, name, d, p, _, _, _, _, _, _, _, _, created⟩
    · exact ⟨kids, forest, top, listed⟩
    · refine ⟨_, created.forest, created.root.trans top, fun b alive other => ?_⟩
      by_cases new : b = a
      · exact ⟨d, mem_update_append.mpr (.inr ⟨rfl, new ▸ List.mem_singleton_self b⟩)⟩
      · obtain ⟨e, member⟩ := listed b ((part_live (created.core b new)).mp alive) other
        exact ⟨e, mem_update_append.mpr (.inl member)⟩
  | write a offset size source junk =>
    have same := write_shape run
    exact ⟨kids, same.forest forest, same.root.trans top,
      fun b alive => listed b ((part_live (same.shape b)).mp alive)⟩

end Hanging

/-- In every tree that `create` and `write` build, removing a node other than the root
leaks the names and the descendants' data and reads the freed node. -/
theorem run_neverReleases (root : Addr) (reached : Reachable BuildStep (boot root) s)
    (found : s.heap c = some n)
    (other : c ≠ root) :
    ∃ s', ∃ nodes : List Addr, s.remove (some c) = .ok (.success, s') ∧ ¬ Releases s c s' ∧
      nodes.Nodup ∧ (∀ a, a ∈ nodes ↔ s.Descends c a) ∧
      s'.log = dataEvents c n ++ .readFreed c :: (nodes.map Event.kfreeNode ++ s.log) := by
  obtain ⟨kids, hanging⟩ : ∃ kids, Hanging root s kids :=
    reached.invariant (I := fun s => ∃ kids, Hanging root s kids)
      (fun _ _ _ ⟨_, hanging⟩ step => hanging.step step) ⟨_, .boot root⟩
  obtain ⟨d, member⟩ := hanging.listed c ⟨n, found⟩ other
  obtain ⟨s', nodes, removed, once, all, log⟩ := remove_log hanging.forest member found
  exact ⟨s', nodes, removed, not_releases nodes log, once, all, log⟩

def buildCall (s : Vfs) (call : Build) : Option Vfs :=
  match call with
  | .create path type fresh =>
    if s.Fresh fresh then (s.create path type fresh).toOption.map Prod.snd else none
  | .write handle offset size source junk => (s.write handle offset size source junk).toOption.map Prod.snd

theorem buildCall_step (s : Vfs) (call : Build) (s' : Vfs) (done : buildCall s call = some s') :
    BuildStep s call s' := by
  cases call with
  | create path type fresh =>
    simp only [buildCall] at done
    split at done
    · rename_i free
      obtain ⟨⟨err, t⟩, run, rfl⟩ := Option.map_eq_some_iff.mp done
      exact ⟨free, err, ok_of_toOption run⟩
    · cases done
  | write handle offset size source junk =>
    obtain ⟨⟨err, t⟩, run, rfl⟩ := Option.map_eq_some_iff.mp done
    exact ⟨trivial, err, ok_of_toOption run⟩

/-- A folder with a file of two bytes. -/
def folderWithFile : List Build :=
  [.create "/a".toList .folder 1, .create "/a/f".toList .file 2, .write 2 0 2 [0x68, 0x69] fun _ => 0]

theorem run_neverReleases_folder : ∃ s, Run BuildStep (boot 0) folderWithFile s ∧ ∃ s', ∃ nodes : List Addr,
    s.remove (some 1) = .ok (.success, s') ∧ ¬ Releases s 1 s' ∧ nodes.Nodup ∧
      (∀ a, a ∈ nodes ↔ s.Descends 1 a) ∧ s'.log = .readFreed 1 :: nodes.map Event.kfreeNode := by
  have tested : (folderWithFile.foldlM buildCall (boot 0)).any (fun s =>
      s.log = [] ∧ (s.heap 1).any (fun n => n.data = none) = true) = true := by decide +kernel
  obtain ⟨s, run, clean, record⟩ := Run.of_tested buildCall_step tested
  obtain ⟨n, found, passed⟩ := (Option.any_eq_true _ _).mp record
  have data := of_decide_eq_true passed
  obtain ⟨s', nodes, removed, kept, once, all, log⟩ := run_neverReleases 0 ⟨_, run⟩ found (by decide)
  refine ⟨s, run, s', nodes, removed, kept, once, all, ?_⟩
  rw [log, dataEvents, data, clean, List.append_nil, List.nil_append]

/-- Removing the folder frees two nodes, but no name and not the file's two bytes. -/
theorem folder_leaks :
    ∃ s s', Run BuildStep (boot 0) folderWithFile s ∧ s.remove (some 1) = .ok (.success, s') ∧
    s'.log = [.readFreed 1, .kfreeNode 1, .kfreeNode 2] ∧ s.log = [] ∧ ¬ Releases s 1 s' := by
  have tested : (folderWithFile.foldlM buildCall (boot 0)).any (fun s => s.log = [] ∧
      (s.remove (some 1)).toOption.any (fun r => r.1 = .success ∧
        r.2.log = [.readFreed 1, .kfreeNode 1, .kfreeNode 2]) = true) = true := by decide +kernel
  obtain ⟨s, run, clean, passed⟩ := Run.of_tested buildCall_step tested
  obtain ⟨⟨err, s'⟩, removed, passed⟩ := (Option.any_eq_true _ _).mp passed
  obtain ⟨rfl, log⟩ := of_decide_eq_true passed
  refine ⟨s, s', run, ok_of_toOption removed, log, clean, ?_⟩
  rintro ⟨events, all, _, _, unread⟩
  rw [log, clean, List.append_nil] at all
  exact unread 1 (all ▸ List.mem_cons_self)

end Laomb.VFS
