import Laomb.VFS.CreateOpen

/-! The mount table against removal. Nothing in `vfs_remove_node` looks at
`g_mounts`, so the table stays sound only while no removed subtree holds a
mounted root. -/
namespace Laomb.VFS
open LinkedList Transition Vfs

/-- Both nodes of every entry are allocated. -/
def TableLive (s : Vfs) : Prop := ∀ m ∈ s.mounts, s.Live m.mountPoint ∧ s.Live m.mountedRoot

/-- If `c` can be removed at all, no mounted root is `c` or lies below it. -/
def Spares (s : Vfs) (c : Addr) : Prop :=
  ∀ n, s.heap c = some n → n.parent ≠ none →
    ∀ m ∈ s.mounts, ¬ Relation.ReflTransGen s.Child c m.mountedRoot

def SparesMounts (s : Vfs) : Op → Prop
  | .remove handle => Spares s handle
  | .removeP path => ∀ c, s.openPath path = .ok (some c) → Spares s c
  | _ => True

/-- Each mounted root is listed by its mount point and mounted once. -/
structure Anchored (s : Vfs) (kids : Kids) : Prop where
  listed : ∀ m ∈ s.mounts, m.mountedRoot ∈ kids m.mountPoint
  distinct : (s.mounts.map Mount.mountedRoot).Nodup

variable {s s' : Vfs} {kids kids' : Kids} {a b c d e r : Addr} {op : Op} {n : Node}

theorem Anchored.tableLive (anchored : Anchored s kids) (forest : Forest s kids) : TableLive s :=
  fun m member => ⟨forest.live_parent (anchored.listed m member), forest.live (anchored.listed m member)⟩

theorem Forest.below_iff (forest : Forest s kids) :
    Relation.ReflTransGen s.Child a b ↔ Below kids a b := by
  have same : s.Child = fun d c => c ∈ kids d := by
    funext d c
    exact propext forest.child_iff
  rw [same, Below]

theorem Change.anchored (forest : Forest s kids) (anchored : Anchored s kids)
    (spares : SparesMounts s op) (change : Change s kids op s' kids') : Anchored s' kids' := by
  cases change with
  | idle => exact anchored
  | vfsInitialize => exact ⟨anchored.listed, anchored.distinct⟩
  | create _ _ _ d a _ _ _ _ _ created =>
    constructor
    · intro m member
      exact mem_update_append.mpr (.inl (anchored.listed m (created.mounts ▸ member)))
    · rw [created.mounts]
      exact anchored.distinct
  | remove _ c n _ found parent call destroyed =>
    have away : ∀ m ∈ s.mounts, m.mountedRoot ∉ subtree kids c := by
      intro m member below
      have spared : Spares s c := by
        rcases call with rfl | ⟨path, rfl, opened⟩
        · exact spares
        · exact spares c opened
      exact spared n found parent m member (forest.below_iff.mpr below)
    constructor
    · intro m member
      rw [destroyed.mounts] at member
      have inside := anchored.listed m member
      have host : m.mountPoint ∉ subtree kids c :=
        fun below => away m member (Relation.ReflTransGen.tail below inside)
      exact mem_prune.mpr ⟨host, inside, away m member⟩
    · rw [destroyed.mounts]
      exact anchored.distinct
  | mount _ d r _ _ outside _ _ spliced =>
    constructor
    · intro m member
      rw [spliced.mounts] at member
      rcases List.mem_cons.mp member with rfl | old
      · exact mem_update_append.mpr (.inr ⟨rfl, List.mem_cons_self⟩)
      · exact mem_update_append.mpr (.inl (anchored.listed m old))
    · rw [spliced.mounts, List.map_cons, List.nodup_cons]
      refine ⟨fun member => ?_, anchored.distinct⟩
      obtain ⟨m, old, same⟩ := List.mem_map.mp member
      have root : m.mountedRoot = r := same
      exact outside m.mountPoint (root ▸ anchored.listed m old)
  | unmount _ d entry rest _ taken unspliced =>
    obtain ⟨newer, older, split, left, _⟩ := takeMount_some taken
    have distinct := anchored.distinct
    rw [split, List.map_append, List.map_cons, List.nodup_middle, ← List.map_append, ← left] at distinct
    obtain ⟨gone, kept⟩ := List.nodup_cons.mp distinct
    constructor
    · intro m member
      rw [unspliced.mounts] at member
      refine (mem_update_erase (forest.nodup d)).mpr
        ⟨anchored.listed m (takeMount_sub taken m member), ?_⟩
      rintro ⟨_, same⟩
      exact gone (List.mem_map.mpr ⟨m, member, same⟩)
    · rw [unspliced.mounts]
      exact kept

def FreshSparing (s : Vfs) (op : Op) : Prop := FreshMount s op ∧ SparesMounts s op

/-- Every entry of the mount table is live in every state of a run whose
mounts are fresh and whose removals spare the mounted roots. -/
theorem run_tableLive (root : Addr) (reached : Reachable (Along Step FreshSparing) (boot root) s) :
    TableLive s := by
  obtain ⟨kids, forest, anchored⟩ : ∃ kids, Forest s kids ∧ Anchored s kids := by
    refine reached_invariant (fun _ _ allowed => allowed.1.clean) ?_ ?_ reached
    · exact ⟨fun m member => absurd member List.not_mem_nil, .nil⟩
    · exact fun _ _ _ _ _ forest anchored allowed change => change.anchored forest anchored allowed.2
  exact anchored.tableLive forest

/-- A test that is enough for `Spares`: the node has no children and is no mounted root. -/
def sparesLeaf (s : Vfs) (c : Addr) : Bool :=
  (s.heap c).all (·.children.isNone) && s.mounts.all (·.mountedRoot ≠ c)

def sparesMounts (s : Vfs) : Op → Bool
  | .remove handle => sparesLeaf s handle
  | .removeP path =>
    match s.openPath path with
    | .ok (some c) => sparesLeaf s c
    | _ => true
  | _ => true

theorem childless_below (found : s.heap c = some n) (childless : n.children = none)
    (below : Relation.ReflTransGen s.Child c a) : a = c := by
  rcases Relation.ReflTransGen.cases_head below with same | ⟨d, ⟨n', found', passes⟩, _⟩
  · exact same.symm
  · cases Option.some.inj (found.symm.trans found')
    rw [childless] at passes
    cases passes

theorem sparesLeaf_sound (passed : sparesLeaf s c = true) : Spares s c := by
  intro n found _ m member below
  rw [sparesLeaf, Bool.and_eq_true, List.all_eq_true] at passed
  have other : m.mountedRoot ≠ c := of_decide_eq_true (passed.2 m member)
  have childless : n.children = none := by
    simpa only [found, Option.all_some, Option.isNone_iff_eq_none] using passed.1
  exact other (childless_below found childless below)

theorem sparesMounts_sound (passed : sparesMounts s op = true) : SparesMounts s op := by
  cases op with
  | remove handle => exact sparesLeaf_sound passed
  | removeP path =>
    intro c opened
    apply sparesLeaf_sound
    simpa only [sparesMounts, opened] using passed
  | vfsInitialize _ | create _ _ _ | mount _ _ | unmount _ => trivial

theorem script_sparing {P : Vfs → Prop} [DecidablePred P] {ops : List Op}
    (tested : (script (fun s op => freshCheck s op && sparesMounts s op) s ops).any (fun s => P s) = true) :
    ∃ s', Run (Along Step FreshSparing) s ops s' ∧ P s' := by
  refine script_run (fun s op passed => ?_) tested
  rw [Bool.and_eq_true, freshCheck, Bool.and_eq_true] at passed
  exact ⟨admissible_sound passed.1.1, freshMount_sound passed.1.2, sparesMounts_sound passed.2⟩

theorem run_tableLive_atM : ∃ s,
    Run Step (boot 0) (mountedAtM ++ [.create "/f".toList .file 3, .removeP "/f".toList]) s ∧
    s.mounts = [⟨1, 2⟩] ∧ TableLive s := by
  have tested : (script (fun s op => freshCheck s op && sparesMounts s op) (boot 0)
      (mountedAtM ++ [.create "/f".toList .file 3, .removeP "/f".toList])).any
      (fun s => s.mounts = [⟨1, 2⟩]) = true := by decide +kernel
  obtain ⟨s, run, table⟩ := script_sparing tested
  exact ⟨s, run.mono fun _ _ _ step => step.1, table, run_tableLive 0 ⟨_, run⟩⟩

/-- Removing the mount point frees both nodes of its entry and keeps the entry. -/
theorem removed_mountPoint_dangles : ∃ s,
    Run (Along Step FreshMount) (boot 0) (mountedAtM ++ [.removeP "/m".toList]) s ∧ ¬ TableLive s := by
  have tested : (script freshCheck (boot 0) (mountedAtM ++ [.removeP "/m".toList])).any
      (fun s => s.mounts = [⟨1, 2⟩] ∧ s.Fresh 1) = true := by decide +kernel
  obtain ⟨s, run, table, freed⟩ := script_fresh tested
  refine ⟨s, run, fun live => ?_⟩
  obtain ⟨alive, _⟩ := live ⟨1, 2⟩ (by simp [table])
  exact alive.ne_fresh freed rfl

end Laomb.VFS
