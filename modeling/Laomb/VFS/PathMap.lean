import Laomb.Base.Transition
import Laomb.VFS.Names

/-! Without mounts the file system is a finite map from paths to node types.
The map is the specification; the runs of `create` and `remove_p` refine it. -/
namespace Laomb.VFS
open LinkedList Transition Vfs Fields

/-- Paths by their components; the empty list is the root. -/
abbrev PathMap := List CString → Option NodeType

namespace PathMap

def initial : PathMap := fun parts => if parts = [] then some .folder else none

def create (m : PathMap) (parts : List CString) (type : NodeType) : Err × PathMap :=
  match m parts.dropLast with
  | none => (.notFound, m)
  | some .folder => (.success, fun path => if path = parts then some type else m path)
  | some _ => (.notPermitted, m)

/-- The path and every path below it go. -/
def remove (m : PathMap) (parts : List CString) : Err × PathMap :=
  match m parts with
  | none => (.notFound, m)
  | some _ => (.success, fun path => if parts <+: path then none else m path)

end PathMap

/-- The components of a canonical path `/c1/.../ck`. -/
def Named (parts : List CString) : Prop := parts ≠ [] ∧ ∀ part ∈ parts, Component part

inductive PathOp where
  | create (parts : List CString) (type : NodeType) (fresh : Addr)
  | removeP (parts : List CString)

namespace PathOp

def apply (m : PathMap) : PathOp → Err × PathMap
  | create parts type _ => m.create parts type
  | removeP parts => m.remove parts

def run (s : Vfs) : PathOp → Result (Err × Vfs)
  | create parts type fresh => s.create (render parts) type fresh
  | removeP parts => s.removeP (render parts)

/-- `create` is called as `command_touch` does, only when `open` returned null. -/
def Admissible (s : Vfs) : PathOp → Prop
  | create parts type fresh => Named parts ∧ (render parts.dropLast).length ≤ 255 ∧ type ≠ .other ∧
      s.openPath (render parts) = .ok none ∧ s.Fresh fresh
  | removeP parts => Named parts

end PathOp

instance (parts : List CString) : Decidable (Named parts) :=
  decidable_of_iff (parts ≠ [] ∧ ∀ part ∈ parts, part ≠ [] ∧ '/' ∉ part)
    (by simp only [Named, component_iff])

instance (s : Vfs) : (op : PathOp) → Decidable (op.Admissible s)
  | .create parts type fresh => inferInstanceAs (Decidable (Named parts ∧
      (render parts.dropLast).length ≤ 255 ∧ type ≠ .other ∧ s.openPath (render parts) = .ok none ∧
      s.Fresh fresh))
  | .removeP parts => inferInstanceAs (Decidable (Named parts))

/-- A call together with the code it returned. -/
def PathStep (s : Vfs) (call : PathOp × Err) (s' : Vfs) : Prop :=
  call.1.Admissible s ∧ call.1.run s = .ok (call.2, s')

def MapStep (m : PathMap) (call : PathOp × Err) (m' : PathMap) : Prop := call.1.apply m = (call.2, m')

/-- `open` returns null exactly off the map, and else a node of the mapped type. -/
def Agrees (s : Vfs) (m : PathMap) : Prop :=
  ∀ parts, Named parts →
    (m parts = none → s.openPath (render parts) = .ok none) ∧
    ∀ type, m parts = some type →
      ∃ a n, s.openPath (render parts) = .ok (some a) ∧ s.heap a = some n ∧ n.type = type

def Vfs.typeOf (s : Vfs) (a : Addr) : Option NodeType := (s.heap a).map Node.type

/-- A tree without mounts in which names identify children. -/
structure NameTree (s : Vfs) (kids : Kids) (root : Addr) : Prop where
  forest : Forest s kids
  rooted : s.root = some root
  plain : s.mounts = []
  top : s.typeOf root = some .folder
  outside : Unlisted kids root
  distinct : DistinctNames s kids

def Represents (s : Vfs) (kids : Kids) (root : Addr) (m : PathMap) : Prop :=
  ∀ parts, m parts = (s.resolve kids root parts).bind s.typeOf

variable {s s' : Vfs} {kids : Kids} {root a b c d : Addr} {m m' : PathMap} {parts ps : List CString}
  {name : CString} {type : NodeType} {err : Err} {n : Node}

theorem typeOf_of_core (core : (s'.heap b).map Node.core = (s.heap b).map Node.core) :
    s'.typeOf b = s.typeOf b := part_map (h := Node.type) core fun _ => rfl

theorem render_ne_nil (named : Named parts) : render parts ≠ [] := by
  obtain ⟨first, rest, rfl⟩ := List.exists_cons_of_ne_nil named.1
  simp [render, join]

theorem render_snoc (ps : List CString) (name : CString) :
    render (ps ++ [name]) = render ps ++ '/' :: name := by
  simp [render, join]

namespace NameTree

theorem live (tree : NameTree s kids root) : s.Live root := by
  obtain ⟨n, found, _⟩ := Option.map_eq_some_iff.mp tree.top
  exact ⟨n, found⟩

theorem openPath (tree : NameTree s kids root) (named : Named parts) :
    s.openPath (render parts) = .ok (s.resolve kids root parts) := by
  rw [Vfs.openPath, traverse_eq tree.rooted (render_ne_nil named), components_render named.2,
    tree.forest.walk_resolve tree.plain tree.live]

theorem agrees (tree : NameTree s kids root) (represents : Represents s kids root m) : Agrees s m := by
  intro parts named
  rw [tree.openPath named, represents parts]
  cases found : s.resolve kids root parts with
  | none => exact ⟨fun _ => rfl, fun type absent => (by cases absent)⟩
  | some a =>
    obtain ⟨n, record⟩ := tree.forest.resolve_live tree.live found
    simp only [Option.bind_some, typeOf, record, Option.map_some]
    exact ⟨fun absent => (by cases absent), fun type same => ⟨a, n, rfl, record, Option.some.inj same⟩⟩

theorem created (tree : NameTree s kids root) (free : s.Fresh a)
    (unused : s.child kids d name = none) (created : Created s kids d name type a s') :
    NameTree s' (Function.update kids d (kids d ++ [a])) root := by
  have stays : root ≠ a := tree.live.ne_fresh free
  refine ⟨created.forest, created.root.trans tree.rooted, created.mounts.trans tree.plain, ?_, ?_,
    created.distinct tree.forest free tree.distinct unused⟩
  · rw [typeOf_of_core (created.core root stays), tree.top]
  · intro e member
    rcases mem_update_append.mp member with old | ⟨_, added⟩
    · exact tree.outside e old
    · exact stays (List.mem_singleton.mp added)

theorem destroyed (tree : NameTree s kids root) (listed : c ∈ kids d)
    (destroyed : Destroyed (subtree kids c) s kids s') : NameTree s' (prune (subtree kids c) kids) root := by
  have stays : root ∉ subtree kids c :=
    fun below => tree.outside d (Below.unlisted tree.outside below ▸ listed)
  refine ⟨destroyed.forest, destroyed.root.trans tree.rooted, destroyed.mounts.trans tree.plain,
    ?_, tree.outside.prune _, destroyed.distinct tree.distinct⟩
  rw [typeOf_of_core (destroyed.core root stays), tree.top]

/-- `create` of an absent path does what the map does. -/
theorem create (tree : NameTree s kids root) (represents : Represents s kids root m)
    (admissible : (PathOp.create parts type a).Admissible s) :
    ∃ s' kids', s.create (render parts) type a = .ok ((m.create parts type).1, s') ∧
      NameTree s' kids' root ∧ Represents s' kids' root (m.create parts type).2 := by
  obtain ⟨named, short, known, opened, free⟩ := admissible
  rw [tree.openPath named] at opened
  have absent := Except.ok.inj opened
  rcases List.eq_nil_or_concat' parts with empty | ⟨ps, name, rfl⟩
  · exact absurd empty named.1
  rw [List.dropLast_concat] at short
  have outside := (component_iff.mp (named.2 name (by simp))).2
  have fits : (render ps).length < 256 := by omega
  have host : s.vfsTraversePath (hostPath (render ps)) = .ok (s.resolve kids root ps) := by
    rw [traverse_hostPath tree.rooted, components_render fun part member => named.2 part (by simp [member]),
      tree.forest.walk_resolve tree.plain tree.live]
  have parent := represents ps
  rw [render_snoc]
  cases found : s.resolve kids root ps with
  | none =>
    rw [found, Option.bind_none] at parent
    rw [found] at host
    refine ⟨s, kids, ?_, tree, ?_⟩
    · rw [create_notFound outside fits host, PathMap.create, List.dropLast_concat, parent]
    · rw [PathMap.create, List.dropLast_concat, parent]
      exact represents
  | some d =>
    obtain ⟨p, record⟩ := tree.forest.resolve_live tree.live found
    rw [found] at host
    simp only [found, Option.bind_some, typeOf, record, Option.map_some] at parent
    have call := create_eq type a outside fits host record (tree.forest.ops record)
    by_cases folder : p.type = .folder
    · obtain ⟨s', made, created⟩ := ramfsCreate_ok name tree.forest record folder free known
      have unused : s.child kids d name = none := by
        rwa [resolve_snoc, found, Option.bind_some] at absent
      rw [folder] at parent
      refine ⟨s', _, ?_, tree.created free unused created, ?_⟩
      · rw [call, made, PathMap.create, List.dropLast_concat, parent]
        rfl
      · intro path
        rw [PathMap.create, List.dropLast_concat, parent,
          created.resolve tree.forest free tree.outside found ⟨p, record⟩ unused]
        by_cases here : path = ps ++ [name]
        · obtain ⟨n, new, core⟩ := created.record
          simp only [if_pos here, Option.bind_some, typeOf, new, Option.map_some,
            Node.core_type core, newNode]
        · simp only [if_neg here]
          rw [represents path]
          cases step : s.resolve kids root path with
          | none => rfl
          | some x =>
            have old : x ≠ a := (tree.forest.resolve_live tree.live step).ne_fresh free
            rw [Option.bind_some, Option.bind_some, typeOf_of_core (created.core x old)]
    · refine ⟨s, kids, ?_, tree, ?_⟩
      · rw [call, ramfsCreate_refused record folder, PathMap.create, List.dropLast_concat, parent]
        cases kind : p.type with
        | folder => exact absurd kind folder
        | file | other => rfl
      · rw [PathMap.create, List.dropLast_concat, parent]
        cases kind : p.type with
        | folder => exact absurd kind folder
        | file | other => exact represents

/-- `remove_p` does what the map does. -/
theorem removeP (tree : NameTree s kids root) (represents : Represents s kids root m)
    (named : Named parts) :
    ∃ s' kids', s.removeP (render parts) = .ok ((m.remove parts).1, s') ∧
      NameTree s' kids' root ∧ Represents s' kids' root (m.remove parts).2 := by
  have opened := tree.openPath named
  have entry := represents parts
  rw [Vfs.openPath] at opened
  cases found : s.resolve kids root parts with
  | none =>
    rw [found] at opened entry
    rw [Option.bind_none] at entry
    refine ⟨s, kids, ?_, tree, ?_⟩
    · simp only [Vfs.removeP, opened, bind, Except.bind, PathMap.remove, entry]
      rfl
    · rw [PathMap.remove, entry]
      exact represents
  | some c =>
    rw [found] at opened
    obtain ⟨n, record⟩ := tree.forest.resolve_live tree.live found
    rw [found, Option.bind_some, typeOf, record, Option.map_some] at entry
    obtain ⟨d, listed⟩ : ∃ d, c ∈ kids d := by
      rcases List.eq_nil_or_concat' parts with empty | ⟨ps, name, rfl⟩
      · exact absurd empty named.1
      · rw [resolve_snoc] at found
        obtain ⟨d, _, last⟩ := Option.bind_eq_some_iff.mp found
        exact ⟨d, (child_some last).1⟩
    obtain ⟨s', removed, destroyed⟩ := remove_listed tree.forest listed
    refine ⟨s', _, ?_, tree.destroyed listed destroyed, ?_⟩
    · simp only [Vfs.removeP, opened, bind, Except.bind, PathMap.remove, entry, removed]
    · intro path
      have paths := destroyed.resolve tree.forest tree.distinct tree.outside found named.1 path
      simp only [PathMap.remove, entry]
      by_cases through : parts <+: path
      · rw [if_pos through]
        cases step : s'.resolve (prune (subtree kids c) kids) root path with
        | none => rfl
        | some x => exact absurd through ((paths x).mp step).2
      · rw [if_neg through, represents path]
        cases step : s.resolve kids root path with
        | none =>
          cases step' : s'.resolve (prune (subtree kids c) kids) root path with
          | none => rfl
          | some x =>
            rw [((paths x).mp step').1] at step
            cases step
        | some x =>
          have kept : x ∉ subtree kids c := fun below =>
            through ((tree.forest.below_iff_prefix tree.distinct tree.outside found step).mp below)
          rw [(paths x).mpr ⟨step, through⟩, Option.bind_some, Option.bind_some,
            typeOf_of_core (destroyed.core x kept)]

/-- Every admissible call finishes, with the code and the effect the map says. -/
theorem step (tree : NameTree s kids root) (represents : Represents s kids root m) (op : PathOp)
    (admissible : op.Admissible s) :
    ∃ s' kids', op.run s = .ok ((op.apply m).1, s') ∧
      NameTree s' kids' root ∧ Represents s' kids' root (op.apply m).2 := by
  cases op with
  | create parts type fresh => exact tree.create represents admissible
  | removeP parts => exact tree.removeP represents admissible

theorem boot (root : Addr) : NameTree (boot root) (fun _ => []) root := by
  refine ⟨boot_forest root, rfl, rfl, ?_, fun _ => List.not_mem_nil,
    fun _ x member => absurd member List.not_mem_nil⟩
  simp [typeOf, Vfs.boot, vfsInitialize, rootNode]

theorem represents_boot (root : Addr) :
    Represents (Vfs.boot root) (fun _ => []) root PathMap.initial := by
  intro parts
  cases parts with
  | nil => simpa [PathMap.initial, resolve] using (boot root).top.symm
  | cons t ts => rfl

theorem run {calls : List (PathOp × Err)} (tree : NameTree s kids root)
    (represents : Represents s kids root m) (steps : Run PathStep s calls s') :
    ∃ m' kids', Run MapStep m calls m' ∧ NameTree s' kids' root ∧ Represents s' kids' root m' := by
  induction steps generalizing kids m with
  | refl => exact ⟨m, kids, .refl _, tree, represents⟩
  | @next s t u call calls first _ ih =>
    obtain ⟨t', kids', done, tree', represents'⟩ := tree.step represents call.1 first.1
    obtain ⟨code, rfl⟩ := Prod.mk.inj (Except.ok.inj (done.symm.trans first.2))
    obtain ⟨m', last, steps, final⟩ := ih tree' represents'
    have mapped : MapStep m call (call.1.apply m).2 := by rw [MapStep, ← code]
    exact ⟨m', last, .next mapped steps, final⟩

end NameTree

/-- Every run refines a run of the map with the same calls and codes, ends in
agreement with it, and can go on with any admissible call. -/
theorem run_refines_map (root : Addr) {calls : List (PathOp × Err)}
    (run : Run PathStep (boot root) calls s) :
    ∃ m, Run MapStep PathMap.initial calls m ∧ Agrees s m ∧
      ∀ op : PathOp, op.Admissible s → ∃ s', op.run s = .ok ((op.apply m).1, s') := by
  obtain ⟨m, kids, steps, tree, represents⟩ :=
    (NameTree.boot root).run (NameTree.represents_boot root) run
  refine ⟨m, steps, tree.agrees represents, fun op admissible => ?_⟩
  obtain ⟨s', _, done, _⟩ := tree.step represents op admissible
  exact ⟨s', done⟩

/-- One admissible call, if it finishes with this code. -/
def pathCall (s : Vfs) (call : PathOp × Err) : Option Vfs :=
  match call.1.run s with
  | .error _ => none
  | .ok (err, s') => if call.1.Admissible s ∧ err = call.2 then some s' else none

theorem pathCall_step (s : Vfs) (call : PathOp × Err) (s' : Vfs) (done : pathCall s call = some s') :
    PathStep s call s' := by
  unfold pathCall at done
  split at done
  · cases done
  · rename_i err t run
    split at done
    · rename_i passed
      cases done
      exact ⟨passed.1, passed.2 ▸ run⟩
    · cases done

/-- A file in a folder, and the folder removed again. -/
def nested : List (PathOp × Err) :=
  [(.create ["a".toList] .folder 1, .success), (.create ["a".toList, "b".toList] .file 2, .success),
    (.removeP ["a".toList], .success)]

theorem run_refines_map_nested : ∃ s m, Run PathStep (boot 0) nested s ∧
    Run MapStep PathMap.initial nested m ∧ Agrees s m := by
  have tested : (nested.foldlM pathCall (boot 0)).any (fun _ => True) = true := by decide +kernel
  obtain ⟨s, run, _⟩ := Run.of_tested pathCall_step tested
  obtain ⟨m, mapped, agrees, _⟩ := run_refines_map 0 run
  exact ⟨s, m, run, mapped, agrees⟩

end Laomb.VFS
