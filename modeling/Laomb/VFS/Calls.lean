import Laomb.VFS.Mount
import Laomb.VFS.Removal
import Laomb.VFS.Walk

/-! What `create`, `remove`, `vfs_mount` and `vfs_unmount` do to a forest: one
lemma for a call that goes through, and one that lists everything a finished
call may have done. -/
namespace Laomb.VFS
open LinkedList Vfs

variable {s s' : Vfs} {kids : Kids} {a b c d e r : Addr} {n m p : Node} {F : Set Addr}
  {path left name text : CString} {type : NodeType} {err : Err} {fresh : Addr} {ts : List CString}

/-- `a` became the last child of `d`; no other record lost more than links. -/
structure Created (s : Vfs) (kids : Kids) (d : Addr) (name : CString) (type : NodeType) (a : Addr)
    (s' : Vfs) : Prop where
  forest : Forest s' (Function.update kids d (kids d ++ [a]))
  record : ∃ n, s'.heap a = some n ∧ n.core = (newNode name type d).core
  core : ∀ b, b ≠ a → (s'.heap b).map Node.core = (s.heap b).map Node.core
  root : s'.root = s.root
  mounts : s'.mounts = s.mounts

/-- `r` became the last child of `d`, and the newest mount says so. -/
structure Spliced (s : Vfs) (kids : Kids) (d r : Addr) (s' : Vfs) : Prop where
  forest : Forest s' (Function.update kids d (kids d ++ [r]))
  record : ∃ n n', s.heap r = some n ∧ s'.heap r = some n' ∧ n'.core = { n with parent := some d }.core
  core : ∀ b, b ≠ r → (s'.heap b).map Node.core = (s.heap b).map Node.core
  root : s'.root = s.root
  mounts : s'.mounts = ⟨d, r⟩ :: s.mounts

namespace Forest

/-- The record of an unlisted node may be written freely. -/
theorem record (forest : Forest s kids) (outside : Unlisted kids a) (sound : n.Sound)
    (chain : Chain s.nextOf n.children (kids a)) (leaf : n.type ≠ .folder → kids a = []) :
    Forest (s.store a n) kids := by
  have links : ∀ d, ∀ c ∈ kids d, (s.store a n).nextOf c = s.nextOf c := by
    intro d c member
    refine nextOf_store_ne ?_ n
    rintro rfl
    exact outside d member
  have other : ∀ {e m}, e ≠ a → (s.store a n).heap e = some m → s.heap e = some m := by
    intro e m ne found
    rwa [store_heap, Function.update_of_ne ne] at found
  have self : ∀ {m}, (s.store a n).heap a = some m → m = n := by
    intro m found
    rw [store_heap, Function.update_self] at found
    exact (Option.some.inj found).symm
  constructor
  · intro d m found
    by_cases here : d = a
    · subst here
      exact self found ▸ chain.congr (links d)
    · exact (forest.chain d m (other here found)).congr (links d)
  · intro d gone
    by_cases here : d = a
    · simp [here] at gone
    · exact forest.dead d (by simpa only [store_heap, Function.update_of_ne here] using gone)
  · intro d c m member found
    have ne : c ≠ a := fun same => outside d (same ▸ member)
    exact forest.parent d c m member (other ne found)
  · intro d m found
    by_cases here : d = a
    · subst here
      exact self found ▸ sound
    · exact forest.sound d m (other here found)
  · intro d m found notFolder
    by_cases here : d = a
    · subst here
      exact leaf (self found ▸ notFolder)
    · exact forest.leaf d m (other here found) notFolder

theorem unlisted_dead (forest : Forest s kids) (free : s.heap a = none) : Unlisted kids a := by
  intro e member
  obtain ⟨n, found⟩ := forest.live member
  simp [free] at found

theorem unlisted_parent (forest : Forest s kids) (found : s.heap a = some n) (orphan : n.parent = none) :
    Unlisted kids a := by
  intro e member
  simp [forest.parent e a n member found] at orphan

theorem ops (forest : Forest s kids) (found : s.heap a = some n) : n.ops = some .ramfs :=
  (forest.sound a n found).ops

theorem folder_of_mem (forest : Forest s kids) (host : s.heap d = some p) (member : c ∈ kids d) :
    p.type = .folder := by
  by_contra other
  rw [forest.leaf d p host other] at member
  exact List.not_mem_nil member

theorem alloc (forest : Forest s kids) (free : s.heap a = none) (sound : n.Sound)
    (childless : n.children = none) : Forest (s.store a n) kids := by
  have empty := forest.dead a free
  refine forest.record (forest.unlisted_dead free) sound ?_ fun _ => empty
  rw [childless, empty]
  exact .nil

end Forest

theorem rootNode_sound : rootNode.Sound := ⟨⟨_, rfl⟩, rfl, .inr rfl⟩

theorem newNode_sound (name : CString) (d : Addr) (known : type ≠ .other) : (newNode name type d).Sound := by
  refine ⟨⟨name, rfl⟩, rfl, ?_⟩
  cases type with
  | file => exact .inl rfl
  | folder => exact .inr rfl
  | other => exact absurd rfl known

namespace Vfs

/-- A call that stopped with an error left the state alone. -/
theorem refused {call : Result (Err × Vfs)} {code : Err} (stop : call = .ok (code, s))
    (fails : code ≠ .success) (run : call = .ok (err, s')) : err ≠ .success ∧ s' = s := by
  obtain ⟨rfl, rfl⟩ := Prod.mk.inj (Except.ok.inj (stop.symm.trans run))
  exact ⟨fails, rfl⟩

theorem store_same (found : s.heap a = some n) : s.store a n = s := by
  rw [store, ← found, Function.update_eq_self]

theorem ramfsCreate_refused (host : s.heap d = some p) (other : p.type ≠ .folder) :
    s.ramfsCreate d name type fresh = .ok (.notPermitted, none, s) := by
  simp only [ramfsCreate, load_eq host, bind, Except.bind, if_pos other, pure, Except.pure]

/-- A type that is neither file nor folder crashes the call. -/
theorem ramfsCreate_other (host : s.heap d = some p) (folder : p.type = .folder) :
    s.ramfsCreate d name .other fresh = .error .nullDeref := by
  simp [ramfsCreate, load_eq host, bind, Except.bind, folder, pure, Except.pure, vfsCreateNode]

theorem ramfsCreate_ok (name : CString) (forest : Forest s kids) (host : s.heap d = some p)
    (folder : p.type = .folder)
    (free : s.Fresh fresh) (known : type ≠ .other) :
    ∃ s', s.ramfsCreate d name type fresh = .ok (.success, some fresh, s') ∧
      Created s kids d name type fresh s' := by
  have ne : d ≠ fresh := by
    rintro rfl
    simp [Fresh, host] at free
  have added := forest.alloc free (newNode_sound name d known) rfl
  have host' : (s.store fresh (newNode name type d)).heap d = some p := by
    rw [store_heap, Function.update_of_ne ne, host]
  have found : (s.store fresh (newNode name type d)).heap fresh = some (newNode name type d) := by
    rw [store_heap, Function.update_self]
  obtain ⟨s', run, after, relinked⟩ :=
    added.insert host' folder found rfl rfl (forest.unlisted_dead free)
  obtain ⟨n, record, core⟩ := relinked.core.forward found
  have empty : { n with data := none } = n := by
    have data : n.data = none := Node.core_data core
    rw [← data]
  refine ⟨s', ?_, after, ⟨n, record, core⟩, ?_, relinked.root, relinked.mounts⟩
  · simp only [ramfsCreate, load_eq host, bind, Except.bind, folder, pure, Except.pure, vfsCreateNode,
      if_neg known, run, load_eq record, empty, store_same record, ne_eq, not_true_eq_false, if_false]
  · intro b other
    rw [relinked.core b, store_heap, Function.update_of_ne other]

/-- The parent path `create` looks up for a path whose last slash follows `left`. -/
def hostPath (left : CString) : CString := if left = [] then ['/'] else left

theorem traverse_hostPath (root : s.root = some a) :
    s.vfsTraversePath (hostPath left) = s.walk a (components left) := by
  by_cases top : left = []
  · subst top
    exact traverse_eq root (by simp [hostPath])
  · rw [hostPath, if_neg top]
    exact traverse_eq root top

theorem parentPath_append (short : left.length < 256) :
    parentPath (left ++ '/' :: name) left.length = .ok (hostPath left) := by
  by_cases top : left = []
  · subst top
    rfl
  · have positive : left.length ≠ 0 := fun zero => top (List.length_eq_zero_iff.mp zero)
    rw [parentPath, if_neg positive, if_pos short, List.take_left, hostPath, if_neg top]
    rfl

theorem create_eq (type : NodeType) (fresh : Addr) (outside : '/' ∉ name) (short : left.length < 256)
    (host : s.vfsTraversePath (hostPath left) = .ok (some d)) (found : s.heap d = some p)
    (ops : p.ops = some .ramfs) :
    s.create (left ++ '/' :: name) type fresh =
      (do let (err, _, s) ← s.ramfsCreate d name type fresh; pure (err, s)) := by
  have rest : (left ++ '/' :: name).drop (left.length + 1) = name := by
    rw [← List.drop_drop, List.drop_left]
    rfl
  simp only [create, lastSlash_append outside, parentPath_append short, bind, Except.bind, host,
    load_eq found, ops, rest]

theorem create_notFound (outside : '/' ∉ name) (short : left.length < 256)
    (host : s.vfsTraversePath (hostPath left) = .ok none) :
    s.create (left ++ '/' :: name) type fresh = .ok (.notFound, s) := by
  simp only [create, lastSlash_append outside, parentPath_append short, bind, Except.bind, host, pure,
    Except.pure]

/-- Everything a finished `create` may have done. -/
theorem create_cases (forest : Forest s kids) (free : s.Fresh fresh)
    (run : s.create path type fresh = .ok (err, s')) :
    (err ≠ .success ∧ s' = s) ∨
    ∃ left name d p, path = left ++ '/' :: name ∧ '/' ∉ name ∧ left.length < 256 ∧
      s.vfsTraversePath (hostPath left) = .ok (some d) ∧ s.heap d = some p ∧ p.type = .folder ∧
      err = .success ∧ type ≠ .other ∧ Created s kids d name type fresh s' := by
  rcases lastSlash_cases path with noSlash | ⟨left, name, rfl, outside, slash⟩
  · have stop : s.create path type fresh = .ok (.error, s) := by
      simp only [create, noSlash, pure, Except.pure]
    exact .inl (refused stop nofun run)
  · by_cases short : left.length < 256
    · cases host : s.vfsTraversePath (hostPath left) with
      | error fault =>
        simp [create, slash, parentPath_append short, bind, Except.bind, host] at run
      | ok found =>
        cases found with
        | none => exact .inl (refused (create_notFound outside short host) nofun run)
        | some d =>
          cases record : s.heap d with
          | none =>
            simp [create, slash, parentPath_append short, bind, Except.bind, host, load_dead record] at run
          | some p =>
            have call := create_eq type fresh outside short host record (forest.ops record)
            by_cases folder : p.type = .folder
            · by_cases known : type = .other
              · subst known
                rw [call, ramfsCreate_other record folder] at run
                cases run
              · obtain ⟨t, made, created⟩ := ramfsCreate_ok name forest record folder free known
                rw [call, made] at run
                cases run
                exact .inr ⟨left, name, d, p, rfl, outside, short, host, record, folder, rfl, known, created⟩
            · have stop : s.create (left ++ '/' :: name) type fresh = .ok (.notPermitted, s) := by
                rw [call, ramfsCreate_refused record folder]
                rfl
              exact .inl (refused stop nofun run)
    · have positive : left.length ≠ 0 := by omega
      simp [create, slash, parentPath, positive, short, bind, Except.bind] at run

end Vfs

theorem Destroyed.withLog (destroyed : Destroyed F s kids s') (log : List Event) :
    Destroyed F s kids { s' with log := log } :=
  ⟨destroyed.dead, destroyed.core, destroyed.forest.of_heap rfl, destroyed.root, destroyed.mounts⟩

namespace Vfs

theorem ramfsRemove_ok (forest : Forest s kids) (found : s.heap c = some n) (host : s.heap d = some p)
    (folder : p.type = .folder) (only : ∀ e, c ∈ kids e → e = d) :
    ∃ s', s.ramfsRemove d c = .ok (.success, s') ∧ Destroyed (subtree kids c) s kids s' := by
  obtain ⟨t, run, destroyed⟩ := forest.vfsRemoveNode host ⟨n, found⟩ only
  cases data : n.data with
  | none =>
    refine ⟨_, ?_, destroyed.withLog (.readFreed c :: t.log)⟩
    simp only [ramfsRemove, load_eq host, bind, Except.bind, folder, load_eq found, run, data, pure,
      Except.pure, ne_eq, not_true_eq_false, if_false]
  | some bytes =>
    refine ⟨_, ?_, destroyed.withLog (.kfreeData c :: .readFreed c :: t.log)⟩
    simp only [ramfsRemove, load_eq host, bind, Except.bind, folder, load_eq found, run, data, pure,
      Except.pure, ne_eq, not_true_eq_false, if_false]

theorem remove_eq (found : s.heap c = some n) (parent : n.parent = some d) (host : s.heap d = some p)
    (ops : p.ops = some .ramfs) : s.remove (some c) = s.ramfsRemove d c := by
  simp only [remove, load_eq found, bind, Except.bind, parent, load_eq host, ops]

/-- A listed node can always be removed. -/
theorem remove_listed (forest : Forest s kids) (member : c ∈ kids d) :
    ∃ s', s.remove (some c) = .ok (.success, s') ∧ Destroyed (subtree kids c) s kids s' := by
  obtain ⟨n, found⟩ := forest.live member
  obtain ⟨p, host⟩ := forest.live_parent member
  rw [remove_eq found (forest.parent d c n member found) host (forest.ops host)]
  exact ramfsRemove_ok forest found host (forest.folder_of_mem host member)
    fun e other => forest.owner other member

/-- Everything a finished `remove` may have done. -/
theorem remove_cases {handle : Ptr} (forest : Forest s kids) (run : s.remove handle = .ok (err, s')) :
    (err ≠ .success ∧ s' = s) ∨
    ∃ c n, handle = some c ∧ s.heap c = some n ∧ n.parent ≠ none ∧ err = .success ∧
      Destroyed (subtree kids c) s kids s' := by
  cases handle with
  | none =>
    have stop : s.remove none = .ok (.notFound, s) := rfl
    exact .inl (refused stop nofun run)
  | some c =>
    cases found : s.heap c with
    | none => simp [remove, load_dead found, bind, Except.bind] at run
    | some n =>
      cases parent : n.parent with
      | none =>
        have stop : s.remove (some c) = .ok (.notFound, s) := by
          simp only [remove, load_eq found, bind, Except.bind, parent, pure, Except.pure]
        exact .inl (refused stop nofun run)
      | some d =>
        cases host : s.heap d with
        | none => simp [remove, load_eq found, bind, Except.bind, parent, load_dead host] at run
        | some p =>
          rw [remove_eq found parent host (forest.ops host)] at run
          by_cases folder : p.type = .folder
          · have only : ∀ e, c ∈ kids e → e = d := by
              intro e member
              exact Option.some.inj ((forest.parent e c n member found).symm.trans parent)
            obtain ⟨t, removed, destroyed⟩ := ramfsRemove_ok forest found host folder only
            rw [removed] at run
            cases run
            exact .inr ⟨c, n, rfl, found, by simp [parent], rfl, destroyed⟩
          · have stop : s.ramfsRemove d c = .ok (.notPermitted, s) := by
              simp only [ramfsRemove, load_eq host, bind, Except.bind, if_pos folder, pure, Except.pure]
            exact .inl (refused stop nofun run)

theorem removeP_eq (run : s.removeP path = .ok (err, s')) :
    ∃ handle, s.vfsTraversePath path = .ok handle ∧ s.remove handle = .ok (err, s') := by
  rw [removeP] at run
  cases opened : s.vfsTraversePath path with
  | error fault => simp [opened, bind, Except.bind] at run
  | ok handle => exact ⟨handle, rfl, by simpa [opened, bind, Except.bind] using run⟩

/-- A file system root that is in no list and has no stale link can be mounted. -/
theorem vfsMount_ok (forest : Forest s kids) (root : s.root = some a)
    (target : s.vfsTraversePath path = .ok (some d)) (host : s.heap d = some p)
    (folder : p.type = .folder) (found : s.heap r = some n) (last : n.next = none)
    (outside : Unlisted kids r) (ne : d ≠ r) :
    ∃ s', s.vfsMount (some path) (some r) = .ok (.success, s') ∧ Spliced s kids d r s' := by
  let t := s.setMounts (⟨d, r⟩ :: s.mounts)
  let n' : Node := { n with parent := some d }
  have forest' : Forest (t.store r n') kids := by
    have moved : Forest t kids := forest.of_heap rfl
    refine moved.record outside ?_ (forest.chain r n found)
      (forest.leaf r n found)
    exact ⟨(forest.sound r n found).named, (forest.sound r n found).ops, (forest.sound r n found).kind⟩
  have host' : (t.store r n').heap d = some p := by
    rw [store_heap, Function.update_of_ne ne]
    exact host
  have found' : (t.store r n').heap r = some n' := by
    rw [store_heap, Function.update_self]
  obtain ⟨s', run, after, relinked⟩ := forest'.insert host' folder found' rfl last outside
  obtain ⟨m, record, core⟩ := relinked.core.forward found'
  refine ⟨s', ?_, after, ⟨n, m, found, record, core⟩, ?_, relinked.root, relinked.mounts⟩
  · have loaded : t.load r = .ok n := load_eq found
    have inserted : (t.store r { n with parent := some d }).vfsInsertNode d r = .ok s' := run
    simp only [vfsMount, root, target, bind, Except.bind, load_eq host, folder, ne_eq, not_true_eq_false,
      if_false, loaded, inserted, t, pure, Except.pure]
  · intro b other
    rw [relinked.core b, store_heap, Function.update_of_ne other]
    rfl

/-- Everything a finished `vfs_mount` of such a root may have done. -/
theorem vfsMount_cases (forest : Forest s kids) (found : s.heap r = some n) (last : n.next = none)
    (outside : Unlisted kids r) (apart : s.vfsTraversePath path ≠ .ok (some r))
    (run : s.vfsMount (some path) (some r) = .ok (err, s')) :
    (err ≠ .success ∧ s' = s) ∨
    ∃ d p, s.vfsTraversePath path = .ok (some d) ∧ s.heap d = some p ∧ p.type = .folder ∧ d ≠ r ∧
      err = .success ∧ Spliced s kids d r s' := by
  cases root : s.root with
  | none =>
    have stop : s.vfsMount (some path) (some r) = .ok (.error, s) := by
      simp only [vfsMount, root, pure, Except.pure]
    exact .inl (refused stop nofun run)
  | some a =>
    cases target : s.vfsTraversePath path with
    | error fault => simp [vfsMount, root, target, bind, Except.bind] at run
    | ok opened =>
      cases opened with
      | none =>
        have stop : s.vfsMount (some path) (some r) = .ok (.notFound, s) := by
          simp only [vfsMount, root, target, bind, Except.bind, pure, Except.pure]
        exact .inl (refused stop nofun run)
      | some d =>
        cases host : s.heap d with
        | none => simp [vfsMount, root, target, bind, Except.bind, load_dead host] at run
        | some p =>
          by_cases folder : p.type = .folder
          · have ne : d ≠ r := fun same => apart (same ▸ target)
            obtain ⟨t, mounted, spliced⟩ := vfsMount_ok forest root target host folder found last outside ne
            rw [mounted] at run
            cases run
            exact .inr ⟨d, p, rfl, host, folder, ne, rfl, spliced⟩
          · have stop : s.vfsMount (some path) (some r) = .ok (.notPermitted, s) := by
              simp only [vfsMount, root, target, bind, Except.bind, load_eq host, if_pos folder, pure,
                Except.pure]
            exact .inl (refused stop nofun run)

theorem takeMount_some {mounts rest : List Mount} {entry : Mount}
    (taken : takeMount d mounts = some (entry, rest)) :
    ∃ newer older, mounts = newer ++ entry :: older ∧ rest = newer ++ older ∧ entry.mountPoint = d := by
  induction mounts generalizing rest with
  | nil => simp [takeMount] at taken
  | cons head mounts ih =>
    by_cases here : head.mountPoint = d
    · simp only [takeMount, if_pos here, Option.some.injEq, Prod.mk.injEq] at taken
      obtain ⟨rfl, rfl⟩ := taken
      exact ⟨[], mounts, rfl, rfl, here⟩
    · simp only [takeMount, if_neg here, Option.map_eq_some_iff, Prod.mk.injEq] at taken
      obtain ⟨⟨entry', rest'⟩, deeper, rfl, rfl⟩ := taken
      obtain ⟨newer, older, split, without, point⟩ := ih deeper
      exact ⟨head :: newer, older, by rw [split]; rfl, by rw [without]; rfl, point⟩

theorem takeMount_sub {mounts rest : List Mount} {entry : Mount}
    (taken : takeMount d mounts = some (entry, rest)) : ∀ m ∈ rest, m ∈ mounts := by
  obtain ⟨newer, older, rfl, rfl, _⟩ := takeMount_some taken
  intro m member
  rcases List.mem_append.mp member with early | late
  · exact List.mem_append_left _ early
  · exact List.mem_append_right _ (List.mem_cons_of_mem _ late)

/-- The entry is gone from the table and its root from the list of `d`. -/
structure Unspliced (s : Vfs) (kids : Kids) (d : Addr) (entry : Mount) (rest : List Mount) (s' : Vfs) :
    Prop where
  forest : Forest s' (Function.update kids d ((kids d).erase entry.mountedRoot))
  core : SameCore s s'
  root : s'.root = s.root
  mounts : s'.mounts = rest

/-- Everything a finished `vfs_unmount` may have done. -/
theorem vfsUnmount_cases (forest : Forest s kids) (run : s.vfsUnmount (some path) = .ok (err, s')) :
    (err ≠ .success ∧ s' = s) ∨
    ∃ d entry rest, s.vfsTraversePath path = .ok (some d) ∧ takeMount d s.mounts = some (entry, rest) ∧
      err = .success ∧ Unspliced s kids d entry rest s' := by
  cases root : s.root with
  | none =>
    have stop : s.vfsUnmount (some path) = .ok (.error, s) := by
      simp only [vfsUnmount, root, pure, Except.pure]
    exact .inl (refused stop nofun run)
  | some a =>
    cases target : s.vfsTraversePath path with
    | error fault => simp [vfsUnmount, root, target, bind, Except.bind] at run
    | ok opened =>
      cases opened with
      | none =>
        have stop : s.vfsUnmount (some path) = .ok (.notFound, s) := by
          simp only [vfsUnmount, root, target, bind, Except.bind, pure, Except.pure]
        exact .inl (refused stop nofun run)
      | some d =>
        cases taken : takeMount d s.mounts with
        | none =>
          have stop : s.vfsUnmount (some path) = .ok (.notFound, s) := by
            simp only [vfsUnmount, root, target, bind, Except.bind, taken, pure, Except.pure]
          exact .inl (refused stop nofun run)
        | some found =>
          obtain ⟨entry, rest⟩ := found
          have forest' : Forest (s.setMounts rest) kids := forest.of_heap rfl
          cases host : s.heap d with
          | none =>
            have dead : (s.setMounts rest).load d = .error .useAfterFree := load_dead host
            simp [vfsUnmount, root, target, bind, Except.bind, taken, unlink, dead] at run
          | some p =>
            have host' : (s.setMounts rest).heap d = some p := host
            obtain ⟨t, unlinked, after, relinked⟩ := forest'.unlink host' entry.mountedRoot
            simp only [vfsUnmount, root, target, bind, Except.bind, taken, unlinked, pure, Except.pure,
              Except.ok.injEq, Prod.mk.injEq] at run
            obtain ⟨rfl, rfl⟩ := run
            exact .inr ⟨d, entry, rest, rfl, taken, rfl, after, relinked.core, relinked.root, relinked.mounts⟩

end Vfs
namespace Created

theorem nameOf (created : Created s kids d name type a s') : s'.nameOf a = some name := by
  obtain ⟨n, found, core⟩ := created.record
  simp only [Vfs.nameOf, found, Option.bind_some, Node.core_name core, newNode]

theorem child_other (forest : Forest s kids) (free : s.Fresh a)
    (created : Created s kids d name type a s') (ne : e ≠ d) (text : CString) :
    s'.child (Function.update kids d (kids d ++ [a])) e text = s.child kids e text := by
  unfold child
  rw [Function.update_of_ne ne]
  refine List.find?_congr fun c member => ?_
  have other : c ≠ a := fun same => forest.unlisted_dead free e (same ▸ member)
  rw [nameOf_of_core (created.core c other)]

theorem child_host (forest : Forest s kids) (free : s.Fresh a)
    (created : Created s kids d name type a s') (text : CString) :
    s'.child (Function.update kids d (kids d ++ [a])) d text =
      (s.child kids d text).or (if name = text then some a else none) := by
  unfold child
  rw [Function.update_self, List.find?_append]
  congr 1
  · refine List.find?_congr fun c member => ?_
    have other : c ≠ a := fun same => forest.unlisted_dead free d (same ▸ member)
    rw [nameOf_of_core (created.core c other)]
  · by_cases hit : name = text
    · simp [created.nameOf, hit]
    · simp [created.nameOf, hit]

theorem live (created : Created s kids d name type a s') (alive : s.Live b) : s'.Live b := by
  by_cases same : b = a
  · subst same
    obtain ⟨n, found, _⟩ := created.record
    exact ⟨n, found⟩
  · exact (part_live (created.core b same)).mpr alive

theorem redirect (created : Created s kids d name type a s') (b : Addr) :
    s'.redirect b = s.redirect b := by
  simp only [Vfs.redirect, created.mounts]

/-- What could be opened before still opens the same node. -/
theorem walk (forest : Forest s kids) (free : s.Fresh a) (created : Created s kids d name type a s')
    (run : s.walk b ts = .ok (some c)) : s'.walk b ts = .ok (some c) := by
  induction ts generalizing b with
  | nil => exact run
  | cons t ts ih =>
    obtain ⟨next, first, rest⟩ := walk_cons_ok run
    obtain ⟨alive, found⟩ := forest.search_iff.mp first
    have again : s'.vfsSearchNode (s'.redirect b) t = .ok (some next) := by
      rw [created.redirect]
      refine created.forest.search_iff.mpr ⟨created.live alive, ?_⟩
      by_cases here : s.redirect b = d
      · rw [here] at found ⊢
        rw [created.child_host forest free, found, Option.some_or]
      · rw [created.child_other forest free here, found]
    simp only [Vfs.walk, again, bind, Except.bind]
    exact ih rest

end Created

theorem mem_update_append {l : List Addr} :
    c ∈ Function.update kids d (kids d ++ l) e ↔ c ∈ kids e ∨ (e = d ∧ c ∈ l) := by
  by_cases same : e = d
  · subst same
    simp
  · simp [same]

theorem mem_update_erase (distinct : (kids d).Nodup) :
    c ∈ Function.update kids d ((kids d).erase b) e ↔ c ∈ kids e ∧ ¬ (e = d ∧ c = b) := by
  by_cases same : e = d
  · subst same
    rw [Function.update_self, distinct.mem_erase_iff]
    tauto
  · simp [same]

theorem boot_forest (root : Addr) : Forest (boot root) (fun _ => []) := by
  have empty : Forest ⟨fun _ => none, none, [], []⟩ (fun _ => []) :=
    ⟨by simp, by simp, by simp, by simp, by simp⟩
  exact (empty.alloc (a := root) (n := rootNode) rfl rootNode_sound rfl).of_heap rfl

end Laomb.VFS
