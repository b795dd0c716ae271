import Laomb.VFS.PathMap
import Laomb.VFS.RamFile

/-! Trees in which every live node hangs below the root under a name that a
path can spell. Creating an absent path, removing a live node and writing a
file keep a tree tidy. -/
namespace Laomb.VFS
open LinkedList Vfs Fields

structure Tidy (s : Vfs) (kids : Kids) (root : Addr) : Prop extends NameTree s kids root where
  orphan : ∀ n, s.heap root = some n → n.parent = none
  named : ∀ d, ∀ c ∈ kids d, ∀ t, s.nameOf c = some t → Component t
  reached : ∀ a, s.Live a → Below kids root a

/-- All of a record but the contents of a file. -/
def Node.shape (n : Node) : Node := { n with size := 0, data := none }

/-- Only file contents differ. -/
structure SameShape (s s' : Vfs) : Prop where
  shape : ∀ a, (s'.heap a).map Node.shape = (s.heap a).map Node.shape
  root : s'.root = s.root
  mounts : s'.mounts = s.mounts

variable {s s' : Vfs} {kids : Kids} {root a b c d e : Addr} {n m : Node} {parts : List CString}
  {type : NodeType} {err : Err} {path name : CString}

theorem Node.shape_field {β : Type} (f : Node → β) (whole : ∀ n : Node, f n = f n.shape)
    (same : n.shape = m.shape) : f n = f m := by
  rw [whole n, same, ← whole m]

namespace SameShape

theorem refl (s : Vfs) : SameShape s s := ⟨fun _ => rfl, rfl, rfl⟩

theorem store (found : s.heap a = some m) (shape : n.shape = m.shape) : SameShape s (s.store a n) :=
  ⟨part_store found shape, rfl, rfl⟩

theorem trans {s'' : Vfs} (first : SameShape s s') (second : SameShape s' s'') : SameShape s s'' :=
  ⟨fun a => (second.shape a).trans (first.shape a), second.root.trans first.root,
    second.mounts.trans first.mounts⟩

theorem backward (same : SameShape s s') (found : s'.heap a = some n) :
    ∃ m, s.heap a = some m ∧ n.shape = m.shape := part_backward (same.shape a) found

theorem nameOf (same : SameShape s s') (a : Addr) : s'.nameOf a = s.nameOf a :=
  part_nameOf (h := Node.name) (same.shape a) fun _ => rfl

theorem forest (forest : Forest s kids) (same : SameShape s s') : Forest s' kids := by
  have links : s'.nextOf = s.nextOf := by
    funext a
    exact part_map (h := Node.next) (same.shape a) fun _ => rfl
  constructor
  · intro d n found
    obtain ⟨m, old, shape⟩ := same.backward found
    rw [links, Node.shape_field Node.children (fun _ => rfl) shape]
    exact forest.chain d m old
  · exact fun d gone => forest.dead d ((part_dead (same.shape d)).mp gone)
  · intro d c n member found
    obtain ⟨m, old, shape⟩ := same.backward found
    exact (Node.shape_field Node.parent (fun _ => rfl) shape).trans (forest.parent d c m member old)
  · intro a n found
    obtain ⟨m, old, shape⟩ := same.backward found
    have sound := forest.sound a m old
    refine ⟨?_, (Node.shape_field Node.ops (fun _ => rfl) shape).trans sound.ops, ?_⟩
    · rw [Node.shape_field Node.name (fun _ => rfl) shape]
      exact sound.named
    · rw [Node.shape_field Node.type (fun _ => rfl) shape]
      exact sound.kind
  · intro a n found notFolder
    obtain ⟨m, old, shape⟩ := same.backward found
    exact forest.leaf a m old (Node.shape_field Node.type (fun _ => rfl) shape ▸ notFolder)

end SameShape

namespace Vfs

theorem makeRoom_shape {offset size : Nat} {junk : Nat → Byte}
    (run : makeRoom n offset size junk = .ok m) : m.shape = n.shape := by
  rw [makeRoom] at run
  split at run
  · cases run
    rfl
  · simp only [pure, Except.pure] at run
    split at run
    · cases run
      rfl
    · split at run
      · split at run
        · cases run
          rfl
        · cases run
      · cases run
        rfl

/-- A write changes file contents only. -/
theorem write_shape {offset size : Nat} {buffer : List Byte} {junk : Nat → Byte}
    (run : s.write a offset size buffer junk = .ok (err, s')) : SameShape s s' := by
  rw [write] at run
  obtain ⟨n, loaded, run⟩ := bind_ok run
  split at run
  · cases run
    exact .refl s
  · rw [ramfsWrite] at run
    obtain ⟨n, loaded, run⟩ := bind_ok run
    split at run
    · cases run
      exact .refl s
    · obtain ⟨m, room, run⟩ := bind_ok run
      dsimp only at run
      split at run
      · cases run
        have shape : m.shape = n.shape := makeRoom_shape room
        exact .store (load_ok.mp loaded) shape
      · cases run

end Vfs

namespace Tidy

theorem of_shape (tidy : Tidy s kids root) (same : SameShape s s') : Tidy s' kids root := by
  have names := same.nameOf
  refine ⟨⟨same.forest tidy.forest, same.root.trans tidy.rooted, same.mounts.trans tidy.plain, ?_,
    tidy.outside, ?_⟩, ?_, ?_, fun a live => tidy.reached a ((part_live (same.shape a)).mp live)⟩
  · exact (part_map (h := Node.type) (same.shape root) fun _ => rfl).trans tidy.top
  · intro d x inX y inY eq
    exact tidy.distinct d x inX y inY (by rw [← names, ← names, eq])
  · intro n found
    obtain ⟨m, old, shape⟩ := same.backward found
    exact (Node.shape_field Node.parent (fun _ => rfl) shape).trans (tidy.orphan m old)
  · intro d c member t name
    exact tidy.named d c member t (names c ▸ name)

/-- Creating a path that `open` does not find. -/
theorem create (tidy : Tidy s kids root) (named : Named parts) (absent : s.openPath (render parts) = .ok none)
    (free : s.Fresh a) (run : s.create (render parts) type a = .ok (err, s')) :
    ∃ kids', Tidy s' kids' root := by
  rcases create_cases tidy.forest free run with
    ⟨_, rfl⟩ | ⟨left, name, d, p, same, outside, _, host, record, _, _, _, created⟩
  · exact ⟨kids, tidy⟩
  rw [tidy.openPath named] at absent
  have unresolved := Except.ok.inj absent
  rcases List.eq_nil_or_concat' parts with empty | ⟨ps, last, rfl⟩
  · exact absurd empty named.1
  rw [render_snoc] at same
  have component := named.2 last (by simp)
  have lengths := (lastSlash_append (l := render ps) (component_iff.mp component).2).symm.trans
    (same ▸ lastSlash_append outside)
  obtain ⟨rfl, tails⟩ := List.append_inj same (Option.some.inj lengths)
  obtain rfl := (List.cons.inj tails).2
  have front : ∀ part ∈ ps, Component part := fun part member => named.2 part (by simp [member])
  rw [traverse_hostPath tidy.rooted, components_render front,
    tidy.forest.walk_resolve tidy.plain tidy.live] at host
  have found := Except.ok.inj host
  have unused : s.child kids d last = none := by
    rwa [resolve_snoc, found, Option.bind_some] at unresolved
  have tree := tidy.toNameTree.created free unused created
  have stays : ∀ {b}, s.Live b → b ≠ a := fun alive => alive.ne_fresh free
  have sub : ∀ e, ∀ c ∈ kids e, c ∈ Function.update kids d (kids d ++ [a]) e :=
    fun e c member => mem_update_append.mpr (.inl member)
  refine ⟨_, tree, ?_, ?_, ?_⟩
  · intro n top
    obtain ⟨m, old, same⟩ := part_backward (created.core root (stays tidy.live)) top
    rw [Node.core_parent same]
    exact tidy.orphan m old
  · intro e c member t name
    rcases mem_update_append.mp member with old | ⟨_, added⟩
    · rw [nameOf_of_core (created.core c (stays (tidy.forest.live old)))] at name
      exact tidy.named e c old t name
    · cases List.mem_singleton.mp added
      rw [created.nameOf, Option.some.injEq] at name
      exact name ▸ component
  · intro b live
    by_cases here : b = a
    · subst here
      have above : Below kids root d := Forest.resolve_below found
      exact (above.mono sub).tail (mem_update_append.mpr (.inr ⟨rfl, List.mem_cons_self⟩))
    · exact (tidy.reached b ((part_live (created.core b here)).mp live)).mono sub

/-- Removing a live node, with whatever `remove` answers. -/
theorem remove (tidy : Tidy s kids root) (run : s.remove (some c) = .ok (err, s')) :
    ∃ kids', Tidy s' kids' root := by
  rcases remove_cases tidy.forest run with ⟨_, rfl⟩ | ⟨x, n, same, found, parent, _, destroyed⟩
  · exact ⟨kids, tidy⟩
  cases same
  have below := tidy.reached c ⟨n, found⟩
  obtain ⟨d, listed⟩ : c ∈ listed kids := by
    rcases below.listed_or with rfl | inside
    · exact absurd (tidy.orphan n found) parent
    · exact inside
  have tree := tidy.toNameTree.destroyed listed destroyed
  have stays : root ∉ subtree kids c :=
    fun under => tidy.outside d (Below.unlisted tidy.outside under ▸ listed)
  refine ⟨_, tree, ?_, ?_, ?_⟩
  · intro m top
    obtain ⟨m', old, same⟩ := part_backward (destroyed.core root stays) top
    rw [Node.core_parent same]
    exact tidy.orphan m' old
  · intro e b member t name
    obtain ⟨_, old, kept⟩ := mem_prune.mp member
    rw [destroyed.nameOf kept] at name
    exact tidy.named e b old t name
  · intro b live
    have kept : b ∉ subtree kids c := by
      intro gone
      obtain ⟨m, alive⟩ := live
      exact absurd (alive.symm.trans (destroyed.dead b gone)) (by simp)
    have path := tidy.reached b ((part_live (destroyed.core b kept)).mp live)
    clear live
    induction path with
    | refl => exact .refl
    | @tail e b _ member ih =>
      have host : e ∉ subtree kids c := fun gone => kept (Relation.ReflTransGen.tail gone member)
      exact (ih host).tail (mem_prune.mpr ⟨host, member, kept⟩)

theorem boot (root : Addr) : Tidy (Vfs.boot root) (fun _ => []) root := by
  refine ⟨.boot root, ?_, fun _ c member => absurd member List.not_mem_nil, ?_⟩
  · intro n found
    simp only [Vfs.boot, vfsInitialize, store_heap, Function.update_self, Option.some.injEq] at found
    rw [← found]
    rfl
  · rintro a ⟨n, found⟩
    by_cases here : a = root
    · exact here ▸ .refl
    · simp [Vfs.boot, vfsInitialize, here] at found

end Tidy

/-- The names on the way from the root down to a node. -/
inductive Vfs.OwnPath (s : Vfs) : Addr → List CString → Prop where
  | root (a : Addr) : s.root = some a → OwnPath s a []
  | child (d c : Addr) (parts : List CString) (name : CString) (l : List Addr) : OwnPath s d parts →
      s.ChildList d l → c ∈ l → s.nameOf c = some name → OwnPath s c (parts ++ [name])

/-- The text of a path, "/" for the root. -/
def pathText (parts : List CString) : CString := if parts = [] then ['/'] else render parts

/-- No directory has two children of one name or a child without a name, and
every live node is what `open` returns on its own path. -/
structure NamesIdentify (s : Vfs) : Prop where
  distinct : ∀ d l, s.ChildList d l → (l.map s.nameOf).Nodup
  nonempty : ∀ d l c, s.ChildList d l → c ∈ l → s.nameOf c ≠ some []
  path : ∀ a, s.Live a → ∃ parts, s.OwnPath a parts
  opened : ∀ a parts, s.OwnPath a parts → s.openPath (pathText parts) = .ok (some a)

namespace Tidy

theorem ownPath (tidy : Tidy s kids root) (own : s.OwnPath a parts) :
    s.resolve kids root parts = some a ∧ ∀ part ∈ parts, Component part := by
  induction own with
  | root a top =>
    cases Option.some.inj (tidy.rooted.symm.trans top)
    exact ⟨rfl, fun part member => absurd member List.not_mem_nil⟩
  | child d c parts name l _ list member named ih =>
    obtain ⟨found, good⟩ := ih
    rw [tidy.forest.childList_eq list] at member
    refine ⟨?_, fun part inside => ?_⟩
    · rw [resolve_snoc, found, Option.bind_some]
      exact Forest.child_of_mem tidy.distinct member named
    · rcases List.mem_append.mp inside with early | last
      · exact good part early
      · exact List.mem_singleton.mp last ▸ tidy.named d c member name named

theorem namesIdentify (tidy : Tidy s kids root) : NamesIdentify s := by
  refine ⟨?_, ?_, ?_, ?_⟩
  · intro d l list
    rw [tidy.forest.childList_eq list]
    exact List.Nodup.map_on (fun x inX y inY same => tidy.distinct d x inX y inY same) (tidy.forest.nodup d)
  · intro d l c list member empty
    rw [tidy.forest.childList_eq list] at member
    exact (tidy.named d c member [] empty).1 rfl
  · intro a live
    have below := tidy.reached a live
    clear live
    induction below with
    | refl => exact ⟨[], .root root tidy.rooted⟩
    | @tail d c _ member ih =>
      obtain ⟨parts, own⟩ := ih
      obtain ⟨p, host⟩ := tidy.forest.live_parent member
      obtain ⟨name, named⟩ := tidy.forest.name (tidy.forest.live member)
      exact ⟨parts ++ [name], .child d c parts name _ own (tidy.forest.childList host) member named⟩
  · intro a parts own
    obtain ⟨found, good⟩ := tidy.ownPath own
    by_cases top : parts = []
    · subst top
      rw [pathText, if_pos rfl, Vfs.openPath, traverse_eq tidy.rooted (by simp)]
      cases found
      rfl
    · rw [pathText, if_neg top, tidy.openPath ⟨top, good⟩, found]

end Tidy
end Laomb.VFS
