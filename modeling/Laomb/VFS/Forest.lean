import Laomb.Base.Chain
import Laomb.VFS.Tree

/-! The shape of the node graph. `kids` assigns each directory its children in
list order; a forest is a heap whose pointers spell out such an assignment. -/
namespace Laomb.VFS
open LinkedList

abbrev Kids := Addr → List Addr

namespace Vfs

def nextOf (s : Vfs) (a : Addr) : Option Ptr := (s.heap a).map Node.next

def nameOf (s : Vfs) (a : Addr) : Option CString := (s.heap a).bind Node.name

/-- Following `next` from the first child of `d` reaches null and passes `l`. -/
def ChildList (s : Vfs) (d : Addr) (l : List Addr) : Prop :=
  ∃ n, s.heap d = some n ∧ Chain s.nextOf n.children l

end Vfs

/-- The part of a record that relinking siblings leaves alone. -/
def Node.core (n : Node) : Node := { n with children := none, next := none }

def SameCore (s s' : Vfs) : Prop := ∀ a, (s'.heap a).map Node.core = (s.heap a).map Node.core

structure Node.Sound (n : Node) : Prop where
  named : ∃ text, n.name = some text
  ops : n.ops = some .ramfs
  kind : n.type = .file ∨ n.type = .folder

structure Forest (s : Vfs) (kids : Kids) : Prop where
  chain : ∀ d n, s.heap d = some n → Chain s.nextOf n.children (kids d)
  dead : ∀ d, s.heap d = none → kids d = []
  parent : ∀ d c n, c ∈ kids d → s.heap c = some n → n.parent = some d
  sound : ∀ a n, s.heap a = some n → n.Sound
  leaf : ∀ a n, s.heap a = some n → n.type ≠ .folder → kids a = []

variable {s s' s'' : Vfs} {kids : Kids} {a b c d e : Addr} {n m p : Node} {l : List Addr}

theorem Node.core_type (same : n.core = m.core) : n.type = m.type := by
  simpa only [core] using congrArg Node.type same

theorem Node.core_name (same : n.core = m.core) : n.name = m.name := by
  simpa only [core] using congrArg Node.name same

theorem Node.core_parent (same : n.core = m.core) : n.parent = m.parent := by
  simpa only [core] using congrArg Node.parent same

theorem Node.core_ops (same : n.core = m.core) : n.ops = m.ops := by
  simpa only [core] using congrArg Node.ops same

theorem Node.core_data (same : n.core = m.core) : n.data = m.data := by
  simpa only [core] using congrArg Node.data same

theorem Node.Sound.of_core (sound : m.Sound) (same : n.core = m.core) : n.Sound := by
  refine ⟨?_, (core_ops same).trans sound.ops, ?_⟩
  · rw [core_name same]
    exact sound.named
  · rw [core_type same]
    exact sound.kind

section Part
variable {β γ : Type} {part : Node → β}

/-! One address in two heaps that agree on a part of its record. -/

theorem part_backward (same : (s'.heap a).map part = (s.heap a).map part) (found : s'.heap a = some n) :
    ∃ m, s.heap a = some m ∧ part n = part m := by
  rw [found] at same
  obtain ⟨m, old, eq⟩ := Option.map_eq_some_iff.mp same.symm
  exact ⟨m, old, eq.symm⟩

theorem part_dead (same : (s'.heap a).map part = (s.heap a).map part) :
    s'.heap a = none ↔ s.heap a = none := by
  rw [← Option.map_eq_none_iff (f := part), same, Option.map_eq_none_iff]

theorem part_live (same : (s'.heap a).map part = (s.heap a).map part) : s'.Live a ↔ s.Live a := by
  simp only [Vfs.Live, ← Option.ne_none_iff_exists', ne_eq, part_dead same]

/-- What can be read off the part is unchanged. -/
theorem part_map {g : Node → γ} {h : β → γ} (same : (s'.heap a).map part = (s.heap a).map part)
    (whole : ∀ n, g n = h (part n)) : (s'.heap a).map g = (s.heap a).map g := by
  have lift : ∀ o : Option Node, o.map g = (o.map part).map h := by
    intro o
    rw [Option.map_map]
    exact congrArg (fun read => o.map read) (funext whole)
  rw [lift, same, ← lift]

theorem part_nameOf {h : β → Option CString} (same : (s'.heap a).map part = (s.heap a).map part)
    (whole : ∀ n, Node.name n = h (part n)) : s'.nameOf a = s.nameOf a := by
  have names : ∀ t : Vfs, t.nameOf a = ((t.heap a).map Node.name).join := by
    intro t
    simp only [Vfs.nameOf]
    cases t.heap a <;> rfl
  rw [names, part_map same whole, names]

theorem part_store (found : s.heap a = some m) (eq : part n = part m) (b : Addr) :
    ((s.store a n).heap b).map part = (s.heap b).map part := by
  by_cases same : b = a
  · subst same
    simp only [Vfs.store_heap, Function.update_self, Option.map_some, found, eq]
  · simp only [Vfs.store_heap, Function.update_of_ne same]

end Part

namespace SameCore

theorem refl (s : Vfs) : SameCore s s := fun _ => rfl

theorem trans (first : SameCore s s') (second : SameCore s' s'') : SameCore s s'' :=
  fun a => (second a).trans (first a)

theorem backward (same : SameCore s s') (found : s'.heap a = some n) :
    ∃ m, s.heap a = some m ∧ n.core = m.core := part_backward (same a) found

theorem forward (same : SameCore s s') (found : s.heap a = some m) :
    ∃ n, s'.heap a = some n ∧ n.core = m.core := by
  obtain ⟨n, new, core⟩ := part_backward (same a).symm found
  exact ⟨n, new, core.symm⟩

theorem dead_iff (same : SameCore s s') : s'.heap a = none ↔ s.heap a = none := part_dead (same a)

theorem live_iff (same : SameCore s s') : s'.Live a ↔ s.Live a := part_live (same a)

theorem store (found : s.heap a = some m) (core : n.core = m.core) : SameCore s (s.store a n) :=
  part_store found core

end SameCore

theorem nameOf_of_core (core : (s'.heap b).map Node.core = (s.heap b).map Node.core) :
    s'.nameOf b = s.nameOf b := part_nameOf (h := Node.name) core fun _ => rfl

theorem SameCore.nameOf (same : SameCore s s') (a : Addr) : s'.nameOf a = s.nameOf a :=
  nameOf_of_core (same a)

namespace Forest

theorem live (forest : Forest s kids) (member : c ∈ kids d) : s.Live c := by
  cases found : s.heap d with
  | none =>
    rw [forest.dead d found] at member
    exact absurd member List.not_mem_nil
  | some p =>
    obtain ⟨q, link⟩ := (forest.chain d p found).linked c member
    obtain ⟨n, record, _⟩ := Option.map_eq_some_iff.mp link
    exact ⟨n, record⟩

theorem live_parent (forest : Forest s kids) (member : c ∈ kids d) : s.Live d := by
  cases found : s.heap d with
  | none =>
    rw [forest.dead d found] at member
    exact absurd member List.not_mem_nil
  | some p => exact ⟨p, found⟩

theorem owner (forest : Forest s kids) (left : c ∈ kids d) (right : c ∈ kids e) : d = e := by
  obtain ⟨n, found⟩ := forest.live left
  exact Option.some.inj ((forest.parent d c n left found).symm.trans (forest.parent e c n right found))

theorem nodup (forest : Forest s kids) (d : Addr) : (kids d).Nodup := by
  cases found : s.heap d with
  | none =>
    rw [forest.dead d found]
    exact .nil
  | some p => exact (forest.chain d p found).nodup

theorem length_lt (forest : Forest s kids) (d : Addr) : (kids d).length < limit := by
  have bound := length_le_addresses (forest.nodup d)
  unfold limit
  omega

theorem childList (forest : Forest s kids) (found : s.heap d = some n) : s.ChildList d (kids d) :=
  ⟨n, found, forest.chain d n found⟩

theorem childList_eq (forest : Forest s kids) (list : s.ChildList d l) : l = kids d := by
  obtain ⟨n, found, chain⟩ := list
  exact chain.unique (forest.chain d n found)

theorem childList_iff (forest : Forest s kids) : s.ChildList d l ↔ s.Live d ∧ l = kids d := by
  constructor
  · intro list
    have same := forest.childList_eq list
    obtain ⟨n, found, _⟩ := list
    exact ⟨⟨n, found⟩, same⟩
  · rintro ⟨⟨n, found⟩, rfl⟩
    exact forest.childList found

theorem name (forest : Forest s kids) (alive : s.Live a) : ∃ text, s.nameOf a = some text := by
  obtain ⟨n, found⟩ := alive
  obtain ⟨text, named⟩ := (forest.sound a n found).named
  exact ⟨text, by simp only [Vfs.nameOf, found, Option.bind_some, named]⟩

/-- Only the heap decides whether there is a forest. -/
theorem of_heap (forest : Forest s kids) (same : s'.heap = s.heap) : Forest s' kids := by
  have links : s'.nextOf = s.nextOf := by
    funext a
    simp only [Vfs.nextOf, same]
  exact ⟨fun d n found => links ▸ forest.chain d n (same ▸ found),
    fun d gone => forest.dead d (same ▸ gone),
    fun d c n member found => forest.parent d c n member (same ▸ found),
    fun a n found => forest.sound a n (same ▸ found),
    fun a n found => forest.leaf a n (same ▸ found)⟩

/-- A forest stays one when a single list is respelled. -/
theorem relink (forest : Forest s kids) (same : SameCore s s') (host : s'.heap d = some p)
    (chain : Chain s'.nextOf p.children l)
    (parents : ∀ c ∈ l, ∀ n, s'.heap c = some n → n.parent = some d)
    (folder : p.type ≠ .folder → l = [])
    (others : ∀ e n m, e ≠ d → s'.heap e = some n → s.heap e = some m → n.children = m.children)
    (links : ∀ e, e ≠ d → ∀ c ∈ kids e, s'.nextOf c = s.nextOf c) :
    Forest s' (Function.update kids d l) := by
  constructor
  · intro e n found
    by_cases self : e = d
    · subst self
      cases Option.some.inj (found.symm.trans host)
      simpa only [Function.update_self] using chain
    · obtain ⟨m, old, _⟩ := same.backward found
      rw [Function.update_of_ne self, others e n m self found old]
      exact (forest.chain e m old).congr (links e self)
  · intro e gone
    have notHost : e ≠ d := by
      rintro rfl
      simp [host] at gone
    rw [Function.update_of_ne notHost]
    exact forest.dead e (same.dead_iff.mp gone)
  · intro e c n member found
    by_cases self : e = d
    · subst self
      rw [Function.update_self] at member
      exact parents c member n found
    · rw [Function.update_of_ne self] at member
      obtain ⟨m, old, core⟩ := same.backward found
      exact (Node.core_parent core).trans (forest.parent e c m member old)
  · intro e n found
    obtain ⟨m, old, core⟩ := same.backward found
    exact (forest.sound e m old).of_core core
  · intro e n found notFolder
    by_cases self : e = d
    · subst self
      cases Option.some.inj (found.symm.trans host)
      simpa only [Function.update_self] using folder notFolder
    · obtain ⟨m, old, core⟩ := same.backward found
      rw [Function.update_of_ne self]
      exact forest.leaf e m old (Node.core_type core ▸ notFolder)

end Forest
end Laomb.VFS
