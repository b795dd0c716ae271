import Mathlib.Algebra.GroupWithZero.Nat
import Mathlib.Logic.Function.Basic
import Mathlib.Data.Fintype.Card

/-! The node graph of `vfs.c`: `struct vfs_ramfs_node` records in a heap, the
mount table and the root that `g_Vfs` points to. Reading a record that is not
allocated is a fault instead of a value. -/
namespace Laomb.VFS

/-- The characters of a C string before its terminator. -/
abbrev CString := List Char

abbrev Byte := BitVec 8

abbrev Addr := Fin (2 ^ 32)

instance addrs_neZero : NeZero (2 ^ 32) := ⟨by decide⟩

/-- A node pointer; `none` is `nullptr`. -/
abbrev Ptr := Option Addr

inductive Fault where
  | nullDeref
  | useAfterFree
  | outOfBounds
  | diverges
deriving DecidableEq, Repr

abbrev Result (α : Type) := Except Fault α

theorem ok_of_toOption {α : Type} {x : Result α} {v : α} (done : x.toOption = some v) : x = .ok v := by
  cases x with
  | error fault => cases done
  | ok u => rw [Option.some.inj done]

theorem bind_ok {α β : Type} {x : Result α} {f : α → Result β} {v : β} (run : x >>= f = .ok v) :
    ∃ u, x = .ok u ∧ f u = .ok v := by
  cases x with
  | error fault => cases run
  | ok u => exact ⟨u, rfl, run⟩

/-- `vfs_err_t`. -/
inductive Err where
  | success
  | error
  | notFound
  | notPermitted
deriving DecidableEq, Repr

/-- `vfs_node_type_t`: `VFS_RAMFS_FILE` is 1, `VFS_RAMFS_FOLDER` is 2, and no
code tells the other values apart. -/
inductive NodeType where
  | file
  | folder
  | other
deriving DecidableEq, Repr

/-- The four operation pointers of a node; ramfs is the only implementation. -/
inductive Driver where
  | ramfs
deriving DecidableEq, Repr

/-- `struct vfs_node` with the `data` of `struct vfs_ramfs_node` behind it. -/
structure Node where
  type : NodeType
  name : Option CString
  size : Nat
  parent : Ptr
  children : Ptr
  next : Ptr
  ops : Option Driver
  data : Option (List Byte)
deriving DecidableEq, Repr

/-- `memset(node, 0, sizeof(struct vfs_node))`: `data` lies behind the cleared part. -/
def Node.clear (n : Node) : Node :=
  { n with type := .other, name := none, size := 0, parent := none, children := none, next := none,
           ops := none }

/-- `struct vfs_mount` without its link. -/
structure Mount where
  mountPoint : Addr
  mountedRoot : Addr
deriving DecidableEq, Repr

/-- What removal does to the kernel heap, for the ghost log. -/
inductive Event where
  | kfreeNode (a : Addr)
  | kfreeName (a : Addr)
  | kfreeData (a : Addr)
  | readFreed (a : Addr)
deriving DecidableEq, Repr

/-- The heap of nodes with `g_Vfs->root` and `g_mounts`, newest mount first.
`log` is a ghost record of heap events, newest first. -/
structure Vfs where
  heap : Addr → Option Node
  root : Ptr
  mounts : List Mount
  log : List Event

namespace Vfs

def load (s : Vfs) (a : Addr) : Result Node :=
  match s.heap a with
  | none => .error .useAfterFree
  | some n => .ok n

def store (s : Vfs) (a : Addr) (n : Node) : Vfs := { s with heap := Function.update s.heap a (some n) }

/-- `kfree(node)`. -/
def kfreeNode (s : Vfs) (a : Addr) : Vfs :=
  { s with heap := Function.update s.heap a none, log := .kfreeNode a :: s.log }

/-- `kfree(node->name)`: freeing a null pointer does nothing. -/
def kfreeName (s : Vfs) (a : Addr) (n : Node) : Vfs :=
  match n.name with
  | none => s
  | some _ => { s with log := .kfreeName a :: s.log }

def Live (s : Vfs) (a : Addr) : Prop := ∃ n, s.heap a = some n

/-- What `kmalloc` may return for a new node. -/
def Fresh (s : Vfs) (a : Addr) : Prop := s.heap a = none

instance (s : Vfs) (a : Addr) : Decidable (s.Fresh a) := inferInstanceAs (Decidable (_ = _))

theorem load_eq {s : Vfs} {a : Addr} {n : Node} (found : s.heap a = some n) : s.load a = .ok n := by
  simp only [load, found]

theorem load_ok {s : Vfs} {a : Addr} {n : Node} : s.load a = .ok n ↔ s.heap a = some n := by
  unfold load
  cases s.heap a <;> simp

theorem Live.ne_fresh {s : Vfs} {a b : Addr} (alive : s.Live a) (free : s.Fresh b) : a ≠ b := by
  rintro rfl
  obtain ⟨n, found⟩ := alive
  cases found.symm.trans free

theorem load_dead {s : Vfs} {a : Addr} (dead : s.heap a = none) : s.load a = .error .useAfterFree := by
  simp only [load, dead]

@[simp] theorem store_heap (s : Vfs) (a : Addr) (n : Node) :
    (s.store a n).heap = Function.update s.heap a (some n) := rfl
@[simp] theorem kfreeNode_heap (s : Vfs) (a : Addr) :
    (s.kfreeNode a).heap = Function.update s.heap a none := rfl
theorem kfreeName_clear (s : Vfs) (a : Addr) (n : Node) : s.kfreeName a n.clear = s := rfl

end Vfs

/-- A loop over next pointers that is still going after this many steps has
come back to a node: there are only `2 ^ 32` addresses. -/
def limit : Nat := 2 ^ 34

theorem length_le_addresses {l : List Addr} (distinct : l.Nodup) : l.length ≤ 2 ^ 32 := by
  simpa only [Fintype.card_fin] using distinct.length_le_card

end Laomb.VFS
