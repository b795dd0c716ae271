import Laomb.VFS.Node

/-! The sibling lists of `vfs.c` and the ramfs operations over them. Each loop
of the source is a recursion with fuel; `limit` is more than any list of
distinct nodes needs. -/
namespace Laomb.VFS
namespace Vfs

/-- `vfs_initialize` without the tree record: a new root node at `fresh`. -/
def rootNode : Node :=
  { type := .folder, name := some ['/'], size := 0, parent := none, children := none, next := none,
    ops := some .ramfs, data := none }

def vfsInitialize (s : Vfs) (fresh : Addr) : Vfs := s.store fresh rootNode

/-- `g_Vfs = vfs_initialize()` on an empty heap. -/
def boot (root : Addr) : Vfs :=
  { vfsInitialize ⟨fun _ => none, none, [], []⟩ root with root := some root }

/-- `while (sibling->next) sibling = sibling->next;`. -/
def lastSibling (s : Vfs) : (fuel : Nat) → (sibling : Addr) → Result Addr
  | 0, _ => .error .diverges
  | fuel + 1, sibling => do
    let n ← s.load sibling
    match n.next with
    | none => pure sibling
    | some next => lastSibling s fuel next

/-- The body of `vfs_insert_node`, which `vfs_mount` repeats. -/
def vfsInsertNode (s : Vfs) (parent node : Addr) : Result Vfs := do
  let p ← s.load parent
  match p.children with
  | none => pure (s.store parent { p with children := some node })
  | some first =>
    let sibling ← s.lastSibling limit first
    let n ← s.load sibling
    pure (s.store sibling { n with next := some node })

/-- `while (prev && prev->next != node) prev = prev->next;`. -/
def findPrev (s : Vfs) (node : Addr) : (fuel : Nat) → (prev : Ptr) → Result Ptr
  | 0, _ => .error .diverges
  | _ + 1, none => pure none
  | fuel + 1, some prev => do
    let n ← s.load prev
    if n.next = some node then pure (some prev) else findPrev s node fuel n.next

/-- Take `node` out of the list of `parent`: the first half of
`vfs_remove_node`, which `vfs_unmount` repeats. -/
def unlink (s : Vfs) (parent node : Addr) : Result Vfs := do
  let p ← s.load parent
  if p.children = some node then
    let n ← s.load node
    pure (s.store parent { p with children := n.next })
  else
    match ← s.findPrev node limit p.children with
    | none => pure s
    | some prev =>
      let n ← s.load node
      let q ← s.load prev
      pure (s.store prev { q with next := n.next })

mutual

/-- `vfs_remove_node`. The record is cleared before `node->name` is passed to
`kfree`, so the name string is not freed. -/
def vfsRemoveNode (s : Vfs) (parent node : Addr) : (fuel : Nat) → Result Vfs
  | 0 => .error .diverges
  | fuel + 1 => do
    let s ← s.unlink parent node
    let n ← s.load node
    let s ← removeChildren s node n.children fuel
    let n ← s.load node
    let cleared := n.clear
    let s := (s.store node cleared).kfreeName node cleared
    pure (s.kfreeNode node)

/-- `while (child) { next_child = child->next; vfs_remove_node(node, child); child = next_child; }`. -/
def removeChildren (s : Vfs) (node : Addr) (child : Ptr) : (fuel : Nat) → Result Vfs
  | 0 => .error .diverges
  | fuel + 1 =>
    match child with
    | none => pure s
    | some child => do
      let c ← s.load child
      let s ← vfsRemoveNode s node child fuel
      removeChildren s node c.next fuel

end

/-- The loop of `vfs_search_node`; `strcmp` reads through the node's name. -/
def searchFrom (s : Vfs) (name : CString) : (fuel : Nat) → (current : Ptr) → Result Ptr
  | 0, _ => .error .diverges
  | _ + 1, none => pure none
  | fuel + 1, some current => do
    let n ← s.load current
    match n.name with
    | none => .error .nullDeref
    | some text => if text = name then pure (some current) else searchFrom s name fuel n.next

def vfsSearchNode (s : Vfs) (parent : Addr) (name : CString) : Result Ptr := do
  let p ← s.load parent
  s.searchFrom name limit p.children

/-- The record `vfs_create_node` fills in for a file or a folder. -/
def newNode (name : CString) (type : NodeType) (parent : Addr) : Node :=
  { type, name := some name, size := 0, parent := some parent, children := none, next := none,
    ops := some .ramfs, data := none }

/-- `vfs_create_node`, with the address `kmalloc` returns. Types other than
file and folder give a null pointer. -/
def vfsCreateNode (s : Vfs) (name : CString) (type : NodeType) (parent fresh : Addr) :
    Result (Ptr × Vfs) :=
  if type = .other then pure (none, s)
  else do
    let s ← (s.store fresh (newNode name type parent)).vfsInsertNode parent fresh
    pure (some fresh, s)

/-- `ramfs_create`: the new node's `data` is written without a null check. -/
def ramfsCreate (s : Vfs) (parent : Addr) (name : CString) (type : NodeType) (fresh : Addr) :
    Result (Err × Ptr × Vfs) := do
  let p ← s.load parent
  if p.type ≠ .folder then pure (.notPermitted, none, s)
  else
    let (newNode, s) ← s.vfsCreateNode name type parent fresh
    match newNode with
    | none => .error .nullDeref
    | some node =>
      let n ← s.load node
      pure (.success, some node, s.store node { n with data := none })

/-- `ramfs_remove`. It reads `data` behind the record it has just freed; the
memory still holds the old value, and the log keeps the read. -/
def ramfsRemove (s : Vfs) (parent node : Addr) : Result (Err × Vfs) := do
  let p ← s.load parent
  if p.type ≠ .folder then pure (.notPermitted, s)
  else
    let n ← s.load node
    let s ← s.vfsRemoveNode parent node limit
    let log := .readFreed node :: s.log
    match n.data with
    | none => pure (.success, { s with log := log })
    | some _ => pure (.success, { s with log := .kfreeData node :: log })

end Vfs
end Laomb.VFS
