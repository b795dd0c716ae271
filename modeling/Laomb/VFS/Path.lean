import Laomb.VFS.Tree

/-! Paths: the tokenizer, the path walker with its mount redirection, and the
calls built on it. -/
namespace Laomb.VFS

/-- `strtok(str, "/")` by value: the token, and the text its static pointer is
left at. A null `str` continues from that text. -/
def strtok (str : Option CString) : Option CString × Option CString :=
  match str with
  | none => (none, none)
  | some text =>
    let text := text.dropWhile (· = '/')
    if text = [] then (none, none)
    else
      let token := text.takeWhile (· ≠ '/')
      match text.dropWhile (· ≠ '/') with
      | [] => (some token, none)
      | _ :: last => (some token, some last)

/-- `strrchr(path, '/') - path`, or none for a null result. -/
def lastSlash (path : CString) : Option Nat :=
  if '/' ∈ path then some (path.length - 1 - path.reverse.idxOf '/') else none

namespace Vfs

/-- The walk over `g_mounts`: the newest entry for this mount point decides. -/
def redirect (s : Vfs) (current : Addr) : Addr :=
  match s.mounts.find? (fun mount => mount.mountPoint = current) with
  | none => current
  | some mount => mount.mountedRoot

/-- The token loop of `vfs_traverse_path`; `last` is where `strtok` goes on. -/
def traverseLoop (s : Vfs) : (fuel : Nat) → (current : Addr) → (token last : Option CString) → Result Ptr
  | _, current, none, _ => pure (some current)
  | 0, _, some _, _ => .error .diverges
  | fuel + 1, current, some token, last => do
    match ← s.vfsSearchNode (s.redirect current) token with
    | none => pure none
    | some current =>
      let (token, last) := strtok last
      traverseLoop s fuel current token last

def vfsTraversePath (s : Vfs) (path : CString) : Result Ptr :=
  if path = [] then pure none
  else
    match s.root with
    | none => .error .nullDeref
    | some root =>
      let (token, last) := strtok (some path)
      s.traverseLoop path.length root token last

/-- `open`. -/
def openPath (s : Vfs) (path : CString) : Result Ptr := s.vfsTraversePath path

/-- `remove`, on a handle. -/
def remove (s : Vfs) (handle : Ptr) : Result (Err × Vfs) :=
  match handle with
  | none => pure (.notFound, s)
  | some node => do
    let n ← s.load node
    match n.parent with
    | none => pure (.notFound, s)
    | some parent =>
      let p ← s.load parent
      match p.ops with
      | none => .error .nullDeref
      | some .ramfs => s.ramfsRemove parent node

/-- `remove_p` makes the same checks and the same call on the node it finds. -/
def removeP (s : Vfs) (path : CString) : Result (Err × Vfs) := do
  s.remove (← s.vfsTraversePath path)

/-- `char parent_path[256]` with the copy into it. -/
def parentPath (path : CString) (parentLen : Nat) : Result CString :=
  if parentLen = 0 then pure ['/']
  else if parentLen < 256 then pure (path.take parentLen)
  else .error .outOfBounds

/-- `create`, with the address `kmalloc` returns for the new node. -/
def create (s : Vfs) (path : CString) (type : NodeType) (fresh : Addr) : Result (Err × Vfs) :=
  match lastSlash path with
  | none => pure (.error, s)
  | some name => do
    let parentPath ← parentPath path name
    match ← s.vfsTraversePath parentPath with
    | none => pure (.notFound, s)
    | some parent =>
      let p ← s.load parent
      match p.ops with
      | none => .error .nullDeref
      | some .ramfs =>
        let (err, _, s) ← s.ramfsCreate parent (path.drop (name + 1)) type fresh
        pure (err, s)

end Vfs
end Laomb.VFS
