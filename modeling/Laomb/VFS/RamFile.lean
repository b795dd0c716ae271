import Laomb.Base.Word
import Laomb.VFS.Path

/-! Reading and writing ramfs files. The data buffer is the list of its
allocated bytes; `junk` gives the bytes that fresh memory happens to hold. -/
namespace Laomb.VFS
open Word

/-- `krealloc` to `length` bytes; from the empty list, `kmalloc`. -/
def resize (bytes : List Byte) (length : Nat) (junk : Nat → Byte) : List Byte :=
  (List.range length).map fun i => bytes.getD i (junk i)

/-- `memset` to zero of the bytes from `start` up to `stop`. -/
def zeroFill (bytes : List Byte) (start stop : Nat) : List Byte :=
  bytes.mapIdx fun i b => if start ≤ i ∧ i < stop then 0 else b

/-- `memcpy` of `source` to offset `start`. -/
def overwrite (bytes : List Byte) (start : Nat) (source : List Byte) : List Byte :=
  bytes.mapIdx fun i b => if start ≤ i then source.getD (i - start) b else b

namespace Vfs

def ramfsRead (s : Vfs) (node : Addr) (offset size : Nat) : Result (Err × List Byte) := do
  let n ← s.load node
  if n.type ≠ .file then pure (.error, [])
  else
    let bytes := n.data.getD []
    if size = 0 ∨ offset + size ≤ bytes.length then pure (.success, (bytes.drop offset).take size)
    else .error .outOfBounds

/-- The first part of `ramfs_write`, which makes room or clears what lies behind the write. -/
def makeRoom (n : Node) (offset size : Nat) (junk : Nat → Byte) : Result Node :=
  match n.data with
  | none => pure { n with data := some (resize [] size junk), size := size }
  | some bytes =>
    let stop := u32 (offset + size)
    if n.size < stop then pure { n with data := some (resize bytes stop junk), size := stop }
    else if stop < n.size then
      if n.size ≤ bytes.length then pure { n with data := some (zeroFill bytes stop n.size) }
      else .error .outOfBounds
    else pure n

def ramfsWrite (s : Vfs) (node : Addr) (offset size : Nat) (buffer : List Byte) (junk : Nat → Byte) :
    Result (Err × Vfs) := do
  let n ← s.load node
  if n.type ≠ .file then pure (.error, s)
  else
    let n ← makeRoom n offset size junk
    let bytes := n.data.getD []
    if size = 0 ∨ offset + size ≤ bytes.length then
      pure (.success, s.store node { n with data := some (overwrite bytes offset (buffer.take size)) })
    else .error .outOfBounds

/-- `vfs_read`. -/
def vfsRead (s : Vfs) (file : Addr) (offset size : Nat) : Result (Err × List Byte) := do
  let n ← s.load file
  match n.ops with
  | none => pure (.notPermitted, [])
  | some .ramfs => s.ramfsRead file offset size

/-- `write`, on a non-null handle. -/
def write (s : Vfs) (handle : Addr) (offset size : Nat) (buffer : List Byte) (junk : Nat → Byte) :
    Result (Err × Vfs) := do
  let n ← s.load handle
  match n.ops with
  | none => pure (.error, s)
  | some .ramfs => s.ramfsWrite handle offset size buffer junk

end Vfs
end Laomb.VFS
