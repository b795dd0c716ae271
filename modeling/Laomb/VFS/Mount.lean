import Laomb.VFS.Path

/-! `vfs_mount` and `vfs_unmount`. Both also splice the mounted root into, or
out of, the host folder's list. -/
namespace Laomb.VFS
namespace Vfs

/-- `g_mounts = mounts`. -/
def setMounts (s : Vfs) (mounts : List Mount) : Vfs := { s with mounts := mounts }

def vfsMount (s : Vfs) (targetPath : Option CString) (filesystemRoot : Ptr) : Result (Err × Vfs) :=
  match s.root, targetPath, filesystemRoot with
  | some _, some path, some fsRoot => do
    match ← s.vfsTraversePath path with
    | none => pure (.notFound, s)
    | some mountPoint =>
      let m ← s.load mountPoint
      if m.type ≠ .folder then pure (.notPermitted, s)
      else
        let s := s.setMounts (⟨mountPoint, fsRoot⟩ :: s.mounts)
        let r ← s.load fsRoot
        let s ← (s.store fsRoot { r with parent := some mountPoint }).vfsInsertNode mountPoint fsRoot
        pure (.success, s)
  | _, _, _ => pure (.error, s)

/-- The search of `vfs_unmount`: the first entry for the mount point, and the
table without it. -/
def takeMount (mountPoint : Addr) : List Mount → Option (Mount × List Mount)
  | [] => none
  | mount :: rest =>
    if mount.mountPoint = mountPoint then some (mount, rest)
    else (takeMount mountPoint rest).map fun found => (found.1, mount :: found.2)

def vfsUnmount (s : Vfs) (targetPath : Option CString) : Result (Err × Vfs) :=
  match s.root, targetPath with
  | some _, some path => do
    match ← s.vfsTraversePath path with
    | none => pure (.notFound, s)
    | some mountPoint =>
      match takeMount mountPoint s.mounts with
      | none => pure (.notFound, s)
      | some (mount, rest) =>
        let s ← (s.setMounts rest).unlink mountPoint mount.mountedRoot
        pure (.success, s)
  | _, _ => pure (.error, s)

end Vfs
end Laomb.VFS
