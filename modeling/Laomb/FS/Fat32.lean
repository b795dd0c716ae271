import Mathlib.Logic.Function.Basic
import Mathlib.Data.List.FinRange
import Laomb.FS.Mbr

/-! `fat32.c` up to reading from opened files. Device reads go through a reader, in
place of `mbr_read_sector` on the partition that every call gets. -/
namespace Laomb.FS
open Word

/-- Sixteen and thirty-two bits from byte `i` on, the lowest byte first. -/
def le16 (content : Content) (i : Nat) : Nat := (content i).toNat + (content (i + 1)).toNat * 2 ^ 8

def le32 (content : Content) (i : Nat) : Nat := le16 content i + le16 content (i + 2) * 2 ^ 16

/-- The bytes of an array; no index leaves it. -/
def bytesOf {n : Nat} (v : Vector Byte n) : Content := fun i => v[i]?.getD 0

/-- The fields of `fat_boot_sector_t` that are read. -/
structure BootSector where
  sectorsPerCluster : Nat
  reservedSectors : Nat
  fatCount : Nat
  dirEntryCount : Nat
  totalSectors : Nat
  sectorsPerFat : Nat
  fat32SectorsPerFat : Nat
  rootDirectoryCluster : Nat
deriving DecidableEq, Repr

def bootSector (content : Content) : BootSector where
  sectorsPerCluster := (content 13).toNat
  reservedSectors := le16 content 14
  fatCount := (content 16).toNat
  dirEntryCount := le16 content 17
  totalSectors := le16 content 19
  sectorsPerFat := le16 content 22
  fat32SectorsPerFat := le32 content 36
  rootDirectoryCluster := le32 content 44

/-- `fat_directory_t`, with the fields that opening reads. -/
structure Directory where
  attributes : Byte
  firstClusterHigh : BitVec 16
  firstClusterLow : BitVec 16
  size : BitVec 32
deriving DecidableEq, Repr

/-- `ROOT_DIRECTORY_HANDLE` or the index of a slot of `opened_files`. -/
inductive Handle where
  | root
  | opened (i : Fin 10)
deriving DecidableEq, Repr

/-- `fat_file_data_t`, with the `fat_file_t` in it. -/
structure FileData where
  buffer : Vector Byte (1 * 512)
  handle : Handle
  isDirectory : Bool
  position : Nat
  size : Nat
  opened : Bool
  firstCluster : Nat
  currentCluster : Nat
  sectorInCluster : Nat

/-- What stays as `fat_init` has read it: the boot sector and the statics. -/
structure Layout where
  boot : BootSector
  dataSectionLba : Nat
  sectorsPerFat : Nat
deriving DecidableEq, Repr

/-- `FAT_Data`, with the statics. -/
structure FatData extends Layout where
  rootDirectory : FileData
  openedFiles : Fin 10 → FileData
  fatCashe : Vector Byte (5 * 512)
  fatCashePosition : Nat

namespace FatData

def clusterToLba (g : FatData) (cluster : Nat) : Nat :=
  u32 (g.dataSectionLba + u32 (sub32 cluster 2 * g.boot.sectorsPerCluster))

/-- `read_fat`; a failure leaves the cache as it was, and nobody looks at the result. -/
def readFat (read : Reader) (g : FatData) (lbaIndex : Nat) : FatData :=
  match read (u32 (g.boot.reservedSectors + lbaIndex)) 5 with
  | none => g
  | some sectors => { g with fatCashe := sectors }

def file (g : FatData) : Handle → FileData
  | .root => g.rootDirectory
  | .opened i => g.openedFiles i

def setFile (g : FatData) (fd : FileData) : Handle → FatData
  | .root => { g with rootDirectory := fd }
  | .opened i => { g with openedFiles := Function.update g.openedFiles i fd }

end FatData

/-- A slot as `memset` leaves it. -/
def FileData.zero : FileData where
  buffer := Vector.replicate _ 0
  handle := .opened 0
  isDirectory := false
  position := 0
  size := 0
  opened := false
  firstCluster := 0
  currentCluster := 0
  sectorInCluster := 0

/-- What `fat_init` sets up from the boot sector, the root directory still empty. -/
def FatData.ofBoot (boot : BootSector) : FatData where
  boot
  dataSectionLba := u32 (boot.reservedSectors + u32 (boot.fat32SectorsPerFat * boot.fatCount))
  sectorsPerFat := boot.fat32SectorsPerFat
  rootDirectory := .zero
  openedFiles := fun _ => .zero
  fatCashe := Vector.replicate _ 0
  fatCashePosition := 0xFFFFFFFF

/-- `fat_init`, once `g_data` is allocated. -/
def fatInit (read : Reader) : Option FatData := do
  let bytes ← read 0 1
  let boot := bootSector (bytesOf bytes)
  if boot.totalSectors ≠ 0 ∨ boot.sectorsPerFat ≠ 0 then none
  else
    let g := FatData.ofBoot boot
    let rootDirLba := g.clusterToLba boot.rootDirectoryCluster
    let buffer ← read rootDirLba 1
    some { g with rootDirectory := {
      buffer
      handle := .root
      isDirectory := true
      position := 0
      size := 32 * boot.dirEntryCount
      opened := true
      firstCluster := rootDirLba
      currentCluster := rootDirLba
      sectorInCluster := 0 } }

/-- The root directory after `fat_init`. -/
def FileData.ofRoot (g : FatData) (buffer : Vector Byte (1 * 512)) : FileData where
  buffer
  handle := .root
  isDirectory := true
  position := 0
  size := 32 * g.boot.dirEntryCount
  opened := true
  firstCluster := g.clusterToLba g.boot.rootDirectoryCluster
  currentCluster := g.clusterToLba g.boot.rootDirectoryCluster
  sectorInCluster := 0

/-- It reads the boot sector and the first sector of the root directory. -/
theorem fatInit_eq {read : Reader} {g : FatData} (initialised : fatInit read = some g) : ∃ bytes buffer,
    read 0 1 = some bytes ∧
    read ((FatData.ofBoot (bootSector (bytesOf bytes))).clusterToLba
      (bootSector (bytesOf bytes)).rootDirectoryCluster) 1 = some buffer ∧
    g = { FatData.ofBoot (bootSector (bytesOf bytes)) with
      rootDirectory := .ofRoot (FatData.ofBoot (bootSector (bytesOf bytes))) buffer } := by
  obtain ⟨bytes, first, initialised⟩ := Option.bind_eq_some_iff.mp initialised
  dsimp only at initialised
  split at initialised
  · cases initialised
  · obtain ⟨buffer, loaded, done⟩ := Option.bind_eq_some_iff.mp initialised
    cases done
    exact ⟨bytes, buffer, first, loaded, rfl⟩

def Directory.isDirectory (entry : Directory) : Bool := entry.attributes &&& 0x10 != 0

def Directory.firstCluster (entry : Directory) : Nat :=
  u32 (entry.firstClusterLow.toNat + entry.firstClusterHigh.toNat * 2 ^ 16)

namespace FatData

/-- `fat_open_entry`, which returns the handle or null. -/
def fatOpenEntry (read : Reader) (g : FatData) (entry : Directory) : FatData × Option (Fin 10) :=
  match (List.finRange 10).find? fun i => !(g.openedFiles i).opened with
  | none => (g, none)
  | some i =>
    let fd := { g.openedFiles i with
      handle := .opened i
      isDirectory := entry.isDirectory
      position := 0
      size := entry.size.toNat
      firstCluster := entry.firstCluster
      currentCluster := entry.firstCluster
      sectorInCluster := 0 }
    match read (g.clusterToLba fd.currentCluster) 1 with
    | none => (g.setFile fd (.opened i), none)
    | some buffer => (g.setFile { fd with buffer, opened := true } (.opened i), some i)

def fatNextCluster (read : Reader) (g : FatData) (currentCluster : Nat) : FatData × Nat :=
  let fatIndex := u32 (currentCluster * 4)
  let fatIndexSector := fatIndex / 512
  let g :=
    if fatIndexSector < g.fatCashePosition ∨ u32 (g.fatCashePosition + 5) ≤ fatIndexSector then
      { g.readFat read fatIndexSector with fatCashePosition := fatIndexSector }
    else g
  (g, le32 (bytesOf g.fatCashe) (sub32 fatIndex (u32 (g.fatCashePosition * 512))))

/-- The end of a chain is looked for, and the sector of the cluster is read. -/
def loadSector (read : Reader) (g : FatData) (h : Handle) (fd : FileData) : FatData × Bool :=
  if 0xFFFFFFF8 ≤ fd.currentCluster then (g.setFile { fd with size := fd.position } h, false)
  else
    match read (u32 (g.clusterToLba fd.currentCluster + fd.sectorInCluster)) 1 with
    | none => (g.setFile fd h, false)
    | some buffer => (g.setFile { fd with buffer } h, true)

/-- What `fat_read` does when the buffer has been used up, and whether it goes on. -/
def nextSector (read : Reader) (g : FatData) (h : Handle) : FatData × Bool :=
  let fd := g.file h
  match fd.handle with
  | .root =>
    let fd := { fd with currentCluster := u32 (fd.currentCluster + 1) }
    match read fd.currentCluster 1 with
    | none => (g.setFile fd h, false)
    | some buffer => (g.setFile { fd with buffer } h, true)
  | .opened _ =>
    let sector := u32 (fd.sectorInCluster + 1)
    if g.boot.sectorsPerCluster ≤ sector then
      let (g, next) := g.fatNextCluster read fd.currentCluster
      g.loadSector read h { fd with sectorInCluster := 0, currentCluster := next }
    else g.loadSector read h { fd with sectorInCluster := sector }

/-- The position moves by `take`, and past the buffer if that uses it up. -/
def advance (read : Reader) (g : FatData) (h : Handle) (take : Nat) : FatData × Bool :=
  let fd := g.file h
  let leftInBuffer := 512 - fd.position % 512
  let g := g.setFile { fd with position := u32 (fd.position + take) } h
  if leftInBuffer = take then g.nextSector read h else (g, true)

/-- The loop of `fat_read`: what it copies out, and by how much `u8DataOut` has moved. -/
def readLoop (read : Reader) (h : Handle) : (fuel : Nat) → (g : FatData) → (byteCount : Nat) →
    FatData × List Byte × Nat
  | 0, g, _ => (g, [], 0)
  | fuel + 1, g, byteCount =>
    if byteCount = 0 then (g, [], 0)
    else
      let fd := g.file h
      let take := min byteCount (512 - fd.position % 512)
      let copied := (fd.buffer.toList.drop (fd.position % 512)).take take
      let (g, goesOn) := g.advance read h take
      if goesOn then
        let (g, rest, moved) := readLoop read h fuel g (byteCount - take)
        (g, copied ++ rest, take + moved)
      else (g, copied, take)

/-- `fat_read`: the bytes written to `dataOut` and the number returned. Every pass
takes a byte at least, so that `byteCount` passes are enough. -/
def fatRead (read : Reader) (g : FatData) (h : Handle) (byteCount : Nat) : FatData × List Byte × Nat :=
  let fd := g.file h
  let byteCount :=
    if !fd.isDirectory || fd.isDirectory && fd.size != 0 then min byteCount (sub32 fd.size fd.position)
    else byteCount
  readLoop read h byteCount g byteCount

end FatData
end Laomb.FS
