import Mathlib.Data.Vector.Basic
import Laomb.Base.Word

/-! Sectors of a disk and `mbr_read_sector`, which reads those of a partition. -/
namespace Laomb.FS
open Word

abbrev Byte := BitVec 8

/-- The bytes that a disk holds, or a partition of one, counted from its first sector. -/
abbrev Content := Nat → Byte

/-- `count` sectors from sector `n`. -/
def sectors (content : Content) (n count : Nat) : Vector Byte (count * 512) :=
  Vector.ofFn fun i => content (n * 512 + i)

/-- `partition_t`. -/
structure Partition where
  lbaOffset : Nat
  partSize : Nat
deriving DecidableEq, Repr

/-- The sectors that the drive transfers; the command has room for 28 bits of the address. -/
def ataReadSectorsPio (disk : Content) (lba sectorCount : Nat) : Vector Byte (sectorCount * 512) :=
  sectors disk (lba % 2 ^ 28) sectorCount

def mbrReadSector (disk : Content) (part : Partition) (lba count : Nat) :
    Option (Vector Byte (count * 512)) :=
  if part.partSize ≤ u32 (lba + part.lbaOffset) then none
  else some (ataReadSectorsPio disk (u32 (lba + part.lbaOffset)) count)

/-- Reads of sectors that may fail, as `mbr_read_sector` does for one partition. -/
abbrev Reader := (lba count : Nat) → Option (Vector Byte (count * 512))

/-- The bytes of a partition. -/
def Partition.content (part : Partition) (disk : Content) : Content :=
  fun i => disk (part.lbaOffset * 512 + i)

/-- The read of `count` sectors from sector `n` succeeds. -/
def Reads (read : Reader) (content : Content) (n count : Nat) : Prop :=
  n < 2 ^ 32 ∧ read n count = some (sectors content n count)

theorem mbrReadSector_reads {disk : Content} {part : Partition} {n : Nat}
    (inside : n + part.lbaOffset < part.partSize)
    (addressable : n + part.lbaOffset < 2 ^ 28) (count : Nat) :
    Reads (mbrReadSector disk part) (part.content disk) n count := by
  have exact : u32 (n + part.lbaOffset) = n + part.lbaOffset := u32_of_lt (by omega)
  refine ⟨by omega, ?_⟩
  rw [mbrReadSector, exact, if_neg (by omega), ataReadSectorsPio, Nat.mod_eq_of_lt addressable,
    sectors, sectors]
  refine congrArg some (congrArg Vector.ofFn (funext fun i => ?_))
  rw [Partition.content, Nat.add_mul, Nat.add_comm (n * 512), Nat.add_assoc]

end Laomb.FS
