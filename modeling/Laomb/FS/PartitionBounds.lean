import Laomb.FS.Fat32

/-! Which sectors of the drive a partition's reads and writes reach. `mbr.c` compares
the absolute sector with the partition's size, where the relative one and the sector
count belong, and a command carries 28 bits of the address. -/
namespace Laomb.FS
open Word

/-- What `ata.c` writes to the drive's registers for one command. -/
structure AtaCommand where
  hddevsel : Nat
  seccount0 : Nat
  lba0 : Nat
  lba1 : Nat
  lba2 : Nat
  command : Nat
deriving DecidableEq, Repr

def ataCommand (command lba sectorCount : Nat) : AtaCommand where
  hddevsel := 0xE0 ||| (lba >>> 24 &&& 0xF)
  seccount0 := sectorCount
  lba0 := lba % 2 ^ 8
  lba1 := (lba >>> 8) % 2 ^ 8
  lba2 := (lba >>> 16) % 2 ^ 8
  command

namespace AtaCommand

/-- The sector that the registers name. -/
def address (c : AtaCommand) : Nat :=
  c.hddevsel % 2 ^ 4 * 2 ^ 24 + c.lba2 * 2 ^ 16 + c.lba1 * 2 ^ 8 + c.lba0

/-- The sectors that the command transfers. -/
def accessed (c : AtaCommand) : List Nat := (List.range c.seccount0).map (c.address + ·)

end AtaCommand

@[simp] theorem ataCommand_address (command lba sectorCount : Nat) :
    (ataCommand command lba sectorCount).address = lba % 2 ^ 28 := by
  have nibble : (0xE0 ||| (lba >>> 24 &&& 0xF)) % 2 ^ 4 = lba / 2 ^ 24 % 2 ^ 4 := by
    rw [Nat.or_mod_two_pow, Nat.and_two_pow_sub_one_eq_mod _ 4, Nat.mod_mod, Nat.shiftRight_eq_div_pow]
    exact Nat.zero_or _
  simp only [AtaCommand.address, ataCommand, nibble]
  simp only [Nat.shiftRight_eq_div_pow]
  omega

/-- The command that a request for sectors of a partition sends; `none` where it
returns `false` before any. -/
def mbrCommand (command : Nat) (part : Partition) (lba count : Nat) : Option AtaCommand :=
  if part.partSize ≤ u32 (lba + part.lbaOffset) then none
  else some (ataCommand command (u32 (lba + part.lbaOffset)) count)

/-- `mbr_read_sector`. -/
def mbrReadCommand : Partition → Nat → Nat → Option AtaCommand := mbrCommand 0x20

/-- `mbr_write_sector`. -/
def mbrWriteCommand : Partition → Nat → Nat → Option AtaCommand := mbrCommand 0x30

def accessed (sent : Option AtaCommand) : List Nat := sent.elim [] AtaCommand.accessed

/-- A read delivers the sectors of the command it sends. -/
theorem mbrReadSector_eq (disk : Content) (part : Partition) (lba count : Nat) :
    mbrReadSector disk part lba count =
      (mbrReadCommand part lba count).map (fun c => sectors disk c.address count) := by
  rw [mbrReadSector, mbrReadCommand, mbrCommand]
  split
  · rfl
  · rw [Option.map_some, ataCommand_address]
    rfl

/-- The request succeeds if and only if it lies in the partition, and then transfers
its sectors and no others; when refused it transfers none. -/
structure BoundsExactly (part : Partition) (lba count : Nat) (sent : Option AtaCommand) : Prop where
  succeeds : sent.isSome = true ↔ lba + count ≤ part.partSize
  reaches : sent.isSome = true → accessed sent = (List.range count).map (part.lbaOffset + lba + ·)
  refuses : sent.isSome = false → accessed sent = []

/-- The kinds of requests that the comparison decides rightly: those inside the partition
whose absolute sector is below the partition's size too, and has 28 bits, and those
leaving it whose absolute sector, as wrapped, is not. -/
def DecidedRightly (part : Partition) (lba count : Nat) : Prop :=
  if lba + count ≤ part.partSize then
    part.lbaOffset + lba < part.partSize ∧ part.lbaOffset + lba < 2 ^ 28
  else part.partSize ≤ u32 (lba + part.lbaOffset)

instance (part : Partition) (lba count : Nat) : Decidable (DecidedRightly part lba count) :=
  inferInstanceAs (Decidable (ite _ _ _))

section
variable {part : Partition} {command lba count : Nat}

theorem mbrCommand_isSome :
    (mbrCommand command part lba count).isSome = true ↔ u32 (lba + part.lbaOffset) < part.partSize := by
  rw [mbrCommand]
  split
  · simpa using ‹part.partSize ≤ _›
  · simpa using ‹¬ part.partSize ≤ _›

theorem mbrCommand_accessed (sent : (mbrCommand command part lba count).isSome = true) :
    accessed (mbrCommand command part lba count) =
      (List.range count).map (u32 (lba + part.lbaOffset) % 2 ^ 28 + ·) := by
  rw [mbrCommand_isSome] at sent
  rw [mbrCommand, if_neg (by omega)]
  simp only [accessed, Option.elim_some, AtaCommand.accessed, ataCommand_address]
  rfl

/-- The sectors of two nonempty runs of one length agree only if the runs start together. -/
theorem run_inj {a b : Nat} (positive : 1 ≤ count)
    (same : (List.range count).map (a + ·) = (List.range count).map (b + ·)) : a = b := by
  obtain ⟨more, rfl⟩ := Nat.exists_eq_add_of_le' positive
  rw [List.range_succ_eq_map] at same
  simpa using (List.cons.inj same).1

theorem mbrCommand_bounds_iff (command lba : Nat) (room : part.lbaOffset + part.partSize < 2 ^ 32)
    (positive : 1 ≤ count) :
    BoundsExactly part lba count (mbrCommand command part lba count) ↔
      DecidedRightly part lba count := by
  rw [DecidedRightly]
  by_cases inside : lba + count ≤ part.partSize
  · have exact : u32 (lba + part.lbaOffset) = part.lbaOffset + lba := by
      rw [u32_of_lt (by omega), Nat.add_comm]
    rw [if_pos inside]
    constructor
    · intro bounds
      have sent := bounds.succeeds.mpr inside
      have reached := (mbrCommand_accessed sent).symm.trans (bounds.reaches sent)
      rw [exact] at reached
      have start := run_inj positive reached
      rw [mbrCommand_isSome, exact] at sent
      exact ⟨sent, by omega⟩
    · rintro ⟨below, addressable⟩
      have sent : (mbrCommand command part lba count).isSome = true := by
        rw [mbrCommand_isSome, exact]
        exact below
      refine ⟨iff_of_true sent inside, fun _ => ?_, fun refused => ?_⟩
      · rw [mbrCommand_accessed sent, exact, Nat.mod_eq_of_lt addressable]
      · exact absurd sent (by simp [refused])
  · rw [if_neg inside]
    constructor
    · intro bounds
      have refused := mt bounds.succeeds.mp inside
      rw [mbrCommand_isSome] at refused
      omega
    · intro outside
      have refused : mbrCommand command part lba count = none := by rw [mbrCommand, if_pos outside]
      rw [refused]
      exact ⟨iff_of_false (by simp) inside, by simp, fun _ => rfl⟩

end

/-- The clusters of a volume of `clusters` clusters end inside the partition. -/
structure Fills (part : Partition) (g : FatData) (clusters : Nat) : Prop where
  nonempty : 1 ≤ clusters ∧ 1 ≤ g.boot.sectorsPerCluster
  inside : g.dataSectionLba + clusters * g.boot.sectorsPerCluster ≤ part.partSize

/-- Each sector of each cluster, counted from cluster 2, is read from its place on the drive. -/
def ReadsClusters (part : Partition) (g : FatData) (clusters : Nat) : Prop :=
  ∀ c < clusters, ∀ k < g.boot.sectorsPerCluster,
    accessed (mbrReadCommand part (u32 (g.clusterToLba (c + 2) + k)) 1) =
      [part.lbaOffset + (g.dataSectionLba + c * g.boot.sectorsPerCluster + k)]

theorem clusterToLba_exact {g : FatData} {c k clusters size : Nat} (counted : c < clusters)
    (within : k < g.boot.sectorsPerCluster)
    (inside : g.dataSectionLba + clusters * g.boot.sectorsPerCluster ≤ size) (room : size < 2 ^ 32) :
    u32 (g.clusterToLba (c + 2) + k) = g.dataSectionLba + c * g.boot.sectorsPerCluster + k ∧
      g.dataSectionLba + c * g.boot.sectorsPerCluster + k < size := by
  have next : (c + 1) * g.boot.sectorsPerCluster ≤ clusters * g.boot.sectorsPerCluster :=
    Nat.mul_le_mul_right _ counted
  rw [Nat.add_mul, Nat.one_mul] at next
  have wide : c ≤ c * g.boot.sectorsPerCluster := Nat.le_mul_of_pos_right c (by omega)
  have counter : sub32 (c + 2) 2 = c := by
    unfold sub32 u32
    omega
  have start : u32 (c * g.boot.sectorsPerCluster) = c * g.boot.sectorsPerCluster :=
    u32_of_lt (by omega)
  have sector : g.clusterToLba (c + 2) = g.dataSectionLba + c * g.boot.sectorsPerCluster := by
    rw [FatData.clusterToLba, counter, start, u32_of_lt (by omega)]
  rw [sector]
  exact ⟨u32_of_lt (by omega), by omega⟩

theorem readsSector_iff {part : Partition} {lba : Nat} (room : part.lbaOffset + part.partSize < 2 ^ 32)
    (inside : lba < part.partSize) :
    accessed (mbrReadCommand part lba 1) = [part.lbaOffset + lba] ↔
      part.lbaOffset + lba < part.partSize ∧ part.lbaOffset + lba < 2 ^ 28 := by
  have fits : lba + 1 ≤ part.partSize := inside
  have bounds := mbrCommand_bounds_iff 0x20 lba room (Nat.le_refl 1)
  rw [DecidedRightly, if_pos fits] at bounds
  rw [← bounds]
  constructor
  · intro reached
    cases sent : mbrReadCommand part lba 1 with
    | none => simp [sent, accessed] at reached
    | some c =>
      rw [sent] at reached
      have exactly : BoundsExactly part lba 1 (some c) :=
        ⟨iff_of_true rfl fits, fun _ => reached, fun refused => absurd refused (by simp)⟩
      rw [← sent] at exactly
      exact exactly
  · intro bounds
    exact bounds.reaches (bounds.succeeds.mpr fits)

theorem readsClusters_iff {part : Partition} {g : FatData} {clusters : Nat}
    (room : part.lbaOffset + part.partSize < 2 ^ 32) (fills : Fills part g clusters) :
    ReadsClusters part g clusters ↔
      part.lbaOffset + (g.dataSectionLba + clusters * g.boot.sectorsPerCluster) ≤ part.partSize ∧
      part.lbaOffset + (g.dataSectionLba + clusters * g.boot.sectorsPerCluster) ≤ 2 ^ 28 := by
  obtain ⟨some, wide⟩ := fills.nonempty
  constructor
  · intro reads
    -- the last sector of the last cluster decides
    obtain ⟨exact, inside⟩ := clusterToLba_exact (c := clusters - 1)
      (k := g.boot.sectorsPerCluster - 1) (by omega) (by omega) fills.inside (by omega)
    have last := reads (clusters - 1) (by omega) (g.boot.sectorsPerCluster - 1) (by omega)
    rw [exact, readsSector_iff room inside, Nat.sub_mul, Nat.one_mul] at last
    have length : g.boot.sectorsPerCluster ≤ clusters * g.boot.sectorsPerCluster :=
      Nat.le_mul_of_pos_left _ some
    omega
  · rintro ⟨below, addressable⟩ c counted k within
    obtain ⟨exact, inside⟩ := clusterToLba_exact counted within fills.inside (by omega)
    have earlier := (clusterToLba_exact counted within (Nat.le_refl _) (by omega)).2
    rw [exact, readsSector_iff room inside]
    omega

/-- Each read and write is bounded exactly if and only if its comparison decides
rightly, and the clusters of a volume in the partition can be read if and only if
they still end inside the partition's size, and 2^28 sectors, when counted from the
start of the drive. -/
theorem mbrSector_bounds_iff (part : Partition) (room : part.lbaOffset + part.partSize < 2 ^ 32) :
    (∀ lba count, 1 ≤ count →
      (BoundsExactly part lba count (mbrReadCommand part lba count) ↔ DecidedRightly part lba count) ∧
      (BoundsExactly part lba count (mbrWriteCommand part lba count) ↔
        DecidedRightly part lba count)) ∧
    (∀ g clusters, Fills part g clusters →
      (ReadsClusters part g clusters ↔
        part.lbaOffset + (g.dataSectionLba + clusters * g.boot.sectorsPerCluster) ≤ part.partSize ∧
        part.lbaOffset + (g.dataSectionLba + clusters * g.boot.sectorsPerCluster) ≤ 2 ^ 28)) := by
  constructor
  · intro lba count positive
    exact ⟨mbrCommand_bounds_iff 0x20 lba room positive, mbrCommand_bounds_iff 0x30 lba room positive⟩
  · intro g clusters fills
    exact readsClusters_iff room fills

/-- A partition of 4096 sectors from sector 2048 on. -/
def secondPartition : Partition := ⟨2048, 4096⟩

/-- The last sector is refused, although it is in the partition. -/
theorem secondPartition_unreachable :
    ¬ BoundsExactly secondPartition 4095 1 (mbrReadCommand secondPartition 4095 1) := by
  intro bounds
  have sent := bounds.succeeds.mpr (by decide)
  exact absurd sent (by decide)

theorem mbrSector_bounds_second :
    BoundsExactly secondPartition 2047 1 (mbrWriteCommand secondPartition 2047 1) :=
  (((mbrSector_bounds_iff secondPartition (by decide)).1 2047 1 (by decide)).2).mpr (by decide)

end Laomb.FS
