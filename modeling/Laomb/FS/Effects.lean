import Laomb.FS.Lookup

/-! What reading, closing and opening change: a read moves one file and the cache, closing
frees a slot or rewinds the root directory, opening fills a free slot. -/
namespace Laomb.FS
open Word

variable {read : Reader} {searching : Nat → Reader} {g g' g'' : FatData} {h k : Handle} {fd fd' : FileData}
    {entry : Directory} {shortName : Vector Byte 11} {byteCount fuel n : Nat}

@[simp]
theorem file_setFile (g : FatData) (fd : FileData) (h : Handle) : (g.setFile fd h).file h = fd := by
  cases h with
  | root => rfl
  | opened i => exact Function.update_self i fd g.openedFiles

theorem file_setFile_of_ne (g : FatData) (fd : FileData) (other : k ≠ h) :
    (g.setFile fd h).file k = g.file k := by
  cases h with
  | root =>
    cases k with
    | root => exact absurd rfl other
    | opened j => rfl
  | opened i =>
    cases k with
    | root => rfl
    | opened j => exact Function.update_of_ne (fun same => other (congrArg _ same)) fd g.openedFiles

theorem layout_setFile (g : FatData) (fd : FileData) (h : Handle) :
    (g.setFile fd h).toLayout = g.toLayout := by
  cases h with
  | root => rfl
  | opened i => rfl

/-- What stays of a file that is read. -/
structure SameFile (fd fd' : FileData) : Prop where
  handle : fd'.handle = fd.handle
  isDirectory : fd'.isDirectory = fd.isDirectory
  opened : fd'.opened = fd.opened
  firstCluster : fd'.firstCluster = fd.firstCluster

theorem SameFile.refl (fd : FileData) : SameFile fd fd := ⟨rfl, rfl, rfl, rfl⟩

theorem SameFile.trans {fd'' : FileData} (first : SameFile fd fd') (second : SameFile fd' fd'') :
    SameFile fd fd'' :=
  ⟨second.handle.trans first.handle, second.isDirectory.trans first.isDirectory,
    second.opened.trans first.opened,
    second.firstCluster.trans first.firstCluster⟩

/-- Nothing changes but the file behind `h`, which stays the same file, and the cache. -/
structure Moved (h : Handle) (g g' : FatData) : Prop where
  layout : g'.toLayout = g.toLayout
  others : ∀ k, k ≠ h → g'.file k = g.file k
  same : SameFile (g.file h) (g'.file h)

namespace Moved

theorem refl (h : Handle) (g : FatData) : Moved h g g := ⟨rfl, fun _ _ => rfl, .refl _⟩

theorem trans (first : Moved h g g') (second : Moved h g' g'') : Moved h g g'' :=
  ⟨second.layout.trans first.layout, fun k other => (second.others k other).trans (first.others k other),
    first.same.trans second.same⟩

theorem setFile (same : SameFile (g.file h) fd) : Moved h g (g.setFile fd h) := by
  refine ⟨by cases h <;> rfl, fun k other => file_setFile_of_ne g fd other, ?_⟩
  rw [file_setFile]
  exact same

/-- The table is looked up without moving a file. -/
theorem fatNextCluster (read : Reader) (g : FatData) (h : Handle) (c : Nat) :
    Moved h g (g.fatNextCluster read c).1 := by
  unfold FatData.fatNextCluster
  dsimp only
  split
  · unfold FatData.readFat
    cases read (u32 (g.boot.reservedSectors + u32 (c * 4) / 512)) 5 with
    | none => exact ⟨rfl, fun k _ => by cases k <;> rfl, by cases h <;> exact .refl _⟩
    | some sectors => exact ⟨rfl, fun k _ => by cases k <;> rfl, by cases h <;> exact .refl _⟩
  · exact .refl h g

theorem loadSector (same : SameFile (g.file h) fd) : Moved h g (g.loadSector read h fd).1 := by
  unfold FatData.loadSector
  split
  · exact setFile ⟨same.handle, same.isDirectory, same.opened, same.firstCluster⟩
  · cases read (u32 (g.clusterToLba fd.currentCluster + fd.sectorInCluster)) 1 with
    | none => exact setFile same
    | some buffer => exact setFile ⟨same.handle, same.isDirectory, same.opened, same.firstCluster⟩

theorem nextSector (read : Reader) (g : FatData) (h : Handle) : Moved h g (g.nextSector read h).1 := by
  unfold FatData.nextSector
  dsimp only
  cases handle : (g.file h).handle with
  | root =>
    dsimp only
    cases read (u32 ((g.file h).currentCluster + 1)) 1 with
    | none => exact setFile ⟨handle.symm, rfl, rfl, rfl⟩
    | some buffer => exact setFile ⟨handle.symm, rfl, rfl, rfl⟩
  | opened i =>
    dsimp only
    split
    · have table := fatNextCluster read g h (g.file h).currentCluster
      refine table.trans (loadSector ?_)
      exact ⟨handle.symm.trans table.same.handle.symm, table.same.isDirectory.symm, table.same.opened.symm,
        table.same.firstCluster.symm⟩
    · exact loadSector ⟨handle.symm, rfl, rfl, rfl⟩

theorem advance (read : Reader) (g : FatData) (h : Handle) (take : Nat) :
    Moved h g (g.advance read h take).1 := by
  have moved : Moved h g (g.setFile { g.file h with position := u32 ((g.file h).position + take) } h) :=
    setFile ⟨rfl, rfl, rfl, rfl⟩
  unfold FatData.advance
  dsimp only
  split
  · exact moved.trans (nextSector read _ h)
  · exact moved

theorem readLoop (read : Reader) (g : FatData) (h : Handle) (fuel byteCount : Nat) :
    Moved h g (g.readLoop read h fuel byteCount).1 := by
  induction fuel generalizing g byteCount with
  | zero => exact .refl h g
  | succ fuel ih =>
    unfold FatData.readLoop
    split
    · exact .refl h g
    · have step := advance read g h (min byteCount (512 - (g.file h).position % 512))
      dsimp only
      generalize g.advance read h (min byteCount (512 - (g.file h).position % 512)) = result at step
      obtain ⟨g', goesOn⟩ := result
      cases goesOn with
      | false => exact step
      | true => exact step.trans (ih g' _)

theorem fatRead (read : Reader) (g : FatData) (h : Handle) (byteCount : Nat) :
    Moved h g (g.fatRead read h byteCount).1 :=
  readLoop read g h _ _

theorem fatReadEntry (read : Reader) (g : FatData) (h : Handle) : Moved h g (g.fatReadEntry read h).1 :=
  fatRead read g h 32

theorem findLoop {r : Option DirEntry}
    (done : FatData.findLoop searching h shortName fuel n g = some (g', r)) :
    Moved h g g' := by
  induction fuel generalizing n g with
  | zero => cases done
  | succ fuel ih =>
    have step := fatReadEntry (searching n) g h
    rw [FatData.findLoop] at done
    generalize g.fatReadEntry (searching n) h = result at step done
    obtain ⟨g₁, _ | found⟩ := result
    · cases done
      exact step
    · dsimp only at done
      split at done
      · cases done
        exact step
      · exact step.trans (ih done)

end Moved

/-- The slot of a file that has just been opened. -/
def FileData.ofEntry (entry : Directory) (i : Fin 10) (buffer : Vector Byte (1 * 512)) : FileData where
  buffer
  handle := .opened i
  isDirectory := entry.isDirectory
  position := 0
  size := entry.size.toNat
  opened := true
  firstCluster := entry.firstCluster
  currentCluster := entry.firstCluster
  sectorInCluster := 0

/-- The three ways in which `fat_open_entry` ends. -/
inductive OpensEntry (read : Reader) (g : FatData) (entry : Directory) :
    FatData × Option (Fin 10) → Prop where
  | full : (∀ i, (g.openedFiles i).opened = true) → OpensEntry read g entry (g, none)
  | unreadable (i : Fin 10) (fd : FileData) : (g.openedFiles i).opened = false → fd.opened = false →
      read (g.clusterToLba entry.firstCluster) 1 = none →
      OpensEntry read g entry (g.setFile fd (.opened i), none)
  | opened (i : Fin 10) (buffer : Vector Byte (1 * 512)) : (g.openedFiles i).opened = false →
      read (g.clusterToLba entry.firstCluster) 1 = some buffer →
      OpensEntry read g entry (g.setFile (.ofEntry entry i buffer) (.opened i), some i)

theorem fatOpenEntry_opens (read : Reader) (g : FatData) (entry : Directory) :
    OpensEntry read g entry (g.fatOpenEntry read entry) := by
  unfold FatData.fatOpenEntry
  cases free : (List.finRange 10).find? fun i => !(g.openedFiles i).opened with
  | none =>
    refine .full fun i => ?_
    have used := List.find?_eq_none.mp free i (List.mem_finRange i)
    simpa using used
  | some i =>
    have unused : (g.openedFiles i).opened = false := by simpa using List.find?_some free
    dsimp only
    cases loaded : read (g.clusterToLba entry.firstCluster) 1 with
    | none => exact .unreadable i _ unused unused loaded
    | some buffer => exact .opened i buffer unused loaded

theorem fatInit_root (initialised : fatInit read = some g) : ∃ buffer,
    read (g.clusterToLba g.boot.rootDirectoryCluster) 1 = some buffer ∧
      g.rootDirectory = .ofRoot g buffer := by
  obtain ⟨_, buffer, _, loaded, rfl⟩ := fatInit_eq initialised
  exact ⟨buffer, loaded, rfl⟩

end Laomb.FS
