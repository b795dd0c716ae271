import Laomb.Base.Loop
import Laomb.FS.Effects

/-! Directories read entry by entry. Their size is zero, so that `fat_read` copies a whole
entry out of the buffer every time; the sector after a used one may not be there. -/
namespace Laomb.FS
open Word Loop

variable {read : Reader} {searching : Nat → Reader} {g g' : FatData} {h : Handle} {fd : FileData}
    {shortName : Vector Byte 11} {byteCount fuel n position : Nat}

/-- The entry in the buffer at a position. -/
def slot (buffer : Vector Byte (1 * 512)) (position : Nat) : DirEntry :=
  dirEntry fun i => bytesOf buffer (position % 512 + i)

/-- A directory between two entries. -/
structure Listing (fd : FileData) : Prop where
  isDirectory : fd.isDirectory = true
  unsized : fd.size = 0
  aligned : fd.position % 32 = 0
  word : fd.position < 2 ^ 32

theorem listing_ofEntry {entry : Directory} (i : Fin 10) (buffer : Vector Byte (1 * 512))
    (directory : entry.isDirectory = true) (unsized : entry.size.toNat = 0) :
      Listing (.ofEntry entry i buffer) :=
  ⟨directory, unsized, rfl, Nat.two_pow_pos 32⟩

/-- The root directory right after `fat_init`, without a fixed number of entries. -/
theorem fatInit_listing (initialised : fatInit read = some g) (uncounted : g.boot.dirEntryCount = 0) :
    Listing g.rootDirectory := by
  obtain ⟨buffer, _, root⟩ := fatInit_root initialised
  rw [root]
  exact ⟨rfl, by rw [FileData.ofRoot, uncounted], rfl, Nat.two_pow_pos 32⟩

theorem dirEntry_congr {content content' : Content} (same : ∀ i < 32, content i = content' i) :
    dirEntry content = dirEntry content' := by
  unfold dirEntry le32 le16
  have name : (Vector.ofFn fun i : Fin 11 => content i) = Vector.ofFn fun i : Fin 11 => content' i :=
    congrArg Vector.ofFn (funext fun i => same i (by omega))
  simp only [name, same 11 (by decide), same 20 (by decide), same 21 (by decide), same 26 (by decide),
    same 27 (by decide), same 28 (by decide), same 29 (by decide), same 30 (by decide), same 31 (by decide),
    Nat.reduceAdd]

/-- What `fat_read` makes of a count. -/
def FileData.within (fd : FileData) (byteCount : Nat) : Nat :=
  if !fd.isDirectory || fd.isDirectory && fd.size != 0 then min byteCount
    (sub32 fd.size fd.position) else byteCount

theorem FileData.within_le (fd : FileData) (byteCount : Nat) : fd.within byteCount ≤ byteCount := by
  unfold FileData.within
  split
  · exact Nat.min_le_left _ _
  · exact Nat.le_refl _

theorem fatRead_eq (read : Reader) (g : FatData) (h : Handle) (byteCount : Nat) : g.fatRead read h byteCount =
    g.readLoop read h ((g.file h).within byteCount) ((g.file h).within byteCount) := rfl

/-- A count that the buffer has takes one pass of the loop at most. -/
theorem readLoop_short (short : byteCount ≤ 512 - (g.file h).position % 512) (some_left : byteCount ≠ 0)
    (enough : byteCount ≤ fuel) : g.readLoop read h fuel byteCount =
      ((g.advance read h byteCount).1,
        ((g.file h).buffer.toList.drop ((g.file h).position % 512)).take byteCount, byteCount) := by
  obtain ⟨fuel, rfl⟩ := Nat.exists_eq_succ_of_ne_zero fun none => some_left (Nat.le_zero.mp (none ▸ enough))
  rw [FatData.readLoop, if_neg some_left]
  simp only [Nat.min_eq_left short, Nat.sub_self]
  generalize g.advance read h byteCount = result
  obtain ⟨g', goesOn⟩ := result
  cases goesOn with
  | true =>
    have rest : g'.readLoop read h fuel 0 = (g', [], 0) := by
      cases fuel with
      | zero => rfl
      | succ fuel => rw [FatData.readLoop, if_pos rfl]
    simp only [if_true, rest, List.append_nil, Nat.add_zero]
  | false => rfl

/-- An entry that the buffer has is read in one pass, if the directory does not end in it. -/
theorem fatReadEntry_short (short : (g.file h).within 32 ≤ 512 - (g.file h).position % 512)
    (some_left : (g.file h).within 32 ≠ 0) : g.fatReadEntry read h =
      ((g.advance read h ((g.file h).within 32)).1,
      if (g.file h).within 32 = 32 then some (slot (g.file h).buffer (g.file h).position) else none) := by
  unfold FatData.fatReadEntry
  rw [fatRead_eq, readLoop_short short some_left (Nat.le_refl _)]
  by_cases whole : (g.file h).within 32 = 32
  · have bytes : dirEntry (fun i =>
        (((g.file h).buffer.toList.drop ((g.file h).position % 512)).take 32)[i]?.getD 0) =
        slot (g.file h).buffer (g.file h).position := by
      refine dirEntry_congr fun i inside => ?_
      rw [List.getElem?_take_of_lt inside, List.getElem?_drop, bytesOf, Vector.getElem?_toList]
    simp only [whole, if_true, bytes]
  · simp only [whole, if_false]

theorem fatReadEntry_nothing (nothing : (g.file h).within 32 = 0) : g.fatReadEntry read h = (g, none) := by
  rw [FatData.fatReadEntry, fatRead_eq, nothing]
  rfl

/-- An entry is read from the buffer, and the position moves on. -/
theorem fatReadEntry_slot (listing : Listing (g.file h)) : g.fatReadEntry read h =
    ((g.advance read h 32).1, some (slot (g.file h).buffer (g.file h).position)) := by
  obtain ⟨isDirectory, unsized, aligned, _⟩ := listing
  have whole : (g.file h).within 32 = 32 := by simp [FileData.within, isDirectory, unsized]
  rw [fatReadEntry_short (by omega) (by omega), whole, if_pos rfl]

/-- A directory whose size has been set to its position is read no further. -/
theorem fatReadEntry_end (isDirectory : (g.file h).isDirectory = true) (sized : (g.file h).size ≠ 0)
    (ended : (g.file h).size = (g.file h).position) : g.fatReadEntry read h = (g, none) := by
  have nothing : sub32 (g.file h).size (g.file h).position = 0 := by
    rw [ended]
    simp only [sub32, u32]
    omega
  exact fatReadEntry_nothing (by simp [FileData.within, isDirectory, sized, nothing])

theorem findLoop_succ (listing : Listing (g.file h)) :
    FatData.findLoop searching h shortName (fuel + 1) n g =
      if shortName = (slot (g.file h).buffer (g.file h).position).name then
        some ((g.advance (searching n) h 32).1, some (slot (g.file h).buffer (g.file h).position))
      else FatData.findLoop searching h shortName fuel (n + 1) (g.advance (searching n) h 32).1 := by
  rw [FatData.findLoop, fatReadEntry_slot listing]

/-! ## The search as a loop, with reads that do not vary -/

/-- One pass of the loop of `FAT_FindFile`. -/
def FatData.findStep (read : Reader) (h : Handle) (shortName : Vector Byte 11) (g : FatData) :
    FatData ⊕ FatData × Option DirEntry :=
  match g.fatReadEntry read h with
  | (g, some entry) => if shortName = entry.name then .inr (g, some entry) else .inl g
  | (g, none) => .inr (g, none)

theorem findLoop_eq (read : Reader) (h : Handle) (shortName : Vector Byte 11) (fuel n : Nat) (g : FatData) :
    FatData.findLoop (fun _ => read) h shortName fuel n g =
      loop (FatData.findStep read h shortName) fuel g := by
  induction fuel generalizing n g with
  | zero => rfl
  | succ fuel ih =>
    rw [FatData.findLoop, loop, FatData.findStep]
    generalize g.fatReadEntry read h = result
    obtain ⟨g', _ | entry⟩ := result
    · rfl
    · dsimp only
      split
      · rfl
      · exact ih (n + 1) g'

theorem findStep_slot (read : Reader) (shortName : Vector Byte 11) (listing : Listing (g.file h)) :
    g.findStep read h shortName =
    if shortName = (slot (g.file h).buffer (g.file h).position).name then
      .inr ((g.advance read h 32).1, some (slot (g.file h).buffer (g.file h).position))
    else .inl (g.advance read h 32).1 := by
  rw [FatData.findStep, fatReadEntry_slot listing]

/-- The file at the `j`-th entry of its buffer. -/
def FatData.atSlot (g : FatData) (h : Handle) (j : Nat) : FatData :=
  g.setFile { g.file h with position := (g.file h).position / 512 * 512 + 32 * j } h

/-- The next sector, after all entries of the buffer. -/
def FatData.refill (read : Reader) (g : FatData) (h : Handle) : FatData :=
  ((g.setFile { g.file h with position := u32 (((g.file h).position / 512 + 1) * 512) }
    h).nextSector read h).1

theorem position_loadSector (read : Reader) (g : FatData) (h : Handle) (fd : FileData) :
    ((g.loadSector read h fd).1.file h).position = fd.position := by
  unfold FatData.loadSector
  split
  · rw [file_setFile]
  · cases read (u32 (g.clusterToLba fd.currentCluster + fd.sectorInCluster)) 1 with
    | none => rw [file_setFile]
    | some buffer => rw [file_setFile]

theorem position_nextSector (read : Reader) (g : FatData) (h : Handle) :
    ((g.nextSector read h).1.file h).position = (g.file h).position := by
  unfold FatData.nextSector
  dsimp only
  cases (g.file h).handle with
  | root =>
    dsimp only
    cases read (u32 ((g.file h).currentCluster + 1)) 1 with
    | none => rw [file_setFile]
    | some buffer => rw [file_setFile]
  | opened i =>
    dsimp only
    split
    · exact position_loadSector read _ h _
    · exact position_loadSector read _ h _

theorem position_advance (read : Reader) (g : FatData) (h : Handle) (take : Nat) :
    ((g.advance read h take).1.file h).position = u32 ((g.file h).position + take) := by
  unfold FatData.advance
  dsimp only
  split
  · rw [position_nextSector, file_setFile]
  · rw [file_setFile]

/-- The next sector of the device takes the place of the used one, if it can be read. -/
theorem nextSector_root (root : g.rootDirectory.handle = .root) : g.nextSector read .root =
    (g.setFile { g.rootDirectory with
      currentCluster := u32 (g.rootDirectory.currentCluster + 1)
      buffer := (read (u32 (g.rootDirectory.currentCluster + 1)) 1).getD g.rootDirectory.buffer } .root,
    (read (u32 (g.rootDirectory.currentCluster + 1)) 1).isSome) := by
  rw [FatData.nextSector]
  simp only [FatData.file, root]
  cases read (u32 (g.rootDirectory.currentCluster + 1)) 1 with
  | none => rfl
  | some buffer => rfl

@[simp]
theorem setFile_setFile (g : FatData) (fd fd' : FileData) (h : Handle) :
    (g.setFile fd h).setFile fd' h = g.setFile fd' h := by
  cases h with
  | root => rfl
  | opened i => simp only [FatData.setFile, Function.update_idem]

@[simp]
theorem setFile_file (g : FatData) (h : Handle) : g.setFile (g.file h) h = g := by
  cases h with
  | root => rfl
  | opened i => simp only [FatData.setFile, FatData.file, Function.update_eq_self]

@[simp]
theorem file_atSlot (g : FatData) (h : Handle) (j : Nat) : (g.atSlot h j).file h =
    { g.file h with position := (g.file h).position / 512 * 512 + 32 * j } := file_setFile g _ h

theorem listing_atSlot (listing : Listing (g.file h)) {j : Nat} (inside : j < 16) :
    Listing ((g.atSlot h j).file h) := by
  have word := listing.word
  rw [file_atSlot]
  exact ⟨listing.isDirectory, listing.unsized, by dsimp only; omega, by dsimp only; omega⟩

theorem slot_mod (buffer : Vector Byte (1 * 512)) {position' : Nat}
    (same : position % 512 = position' % 512) :
    slot buffer position = slot buffer position' := by
  rw [slot, slot, same]

theorem slot_atSlot (j : Nat) :
    slot ((g.atSlot h j).file h).buffer ((g.atSlot h j).file h).position =
      slot (g.file h).buffer (32 * j) := by
  rw [file_atSlot]
  exact slot_mod _ (by dsimp only; omega)

theorem atSlot_same {j : Nat}
    (here : (g.file h).position / 512 * 512 + 32 * j = (g.file h).position) : g.atSlot h j = g := by
  rw [FatData.atSlot, here, setFile_file]

theorem advance_atSlot (read : Reader) {j : Nat} (inside : j + 1 < 16) (word : (g.file h).position < 2 ^ 32) :
    ((g.atSlot h j).advance read h 32).1 = g.atSlot h (j + 1) := by
  have short : 512 - ((g.file h).position / 512 * 512 + 32 * j) % 512 ≠ 32 := by omega
  have moved : u32 ((g.file h).position / 512 * 512 + 32 * j + 32) =
      (g.file h).position / 512 * 512 + 32 * (j + 1) := by
    rw [u32_of_lt (by omega)]
    omega
  rw [FatData.advance]
  simp only [file_atSlot, if_neg short, moved]
  rw [FatData.atSlot, setFile_setFile, FatData.atSlot]

theorem advance_last (read : Reader) :
    ((g.atSlot h 15).advance read h 32).1 = g.refill read h := by
  have last : 512 - ((g.file h).position / 512 * 512 + 32 * 15) % 512 = 32 := by omega
  have moved : (g.file h).position / 512 * 512 + 32 * 15 + 32 =
      ((g.file h).position / 512 + 1) * 512 := by omega
  rw [FatData.advance]
  simp only [file_atSlot, if_pos last, moved]
  rw [FatData.atSlot, setFile_setFile, FatData.refill]

/-- An entry read moves to the next one or to the next sector. -/
theorem advance_slot (read : Reader) (listing : Listing (g.file h)) :
    (∃ j < 16, (g.advance read h 32).1 = g.atSlot h j) ∨ (g.advance read h 32).1 = g.refill read h := by
  have aligned := listing.aligned
  have here : g.atSlot h ((g.file h).position % 512 / 32) = g := atSlot_same (by omega)
  by_cases last : (g.file h).position % 512 / 32 = 15
  · rw [last] at here
    have moved := advance_last (g := g) (h := h) read
    rw [here] at moved
    exact .inr moved
  · have inside : (g.file h).position % 512 / 32 + 1 < 16 := by omega
    have moved := advance_atSlot read inside listing.word
    rw [here] at moved
    exact .inl ⟨_, inside, moved⟩

/-- Entries with other names are passed over. -/
theorem goes_atSlot (read : Reader) (listing : Listing (g.file h)) {j : Nat} (inside : j < 16)
    (start : (g.file h).position % 512 ≤ 32 * j)
    (others : ∀ k < j, (g.file h).position % 512 ≤ 32 * k →
      shortName ≠ (slot (g.file h).buffer (32 * k)).name) :
    ∃ k, Goes (FatData.findStep read h shortName) k g (g.atSlot h j) := by
  induction j with
  | zero =>
    refine ⟨0, ?_⟩
    rw [atSlot_same (by omega)]
    exact .zero g
  | succ j ih =>
    by_cases first : (g.file h).position % 512 = 32 * (j + 1)
    · refine ⟨0, ?_⟩
      rw [atSlot_same (by omega)]
      exact .zero g
    · have aligned := listing.aligned
      obtain ⟨k, goes⟩ := ih (by omega) (by omega) fun k less => others k (by omega)
      refine ⟨k + 1, goes.trans (.single ?_)⟩
      have other := others j (Nat.lt_succ_self j) (by omega)
      rw [findStep_slot _ _ (listing_atSlot listing (by omega)), slot_atSlot, if_neg other,
        advance_atSlot _ inside listing.word]

/-- The first entry with the name ends the search. -/
theorem findStep_atSlot (listing : Listing (g.file h)) {j : Nat} (inside : j < 16)
    (carried : shortName = (slot (g.file h).buffer (32 * j)).name) :
    (g.atSlot h j).findStep read h shortName =
      .inr (((g.atSlot h j).advance read h 32).1, some (slot (g.file h).buffer (32 * j))) := by
  rw [findStep_slot _ _ (listing_atSlot listing inside), slot_atSlot, if_pos carried]

/-- The sector has an entry with the name. -/
def Carries (buffer : Vector Byte (1 * 512)) (shortName : Vector Byte 11) : Prop :=
  ∃ j < 16, shortName = (slot buffer (32 * j)).name

/-- Without such an entry at or behind the position, the next sector takes its place. -/
theorem goes_refill (read : Reader) (listing : Listing (g.file h))
    (missing : ∀ j < 16, (g.file h).position % 512 ≤ 32 * j →
      shortName ≠ (slot (g.file h).buffer (32 * j)).name) :
    ∃ k, Goes (FatData.findStep read h shortName) (k + 1) g (g.refill read h) := by
  have aligned := listing.aligned
  obtain ⟨k, goes⟩ := goes_atSlot read listing (j := 15) (by decide) (by omega)
    fun k less => missing k (by omega)
  refine ⟨k, goes.trans (.single ?_)⟩
  rw [findStep_slot _ _ (listing_atSlot listing (by decide)), slot_atSlot,
    if_neg (missing 15 (by decide) (by omega)), advance_last]

/-- The first entry with the name, from the position on, ends the search. -/
theorem ends_found (read : Reader) (listing : Listing (g.file h))
    (carried : ∃ j < 16, (g.file h).position % 512 ≤ 32 * j ∧
      shortName = (slot (g.file h).buffer (32 * j)).name) :
    ∃ fuel g' entry, loop (FatData.findStep read h shortName) fuel g = some (g', some entry) := by
  classical
  obtain ⟨inside, start, found⟩ := Nat.find_spec carried
  obtain ⟨k, goes⟩ := goes_atSlot read listing inside start
    fun j less behind same => Nat.find_min carried less ⟨less.trans inside, behind, same⟩
  exact ⟨k + 1, _, _, goes.ends (findStep_atSlot listing inside found)⟩

/-- From any position the search finds an entry of the buffer or gets to the next sector. -/
theorem ends_or_refills (read : Reader) (shortName : Vector Byte 11) (listing : Listing (g.file h)) :
    (∃ fuel g' entry, loop (FatData.findStep read h shortName) fuel g = some (g', some entry)) ∨
      ∃ k, Goes (FatData.findStep read h shortName) (k + 1) g (g.refill read h) := by
  by_cases carried : ∃ j < 16, (g.file h).position % 512 ≤ 32 * j ∧
      shortName = (slot (g.file h).buffer (32 * j)).name
  · exact .inl (ends_found _ listing carried)
  · exact .inr (goes_refill _ listing fun j inside behind same => carried ⟨j, inside, behind, same⟩)

end Laomb.FS
