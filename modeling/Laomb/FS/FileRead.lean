import Laomb.Base.Blocks
import Laomb.Base.Transition
import Laomb.FS.Fat32

/-! Reads of opened files: whatever the calls, and however they interleave, each
file gives the bytes of its cluster chain in order. -/
namespace Laomb.FS
open Word Blocks Transition

variable {content : Content} {read : Reader} {v : Layout} {g g' g'' : FatData} {fd fd' : FileData}
    {entry : Directory} {i j : Fin 10}
  {c n sector take fuel byteCount : Nat} {cs : List Nat}

/-! ## The volume -/

/-- The entry of the file allocation table, all 32 bits. -/
def entryOf (content : Content) (v : Layout) (c : Nat) : Nat :=
  le32 content (v.boot.reservedSectors * 512 + c * 4)

/-- The first sector of a cluster. -/
def sectorOf (v : Layout) (c : Nat) : Nat := v.dataSectionLba + (c - 2) * v.boot.sectorsPerCluster

def clusterBytes (content : Content) (v : Layout) (c : Nat) : List Byte :=
  slice content (sectorOf v c * 512) (v.boot.sectorsPerCluster * 512)

/-- `cs` is the chain of a file with this first cluster and size: each link is the 28
bits of an entry, and the entries of the volume have no others. -/
structure FileChain (content : Content) (v : Layout) (entry : Directory) (cs : List Nat) : Prop where
  first : ∀ c ∈ cs.head?, entry.firstCluster = c
  links : cs.IsChain fun c d => entryOf content v c % 2 ^ 28 = d
  reserved : ∀ c ∈ cs, entryOf content v c < 2 ^ 28
  clusters : ∀ c ∈ cs, 2 ≤ c ∧ c < 2 ^ 28 ∧ c * 4 / 512 < v.sectorsPerFat
  long : entry.size.toNat ≤ cs.length * (v.boot.sectorsPerCluster * 512)

/-- The sectors of the table and of the chain can be read. -/
structure Served (content : Content) (v : Layout) (read : Reader) (cs : List Nat) : Prop where
  table : ∀ n < v.sectorsPerFat, Reads read content (v.boot.reservedSectors + n) 5
  clusters : ∀ c ∈ cs, ∀ j < v.boot.sectorsPerCluster, Reads read content (sectorOf v c + j) 1

/-! ## The file allocation table -/

/-- With this in the cache. -/
def FatData.withCache (g : FatData) (cashe : Vector Byte (5 * 512)) (position : Nat) : FatData :=
  { g with fatCashe := cashe, fatCashePosition := position }

@[simp]
theorem withCache_fatCashe (g : FatData) (cashe : Vector Byte (5 * 512)) (position : Nat) :
    (g.withCache cashe position).fatCashe = cashe := rfl

@[simp]
theorem withCache_fatCashePosition (g : FatData) (cashe : Vector Byte (5 * 512)) (position : Nat) :
    (g.withCache cashe position).fatCashePosition = position := rfl

@[simp]
theorem withCache_toLayout (g : FatData) (cashe : Vector Byte (5 * 512)) (position : Nat) :
    (g.withCache cashe position).toLayout = g.toLayout := rfl

/-- The cache is empty or holds the sectors from its position on. -/
def Cached (content : Content) (g : FatData) : Prop :=
  g.fatCashePosition = 0xFFFFFFFF ∨ g.fatCashePosition < 2 ^ 21 ∧
    g.fatCashe = sectors content (g.boot.reservedSectors + g.fatCashePosition) 5

theorem bytesOf_sectors {count i : Nat} (inside : i < count * 512) :
    bytesOf (sectors content n count) i = content (n * 512 + i) := by
  simp [bytesOf, sectors, inside]

theorem le32_bytesOf {count i j : Nat} (inside : i + 3 < count * 512) (same : n * 512 + i = j) :
    le32 (bytesOf (sectors content n count)) i = le32 content j := by
  subst same
  have at_byte : ∀ k < 4, bytesOf (sectors content n count) (i + k) = content (n * 512 + i + k) :=
    fun k small => by
    rw [bytesOf_sectors (by omega), Nat.add_assoc]
  simp only [le32, le16, Nat.add_assoc, Nat.reduceAdd] at at_byte ⊢
  rw [at_byte 1 (by omega), at_byte 2 (by omega), at_byte 3 (by omega), bytesOf_sectors (by omega)]

/-- The sector of a cluster's entry is in the cache afterwards, and the entry is what
is returned. -/
theorem fatNextCluster_spec (cached : Cached content g) (small : c < 2 ^ 28)
    (reads : Reads read content (g.boot.reservedSectors + c * 4 / 512) 5) :
    ∃ cashe position, g.fatNextCluster read c = (g.withCache cashe position, entryOf content g.toLayout c) ∧
      Cached content (g.withCache cashe position) := by
  have index : u32 (c * 4) = c * 4 := u32_of_lt (by omega)
  -- What the table gives once the cache holds the sector.
  have entry : ∀ position, position ≤ c * 4 / 512 → c * 4 / 512 < position + 5 →
      le32 (bytesOf (sectors content (g.boot.reservedSectors + position) 5))
        (sub32 (c * 4) (u32 (position * 512))) = entryOf content g.toLayout c := fun position low high => by
    have offset : sub32 (c * 4) (u32 (position * 512)) = c * 4 - position * 512 := by
      simp only [sub32, u32]
      omega
    rw [offset, entryOf]
    exact le32_bytesOf (by omega) (by omega)
  have bound : c * 4 / 512 < 2 ^ 21 := by omega
  by_cases missed : c * 4 / 512 < g.fatCashePosition ∨ u32 (g.fatCashePosition + 5) ≤ c * 4 / 512
  · have loaded : g.readFat read (c * 4 / 512) =
        { g with fatCashe := sectors content (g.boot.reservedSectors + c * 4 / 512) 5 } := by
      simp only [FatData.readFat, u32_of_lt reads.1, reads.2]
    refine ⟨sectors content (g.boot.reservedSectors + c * 4 / 512) 5, c * 4 / 512, ?_, .inr ⟨bound, ?_⟩⟩
    · rw [← index] at missed
      rw [FatData.fatNextCluster, if_pos missed]
      simp only [index, loaded]
      rw [entry _ (by omega) (by omega), FatData.withCache]
    · rw [withCache_fatCashe, withCache_toLayout, withCache_fatCashePosition]
  · obtain ⟨low, high⟩ := not_or.mp missed
    rcases cached with empty | ⟨inside, holds⟩
    · rw [empty] at low
      exact absurd (bound.trans (by decide)) low
    · refine ⟨g.fatCashe, g.fatCashePosition, ?_, .inr ⟨inside, holds⟩⟩
      rw [u32_of_lt (by omega)] at high
      rw [← index] at missed
      rw [FatData.fatNextCluster, if_neg missed]
      simp only [index]
      rw [holds, entry _ (Nat.le_of_not_lt low) (Nat.lt_of_not_le high), ← holds, FatData.withCache]

/-! ## Following a file -/

/-- Slot `i` holds a regular file of this size. -/
structure Opened (entry : Directory) (i : Fin 10) (fd : FileData) : Prop where
  handle : fd.handle = .opened i
  regular : fd.isDirectory = false
  opened : fd.opened = true
  size : fd.size = entry.size.toNat
  within : fd.position ≤ fd.size

/-- The buffer holds this sector of the file, and the cluster and the sector in it are
the ones where it lies. -/
def Holds (content : Content) (v : Layout) (cs : List Nat) (sector : Nat) (fd : FileData) : Prop :=
  ∃ c, cs[sector / v.boot.sectorsPerCluster]? = some c ∧ fd.currentCluster = c ∧
    fd.sectorInCluster = sector % v.boot.sectorsPerCluster ∧
    fd.buffer = sectors content (sectorOf v c + sector % v.boot.sectorsPerCluster) 1

/-- Between calls the buffer holds the sector of the position, up to the end. -/
structure Tracks (content : Content) (v : Layout) (entry : Directory) (cs : List Nat) (i : Fin 10)
    (fd : FileData) : Prop extends Opened entry i fd where
  buffered : fd.position < fd.size → Holds content v cs (fd.position / 512) fd

/-- Nothing changes but slot `i` and the cache. -/
structure Touches (i : Fin 10) (g g' : FatData) : Prop where
  layout : g'.toLayout = g.toLayout
  others : ∀ j, j ≠ i → g'.openedFiles j = g.openedFiles j

theorem Touches.trans (first : Touches i g g') (second : Touches i g' g'') : Touches i g g'' :=
  ⟨second.layout.trans first.layout, fun j other => (second.others j other).trans (first.others j other)⟩

theorem touches_setFile (g : FatData) (fd : FileData) (i : Fin 10) : Touches i g (g.setFile fd (.opened i)) :=
  ⟨rfl, fun _ other => Function.update_of_ne other _ _⟩

theorem touches_withCache (g : FatData) (cashe : Vector Byte (5 * 512)) (position : Nat) (i : Fin 10) :
    Touches i g (g.withCache cashe position) :=
  ⟨rfl, fun _ _ => rfl⟩

@[simp]
theorem setFile_self (g : FatData) (fd : FileData) (i : Fin 10) :
    (g.setFile fd (.opened i)).openedFiles i = fd := by
  simp only [FatData.setFile, Function.update_self]

theorem clusterToLba_eq (low : 2 ≤ c) (bound : sectorOf g.toLayout c < 2 ^ 32) (small : c < 2 ^ 28) :
    g.clusterToLba c = sectorOf g.toLayout c := by
  have back : sub32 c 2 = c - 2 := by
    simp only [sub32, u32]
    omega
  rw [sectorOf] at bound ⊢
  rw [FatData.clusterToLba, back, u32_of_lt (Nat.lt_of_le_of_lt (Nat.le_add_left _ _) bound), u32_of_lt bound]

/-- The bytes copied out of the buffer are those of the file at the position. -/
theorem copied_eq (held : Holds content v cs (fd.position / 512) fd) (some_per : 0 < v.boot.sectorsPerCluster)
    (fits : fd.position % 512 + take ≤ 512) :
    (fd.buffer.toList.drop (fd.position % 512)).take take =
      ((cs.flatMap (clusterBytes content v)).drop fd.position).take take := by
  obtain ⟨c, found, _, _, buffer⟩ := held
  generalize fd.position = p at *
  have block : p / (v.boot.sectorsPerCluster * 512) * (v.boot.sectorsPerCluster * 512) +
      (p % 512 + 512 * (p / 512 % v.boot.sectorsPerCluster)) = p := by
    rw [Nat.mul_comm v.boot.sectorsPerCluster, ← Nat.mod_mul]
    exact Nat.div_add_mod' _ _
  rw [Nat.div_div_eq_div_mul, Nat.mul_comm 512] at found
  have below : p / 512 % v.boot.sectorsPerCluster < v.boot.sectorsPerCluster := Nat.mod_lt _ some_per
  have whole := flatMap_drop_take (f := clusterBytes content v) (fun c => slice_length) found
    (show p % 512 + 512 * (p / 512 % v.boot.sectorsPerCluster) + take ≤
      v.boot.sectorsPerCluster * 512 by omega)
  rw [block] at whole
  have held : fd.buffer.toList =
      slice content ((sectorOf v c + p / 512 % v.boot.sectorsPerCluster) * 512) (1 * 512) := by
    rw [buffer, sectors, Vector.toList_ofFn, slice_ofFn]
  have place : (sectorOf v c + p / 512 % v.boot.sectorsPerCluster) * 512 + p % 512 =
      sectorOf v c * 512 + (p % 512 + 512 * (p / 512 % v.boot.sectorsPerCluster)) := by
    omega
  rw [whole, held, slice_drop_take (by omega), clusterBytes, slice_drop_take (by omega), place]

/-- The sector after a used one lies in the same cluster or starts the next one. -/
theorem sector_succ (sector : Nat) (some_per : 0 < n) :
    sector % n + 1 < n ∧ (sector + 1) / n = sector / n ∧ (sector + 1) % n = sector % n + 1 ∨
    sector % n + 1 = n ∧ (sector + 1) / n = sector / n + 1 ∧ (sector + 1) % n = 0 := by
  have split : sector + 1 = n * (sector / n) + (sector % n + 1) := by
    rw [← Nat.add_assoc, Nat.div_add_mod]
  rcases Nat.lt_or_eq_of_le (Nat.mod_lt sector some_per) with inside | last
  · refine .inl ⟨inside, ?_, ?_⟩
    · rw [split, Nat.mul_add_div some_per, Nat.div_eq_of_lt inside, Nat.add_zero]
    · rw [split, Nat.mul_add_mod, Nat.mod_eq_of_lt inside]
  · have last : sector % n + 1 = n := last
    refine .inr ⟨last, ?_, ?_⟩
    · rw [split, Nat.mul_add_div some_per, last, Nat.div_self some_per]
    · rw [split, Nat.mul_add_mod, last, Nat.mod_self]

/-- The entry of a cluster that is not the last is the next cluster. -/
theorem FileChain.next (chain : FileChain content v entry cs) (found : cs[n]? = some c)
    (more : n + 1 < cs.length) :
    cs[n + 1]? = some (entryOf content v c) := by
  obtain ⟨bound, same⟩ := List.getElem?_eq_some_iff.mp found
  have link := List.isChain_iff_getElem.mp chain.links n more
  have whole := chain.reserved c (List.mem_of_getElem? found)
  rw [same, Nat.mod_eq_of_lt whole] at link
  rw [link, List.getElem?_eq_getElem more]

/-- The cluster where a position lies, and its sectors, as far as the file goes. -/
theorem FileChain.reaches (chain : FileChain content v entry cs) (some_per : 0 < v.boot.sectorsPerCluster)
    (short : sector * 512 < entry.size.toNat) : sector / v.boot.sectorsPerCluster < cs.length := by
  have long := chain.long
  rw [Nat.div_lt_iff_lt_mul some_per]
  apply Nat.lt_of_mul_lt_mul_right (a := 512)
  rw [Nat.mul_assoc]
  exact short.trans_le long

/-- The next sector is read, unless the file ends where the used one does. -/
theorem loadSector_spec (chain : FileChain content g.toLayout entry cs)
    (served : Served content g.toLayout read cs)
    (some_per : 0 < g.boot.sectorsPerCluster) (slot : Opened entry i fd) (small : fd.currentCluster < 2 ^ 28)
    (next : fd.position < fd.size →
      cs[fd.position / 512 / g.boot.sectorsPerCluster]? = some fd.currentCluster ∧
      fd.sectorInCluster = fd.position / 512 % g.boot.sectorsPerCluster) :
    ∃ fd' goesOn, g.loadSector read (.opened i) fd = (g.setFile fd' (.opened i), goesOn) ∧
      Tracks content g.toLayout entry cs i fd' ∧ fd'.position = fd.position ∧
        (fd.position < fd.size → goesOn = true) := by
  have delivers : fd.position < fd.size →
      read (u32 (g.clusterToLba fd.currentCluster + fd.sectorInCluster)) 1 =
      some (sectors content
        (sectorOf g.toLayout fd.currentCluster + fd.position / 512 % g.boot.sectorsPerCluster) 1) := by
    intro short
    obtain ⟨found, sectorIn⟩ := next short
    have member := List.mem_of_getElem? found
    obtain ⟨bound, done⟩ := served.clusters _ member _ (Nat.mod_lt (fd.position / 512) some_per)
    have lba := clusterToLba_eq (chain.clusters _ member).1
      (Nat.lt_of_le_of_lt (Nat.le_add_right _ _) bound) small
    rw [lba, sectorIn, u32_of_lt bound, done]
  have live : ¬ 0xFFFFFFF8 ≤ fd.currentCluster := by omega
  rw [FatData.loadSector, if_neg live]
  cases loaded : read (u32 (g.clusterToLba fd.currentCluster + fd.sectorInCluster)) 1 with
  | none =>
    have ended : ¬ fd.position < fd.size :=
      fun short => Option.some_ne_none _ ((delivers short).symm.trans loaded)
    exact ⟨fd, false, rfl, ⟨slot, fun short => absurd short ended⟩, rfl, fun short => absurd short ended⟩
  | some buffer =>
    refine ⟨{ fd with buffer }, true, rfl,
      ⟨⟨slot.handle, slot.regular, slot.opened, slot.size, slot.within⟩, ?_⟩, rfl,
      fun _ => rfl⟩
    intro short
    obtain ⟨found, sectorIn⟩ := next short
    exact ⟨fd.currentCluster, found, rfl, sectorIn, Option.some.inj (loaded.symm.trans (delivers short))⟩

theorem nextSector_opened (slot : (g.openedFiles i).handle = .opened i) : g.nextSector read (.opened i) =
    if g.boot.sectorsPerCluster ≤ u32 ((g.openedFiles i).sectorInCluster + 1) then
      (g.fatNextCluster read (g.openedFiles i).currentCluster).1.loadSector read (.opened i)
        { g.openedFiles i with
          sectorInCluster := 0
          currentCluster := (g.fatNextCluster read (g.openedFiles i).currentCluster).2 }
    else g.loadSector read (.opened i) { g.openedFiles i with
      sectorInCluster := u32 ((g.openedFiles i).sectorInCluster + 1) } := by
  rw [FatData.nextSector]
  split
  · rename_i root
    cases slot.symm.trans root
  · rfl

/-- When the buffer has been used up, the next sector takes its place. -/
theorem nextSector_spec (chain : FileChain content g.toLayout entry cs)
    (served : Served content g.toLayout read cs)
    (cached : Cached content g) (some_per : 0 < g.boot.sectorsPerCluster)
    (few : g.boot.sectorsPerCluster < 2 ^ 8)
    (slot : Opened entry i (g.openedFiles i)) (held : Holds content g.toLayout cs sector (g.openedFiles i))
    (used : (g.openedFiles i).position = (sector + 1) * 512) :
    ∃ g' goesOn, g.nextSector read (.opened i) = (g', goesOn) ∧ Touches i g g' ∧ Cached content g' ∧
      Tracks content g.toLayout entry cs i (g'.openedFiles i) ∧
      (g'.openedFiles i).position = (g.openedFiles i).position ∧
      ((g.openedFiles i).position < (g.openedFiles i).size → goesOn = true) := by
  obtain ⟨c, found, cluster, sectorIn, _⟩ := held
  have member := List.mem_of_getElem? found
  obtain ⟨low, small, inTable⟩ := chain.clusters c member
  have below : sector % g.boot.sectorsPerCluster < g.boot.sectorsPerCluster := Nat.mod_lt sector some_per
  have count : u32 ((g.openedFiles i).sectorInCluster + 1) = sector % g.boot.sectorsPerCluster + 1 := by
    rw [sectorIn, u32_of_lt (by omega)]
  have place : (g.openedFiles i).position / 512 = sector + 1 := by
    rw [used, Nat.mul_div_cancel _ (by decide)]
  rw [nextSector_opened slot.handle, count]
  rcases sector_succ sector some_per with ⟨inside, cluster', sector'⟩ | ⟨last, cluster', sector'⟩
  · rw [if_neg (by omega)]
    have moved : Opened entry i
        { g.openedFiles i with sectorInCluster := sector % g.boot.sectorsPerCluster + 1 } :=
      ⟨slot.handle, slot.regular, slot.opened, slot.size, slot.within⟩
    obtain ⟨fd', goesOn, done, tracks, kept, more⟩ :=
      loadSector_spec chain served some_per moved (cluster ▸ small)
      (fun _ => by
        rw [place, cluster', sector', cluster]
        exact ⟨found, rfl⟩)
    refine ⟨_, goesOn, done, touches_setFile g fd' i, cached, ?_, ?_, more⟩
    · rw [setFile_self]
      exact tracks
    · rw [setFile_self]
      exact kept
  · rw [if_pos (by omega)]
    obtain ⟨cashe, position, step, cached'⟩ := fatNextCluster_spec cached small (served.table _ inTable)
    rw [cluster, step]
    have moved : Opened entry i { g.openedFiles i with
        sectorInCluster := 0, currentCluster := entryOf content g.toLayout c } :=
      ⟨slot.handle, slot.regular, slot.opened, slot.size, slot.within⟩
    obtain ⟨fd', goesOn, done, tracks, kept, more⟩ :=
      loadSector_spec (g := g.withCache cashe position) chain served
      some_per moved (chain.reserved c member) (fun short => by
        have within : (sector + 1) * 512 < entry.size.toNat := by
          rw [← used, ← slot.size]
          exact short
        have length := chain.reaches some_per within
        rw [cluster'] at length
        rw [place, withCache_toLayout, cluster', sector']
        exact ⟨chain.next found length, rfl⟩)
    refine ⟨_, goesOn, done, (touches_withCache g cashe position i).trans (touches_setFile _ fd' i),
      cached', ?_, ?_, more⟩
    · rw [setFile_self]
      exact tracks
    · rw [setFile_self]
      exact kept

/-- The position moves, and the buffer with it. -/
theorem advance_spec (chain : FileChain content g.toLayout entry cs)
    (served : Served content g.toLayout read cs)
    (cached : Cached content g) (some_per : 0 < g.boot.sectorsPerCluster)
    (few : g.boot.sectorsPerCluster < 2 ^ 8)
    (tracks : Tracks content g.toLayout entry cs i (g.openedFiles i))
    (short : (g.openedFiles i).position < (g.openedFiles i).size)
    (fits : (g.openedFiles i).position % 512 + take ≤ 512)
    (inside : (g.openedFiles i).position + take ≤ (g.openedFiles i).size) :
    ∃ g' goesOn, g.advance read (.opened i) take = (g', goesOn) ∧ Touches i g g' ∧ Cached content g' ∧
      Tracks content g.toLayout entry cs i (g'.openedFiles i) ∧
      (g'.openedFiles i).position = (g.openedFiles i).position + take ∧
      ((g.openedFiles i).position + take < (g.openedFiles i).size → goesOn = true) := by
  obtain ⟨⟨handle, regular, opened, size, within⟩, buffered⟩ := tracks
  have exact : u32 ((g.openedFiles i).position + take) = (g.openedFiles i).position + take := by
    refine u32_of_lt (inside.trans_lt ?_)
    rw [size]
    exact entry.size.isLt
  simp only [FatData.advance, FatData.file, exact]
  have moved := touches_setFile g { g.openedFiles i with position := (g.openedFiles i).position + take } i
  have slot : Opened entry i { g.openedFiles i with position := (g.openedFiles i).position + take } :=
    ⟨handle, regular, opened, size, inside⟩
  split
  · rename_i used_up
    have used : (g.openedFiles i).position + take = ((g.openedFiles i).position / 512 + 1) * 512 := by
      omega
    have slot' : Opened entry i ((g.setFile { g.openedFiles i with
        position := (g.openedFiles i).position + take } (.opened i)).openedFiles i) := by
      rw [setFile_self]
      exact slot
    have held : Holds content g.toLayout cs ((g.openedFiles i).position / 512)
        ((g.setFile { g.openedFiles i with
        position := (g.openedFiles i).position + take } (.opened i)).openedFiles i) := by
      rw [setFile_self]
      exact buffered short
    obtain ⟨g', goesOn, done, touches, cached', tracks', position, more⟩ := nextSector_spec
      (g := g.setFile { g.openedFiles i with position := (g.openedFiles i).position + take }
        (.opened i)) chain served
      cached some_per few slot' held (by rw [setFile_self]; exact used)
    rw [setFile_self] at position more
    exact ⟨g', goesOn, done, moved.trans touches, cached', tracks', position, more⟩
  · refine ⟨_, true, rfl, moved, cached, ?_, by rw [setFile_self], fun _ => rfl⟩
    rw [setFile_self]
    refine ⟨slot, fun _ => ?_⟩
    have same : ((g.openedFiles i).position + take) / 512 = (g.openedFiles i).position / 512 := by
      omega
    show Holds content g.toLayout cs (((g.openedFiles i).position + take) / 512) _
    rw [same]
    exact buffered short

/-- What one pass and the rest of the loop copy. -/
theorem readLoop_succ {goesOn : Bool} {copied : List Byte} (some_left : byteCount ≠ 0)
    (taken : min byteCount (512 - (g.openedFiles i).position % 512) = take)
    (copies : ((g.openedFiles i).buffer.toList.drop ((g.openedFiles i).position % 512)).take take = copied)
    (passed : g.advance read (.opened i) take = (g', goesOn)) :
    g.readLoop read (.opened i) (fuel + 1) byteCount = if goesOn then
        ((g'.readLoop read (.opened i) fuel (byteCount - take)).1,
          copied ++ (g'.readLoop read (.opened i) fuel (byteCount - take)).2.1,
          take + (g'.readLoop read (.opened i) fuel (byteCount - take)).2.2)
      else (g', copied, take) := by
  subst taken copies
  rw [FatData.readLoop, if_neg some_left]
  simp only [FatData.file, passed]

/-- The loop copies what the file holds at the position. -/
theorem readLoop_spec (chain : FileChain content v entry cs) (served : Served content v read cs)
    (some_per : 0 < v.boot.sectorsPerCluster) (few : v.boot.sectorsPerCluster < 2 ^ 8)
    (layout : g.toLayout = v)
    (cached : Cached content g) (tracks : Tracks content v entry cs i (g.openedFiles i))
    (enough : byteCount ≤ fuel)
    (inside : (g.openedFiles i).position + byteCount ≤ (g.openedFiles i).size) :
    ∃ g', g.readLoop read (.opened i) fuel byteCount =
        (g', ((cs.flatMap (clusterBytes content v)).drop (g.openedFiles i).position).take byteCount,
          byteCount) ∧
      Touches i g g' ∧ Cached content g' ∧ Tracks content v entry cs i (g'.openedFiles i) ∧
      (g'.openedFiles i).position = (g.openedFiles i).position + byteCount := by
  induction fuel generalizing g byteCount with
  | zero =>
    cases Nat.le_zero.mp enough
    exact ⟨g, by rw [List.take_zero]; rfl, ⟨rfl, fun _ _ => rfl⟩, cached, tracks, rfl⟩
  | succ fuel ih =>
    by_cases none_left : byteCount = 0
    · subst none_left
      rw [FatData.readLoop, if_pos rfl, List.take_zero]
      exact ⟨g, rfl, ⟨rfl, fun _ _ => rfl⟩, cached, tracks, rfl⟩
    · subst layout
      have short : (g.openedFiles i).position < (g.openedFiles i).size := by omega
      obtain ⟨take, taken⟩ : ∃ take, min byteCount (512 - (g.openedFiles i).position % 512) = take := ⟨_, rfl⟩
      have fits : (g.openedFiles i).position % 512 + take ≤ 512 := by omega
      obtain ⟨g', goesOn, passed, touches, cached', tracks', position, more⟩ :=
        advance_spec chain served cached some_per few tracks short fits (by omega)
      rw [readLoop_succ none_left taken (copied_eq (tracks.buffered short) some_per fits) passed]
      have size : (g'.openedFiles i).size = (g.openedFiles i).size := tracks'.size.trans tracks.size.symm
      cases goesOn with
      | true =>
        obtain ⟨g'', done, touches', cached'', tracks'', position'⟩ := ih touches.layout cached' tracks'
          (show byteCount - take ≤ fuel by omega) (by omega)
        refine ⟨g'', ?_, touches.trans touches', cached'', tracks'', by omega⟩
        have whole : take + (byteCount - take) = byteCount := by omega
        rw [if_pos rfl, done, position, ← List.drop_drop, ← List.take_add, whole]
      | false =>
        have all : take = byteCount := by
          by_contra some_more
          exact Bool.false_ne_true (more (by omega))
        rw [all] at position ⊢
        exact ⟨g', rfl, touches, cached', tracks', position⟩

/-- `fat_read` copies what the file holds at the position, as far as it goes, and
returns how much that is. -/
theorem fatRead_spec (chain : FileChain content v entry cs) (served : Served content v read cs)
    (some_per : 0 < v.boot.sectorsPerCluster) (few : v.boot.sectorsPerCluster < 2 ^ 8)
    (layout : g.toLayout = v)
    (cached : Cached content g) (tracks : Tracks content v entry cs i (g.openedFiles i)) (byteCount : Nat) :
    ∃ g', g.fatRead read (.opened i) byteCount = (g',
        ((cs.flatMap (clusterBytes content v)).drop (g.openedFiles i).position).take
          (min byteCount (entry.size.toNat - (g.openedFiles i).position)),
        min byteCount (entry.size.toNat - (g.openedFiles i).position)) ∧
      Touches i g g' ∧ Cached content g' ∧ Tracks content v entry cs i (g'.openedFiles i) ∧
      (g'.openedFiles i).position = (g.openedFiles i).position +
        min byteCount (entry.size.toNat - (g.openedFiles i).position) := by
  have within := tracks.within
  have rest : sub32 (g.openedFiles i).size (g.openedFiles i).position =
      entry.size.toNat - (g.openedFiles i).position := by
    have bound := entry.size.isLt
    rw [← tracks.size] at bound ⊢
    simp only [sub32, u32]
    omega
  have limited : g.fatRead read (.opened i) byteCount = g.readLoop read (.opened i)
      (min byteCount (entry.size.toNat - (g.openedFiles i).position))
      (min byteCount (entry.size.toNat - (g.openedFiles i).position)) := by
    simp only [FatData.fatRead, FatData.file, tracks.regular, Bool.not_false, Bool.true_or, if_true, rest]
  rw [limited]
  apply readLoop_spec chain served some_per few layout cached tracks (Nat.le_refl _)
  rw [tracks.size] at within ⊢
  omega

/-! ## Opening -/

theorem fatOpenEntry_eq (read : Reader) (g : FatData) (entry : Directory) :
    g.fatOpenEntry read entry = (g, none) ∨ ∃ i fd, (g.openedFiles i).opened = false ∧
      (g.fatOpenEntry read entry = (g.setFile fd (.opened i), none) ∨
        ∃ buffer, read (g.clusterToLba entry.firstCluster) 1 = some buffer ∧
          g.fatOpenEntry read entry = (g.setFile fd (.opened i), some i) ∧ fd.handle = .opened i ∧
          fd.isDirectory = entry.isDirectory ∧ fd.opened = true ∧ fd.size = entry.size.toNat ∧
            fd.position = 0 ∧
          fd.currentCluster = entry.firstCluster ∧ fd.sectorInCluster = 0 ∧ fd.buffer = buffer) := by
  unfold FatData.fatOpenEntry
  cases free : (List.finRange 10).find? fun i => !(g.openedFiles i).opened with
  | none => exact .inl rfl
  | some i =>
    have unused : (g.openedFiles i).opened = false := by simpa using List.find?_some free
    right
    dsimp only
    cases loaded : read (g.clusterToLba entry.firstCluster) 1 with
    | none => exact ⟨i, _, unused, .inl rfl⟩
    | some buffer => exact ⟨i, _, unused, .inr ⟨buffer, rfl, rfl, rfl, rfl, rfl, rfl, rfl, rfl, rfl, rfl⟩⟩

end Laomb.FS
