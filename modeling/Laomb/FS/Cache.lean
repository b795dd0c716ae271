import Mathlib.Tactic.Ring
import Laomb.FS.FileRead
import Laomb.FS.Effects

/-! The cache of the file allocation table. Sectors past the table may fail to be read, and
the cache then claims to hold them; what it claims to hold of the table itself is right. -/
namespace Laomb.FS
open Word

variable {content : Content} {read : Reader} {g g' : FatData} {fd : FileData} {h : Handle} {c k fuel n : Nat}
    {shortName : Vector Byte 11} {r : Option DirEntry}

/-- Every sector of the table can be read, with the four behind it. -/
def TableReads (content : Content) (v : Layout) (read : Reader) : Prop :=
  ∀ n < v.sectorsPerFat, Reads read content (v.boot.reservedSectors + n) 5

/-- The sectors of the table that the cache claims to hold are in it. -/
def Fresh (content : Content) (g : FatData) : Prop :=
  ∀ n < g.sectorsPerFat, g.fatCashePosition ≤ n → n < u32 (g.fatCashePosition + 5) → ∀ i < 512,
    bytesOf g.fatCashe ((n - g.fatCashePosition) * 512 + i) = content ((g.boot.reservedSectors + n) * 512 + i)

theorem Fresh.empty (empty : g.fatCashePosition = 0xFFFFFFFF) : Fresh content g := by
  intro n _ low high
  rw [empty] at low high
  simp only [u32] at high
  omega

/-- After loading, whether that succeeds or not. -/
theorem fresh_loaded (table : TableReads content g.toLayout read) {m : Nat} (small : m < 2 ^ 23) :
    Fresh content { g.readFat read m with fatCashePosition := m } := by
  intro n inside low high i byte
  unfold FatData.readFat at *
  cases loaded : read (u32 (g.boot.reservedSectors + m)) 5 with
  | none =>
    simp only [loaded] at inside low high ⊢
    obtain ⟨bound, done⟩ := table m (Nat.lt_of_le_of_lt low inside)
    rw [u32_of_lt bound, done] at loaded
    cases loaded
  | some cashe =>
    simp only [loaded] at inside low high ⊢
    obtain ⟨bound, done⟩ := table m (Nat.lt_of_le_of_lt low inside)
    rw [u32_of_lt bound, done] at loaded
    obtain rfl := Option.some.inj loaded
    rw [u32_of_lt (by omega)] at high
    have place : (g.boot.reservedSectors + m) * 512 + ((n - m) * 512 + i) =
        (g.boot.reservedSectors + n) * 512 + i := by
      obtain ⟨k, rfl⟩ := Nat.exists_eq_add_of_le low
      rw [Nat.add_sub_cancel_left]
      ring
    rw [bytesOf_sectors (by omega), place]

/-- A lookup keeps the cache right, whatever it looks up. -/
theorem Fresh.next (fresh : Fresh content g) (table : TableReads content g.toLayout read) (c : Nat) :
    Fresh content (g.fatNextCluster read c).1 := by
  have word : u32 (c * 4) < 2 ^ 32 := u32_lt _
  unfold FatData.fatNextCluster
  dsimp only
  split
  · exact fresh_loaded table (by omega)
  · exact fresh

/-! Reading keeps it right, whatever is read. -/
namespace Fresh

theorem setFile (fresh : Fresh content g) (fd : FileData) (h : Handle) : Fresh content (g.setFile fd h) := by
  cases h with
  | root => exact fresh
  | opened i => exact fresh

theorem loadSector (fresh : Fresh content g) (read : Reader) (fd : FileData) (h : Handle) :
    Fresh content (g.loadSector read h fd).1 := by
  unfold FatData.loadSector
  split
  · exact fresh.setFile _ h
  · cases read (u32 (g.clusterToLba fd.currentCluster + fd.sectorInCluster)) 1 with
    | none => exact fresh.setFile _ h
    | some buffer => exact fresh.setFile _ h

theorem nextSector (fresh : Fresh content g) (table : TableReads content g.toLayout read) (h : Handle) :
    Fresh content (g.nextSector read h).1 := by
  unfold FatData.nextSector
  dsimp only
  cases (g.file h).handle with
  | root =>
    dsimp only
    cases read (u32 ((g.file h).currentCluster + 1)) 1 with
    | none => exact fresh.setFile _ h
    | some buffer => exact fresh.setFile _ h
  | opened i =>
    dsimp only
    split
    · exact (fresh.next table (g.file h).currentCluster).loadSector read _ h
    · exact fresh.loadSector read _ h

theorem advance (fresh : Fresh content g) (table : TableReads content g.toLayout read) (h : Handle)
    (take : Nat) :
    Fresh content (g.advance read h take).1 := by
  have moved := fresh.setFile { g.file h with position := u32 ((g.file h).position + take) } h
  unfold FatData.advance
  dsimp only
  split
  · exact moved.nextSector (layout_setFile g _ h ▸ table) h
  · exact moved

theorem readLoop (fresh : Fresh content g) (table : TableReads content g.toLayout read) (h : Handle)
    (fuel byteCount : Nat) : Fresh content (g.readLoop read h fuel byteCount).1 := by
  induction fuel generalizing g byteCount with
  | zero => exact fresh
  | succ fuel ih =>
    unfold FatData.readLoop
    split
    · exact fresh
    · have step := fresh.advance table h (min byteCount (512 - (g.file h).position % 512))
      have kept := Moved.advance read g h (min byteCount (512 - (g.file h).position % 512))
      dsimp only
      generalize g.advance read h (min byteCount (512 - (g.file h).position % 512)) = result at step kept
      obtain ⟨g', goesOn⟩ := result
      cases goesOn with
      | false => exact step
      | true => exact ih step (kept.layout ▸ table) _

theorem findLoop (fresh : Fresh content g) (table : TableReads content g.toLayout read)
    (done : FatData.findLoop (fun _ => read) h shortName fuel n g = some (g', r)) : Fresh content g' := by
  induction fuel generalizing n g with
  | zero => cases done
  | succ fuel ih =>
    have step : Fresh content (g.fatReadEntry read h).1 := fresh.readLoop table h _ _
    have kept := Moved.fatReadEntry read g h
    rw [FatData.findLoop] at done
    generalize g.fatReadEntry read h = result at step kept done
    obtain ⟨g₁, _ | found⟩ := result
    · cases done
      exact step
    · dsimp only at done
      split at done
      · cases done
        exact step
      · exact ih step (kept.layout ▸ table) done

end Fresh

/-- Four bytes of the table in the cache. -/
theorem Fresh.le32 (fresh : Fresh content g) {n i : Nat} (inside : n < g.sectorsPerFat)
    (low : g.fatCashePosition ≤ n)
    (high : n < u32 (g.fatCashePosition + 5)) (byte : i + 3 < 512) :
    le32 (bytesOf g.fatCashe) ((n - g.fatCashePosition) * 512 + i) =
      le32 content ((g.boot.reservedSectors + n) * 512 + i) := by
  have at_byte := fresh n inside low high
  simp only [FS.le32, le16, Nat.add_assoc, Nat.reduceAdd]
  rw [at_byte i (by omega), at_byte (i + 1) (by omega), at_byte (i + 2) (by omega),
    at_byte (i + 3) (by omega)]

/-- A lookup in the table gives its entry. -/
theorem Fresh.entry (fresh : Fresh content g) (table : TableReads content g.toLayout read)
    (small : c < 2 ^ 28)
    (inside : c * 4 / 512 < g.sectorsPerFat) : (g.fatNextCluster read c).2 =
      entryOf content g.toLayout c := by
  have index : u32 (c * 4) = c * 4 := u32_of_lt (by omega)
  have word : c * 4 / 512 < 2 ^ 21 := by omega
  have place : (g.boot.reservedSectors + c * 4 / 512) * 512 + c * 4 % 512 =
      g.boot.reservedSectors * 512 + c * 4 := by
    omega
  unfold FatData.fatNextCluster
  simp only [index]
  split
  · have loaded := fresh_loaded (g := g) table (m := c * 4 / 512) (by omega)
    have offset : sub32 (c * 4) (u32 (c * 4 / 512 * 512)) =
        (c * 4 / 512 - c * 4 / 512) * 512 + c * 4 % 512 := by
      simp only [sub32, u32]
      omega
    have layout : (g.readFat read (c * 4 / 512)).toLayout = g.toLayout := by
      unfold FatData.readFat
      cases read (u32 (g.boot.reservedSectors + c * 4 / 512)) 5 with
      | none => rfl
      | some => rfl
    have word4 :=
      loaded.le32 (n := c * 4 / 512) (i := c * 4 % 512) (by rw [layout]; exact inside) (Nat.le_refl _)
      (show c * 4 / 512 < u32 (c * 4 / 512 + 5) by rw [u32_of_lt (by omega)]; omega) (by omega)
    simp only [layout] at word4
    rw [offset, word4, place, entryOf]
  · rename_i cached
    obtain ⟨low, high⟩ := not_or.mp cached
    have word4 := fresh.le32 (i := c * 4 % 512) inside (by omega) (by omega) (by omega)
    have offset : sub32 (c * 4) (u32 (g.fatCashePosition * 512)) =
        (c * 4 / 512 - g.fatCashePosition) * 512 + c * 4 % 512 := by
      simp only [sub32, u32]
      omega
    rw [offset, word4, place, entryOf]

/-- The same layout and cache; what the files are does not matter to a lookup. -/
structure SameCache (g g' : FatData) : Prop where
  layout : g'.toLayout = g.toLayout
  cashe : g'.fatCashe = g.fatCashe
  position : g'.fatCashePosition = g.fatCashePosition

theorem SameCache.setFile (g : FatData) (fd : FileData) (h : Handle) : SameCache g (g.setFile fd h) := by
  cases h with
  | root => exact ⟨rfl, rfl, rfl⟩
  | opened i => exact ⟨rfl, rfl, rfl⟩

theorem SameCache.trans {g'' : FatData} (first : SameCache g g') (second : SameCache g' g'') :
    SameCache g g'' :=
  ⟨second.layout.trans first.layout, second.cashe.trans first.cashe, second.position.trans first.position⟩

theorem SameCache.next (same : SameCache g g') (read : Reader) (c : Nat) :
    (g'.fatNextCluster read c).2 = (g.fatNextCluster read c).2 ∧
      SameCache (g.fatNextCluster read c).1 (g'.fatNextCluster read c).1 := by
  obtain ⟨layout, cashe, position⟩ := same
  unfold FatData.fatNextCluster FatData.readFat
  simp only [layout, position]
  split
  · cases read (u32 (g.boot.reservedSectors + u32 (c * 4) / 512)) 5 with
    | none => exact ⟨by simp only [cashe], layout, cashe, rfl⟩
    | some cashe => exact ⟨rfl, rfl, rfl, rfl⟩
  · exact ⟨by rw [cashe, position], layout, cashe, position⟩

/-- The clusters that `fat_next_cluster` gives from a cluster on, with the cache as it changes. -/
def trail (read : Reader) (g : FatData) (c : Nat) : Nat → FatData × Nat
  | 0 => (g, c)
  | k + 1 => (trail read g c k).1.fatNextCluster read (trail read g c k).2

end Laomb.FS
