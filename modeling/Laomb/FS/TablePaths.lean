import Laomb.FS.Lockstep
import Laomb.FS.Search

/-! Paths whose lookups stay in the table, by what the volume holds: the first name is in the first
sector of the root directory, and each of the others in the chain of its directory. -/
namespace Laomb.FS
open Word Loop

variable {content : Content} {read : Reader} {v : Layout} {g g' g₀ : FatData} {i : Fin 10}
    {shortName : Vector Byte 11} {name : Nat → Byte} {cs : List Nat}
    {k first last fuel : Nat} {junk : Nat → Nat → Byte} {ps : List (List Byte × Bool)} {entry : DirEntry}

/-! ## A search that finds its name -/

/-- The search is in a sector up to `last`, and the entries before its position have other names. -/
def Midway (read : Reader) (g₀ : FatData) (first : Nat) (shortName : Vector Byte 11) (i : Fin 10)
    (last : Nat) (g : FatData) : Prop :=
  ∃ t ≤ last, ∃ j < 16, ∃ g', AtSector read g₀ first shortName i t g' ∧ g = g'.atSlot (.opened i) j ∧
    ∀ k < j, shortName ≠ (slot (g'.file (.opened i)).buffer (32 * k)).name

theorem AtSector.midway (here : AtSector read g₀ first shortName i 0 g) :
    Midway read g₀ first shortName i last g := by
  have start := here.start
  exact ⟨0, Nat.zero_le last, 0, by decide, g, here, (atSlot_same (by omega)).symm, nofun⟩

/-- One more entry, as long as the name is still ahead. -/
theorem Midway.step (midway : Midway read g₀ first shortName i last g)
    (some_per : 0 < g₀.boot.sectorsPerCluster) (few : g₀.boot.sectorsPerCluster < 2 ^ 8)
    (found : MatchesAt read g₀ first shortName last) (ongoing : ∀ s ≤ last, ¬ EndsAt read g₀ first s)
    (step : g.findStep read (.opened i) shortName = .inl g') : Midway read g₀ first shortName i last g' := by
  obtain ⟨t, inside, j, below, g, here, rfl, others⟩ := midway
  rw [findStep_slot _ _ (listing_atSlot here.listing below), slot_atSlot] at step
  split at step
  · cases step
  · rename_i differs
    obtain rfl := Sum.inl.inj step
    by_cases whole : j = 15
    · subst whole
      -- all sixteen names are others, so the sector is not yet the one with the name
      have missed : ¬ MatchesAt read g₀ first shortName t := fun there => by
        obtain ⟨k, entry, same⟩ := here.carries_iff.mpr there
        rcases Nat.lt_or_eq_of_le (Nat.le_of_lt_succ entry) with before | rfl
        · exact others k before same
        · exact differs same
      have further : t < last := Nat.lt_of_le_of_ne inside fun same => missed (same ▸ found)
      obtain ⟨G, fd, arrives, refilled⟩ := here.refill some_per few missed
      have next := arrives.goesOn (ongoing (t + 1) further)
      rw [← refilled] at next
      have start := next.start
      rw [advance_last]
      exact ⟨t + 1, further, 0, by decide, _, next, (atSlot_same (by omega)).symm, nofun⟩
    · refine ⟨t, inside, j + 1, by omega, g, here, advance_atSlot _ (by omega) here.listing.word, ?_⟩
      intro k before
      rcases Nat.lt_or_eq_of_le (Nat.le_of_lt_succ before) with earlier | rfl
      · exact others k earlier
      · exact differs

/-- The whole way to a sector with the name. -/
theorem Midway.goes (midway : Midway read g₀ first shortName i last g)
    (some_per : 0 < g₀.boot.sectorsPerCluster) (few : g₀.boot.sectorsPerCluster < 2 ^ 8)
    (found : MatchesAt read g₀ first shortName last) (ongoing : ∀ s ≤ last, ¬ EndsAt read g₀ first s)
    (goes : Goes (FatData.findStep read (.opened i) shortName) k g g') :
    Midway read g₀ first shortName i last g' := by
  induction goes with
  | zero => exact midway
  | succ step _ ih => exact ih (midway.step some_per few found ongoing step)

/-- An entry in the sectors of these clusters. -/
def EntryIn (content : Content) (v : Layout) (cs : List Nat) (entry : DirEntry) : Prop :=
  ∃ c ∈ cs, ∃ s < v.boot.sectorsPerCluster, ∃ j < 16,
    entry = slot (sectors content (sectorOf v c + s) 1) (32 * j)

section Chain

variable (chain : DirChain content g₀.toLayout first cs) (served : Served content g₀.toLayout read cs)
  (fresh : Fresh content g₀) (some_per : 0 < g₀.boot.sectorsPerCluster)
  (few : g₀.boot.sectorsPerCluster < 2 ^ 8) (start : AtSector read g₀ first shortName i 0 g₀)
  (carried : Carried content g₀.toLayout cs shortName)
include chain served fresh some_per few start carried

/-- Until it ends, the search for a name of the chain is in the chain. -/
theorem goes_chain (goes : Goes (FatData.findStep read (.opened i) shortName) k g₀ g) :
    ∃ t j g', t < cs.length * g₀.boot.sectorsPerCluster ∧ j < 16 ∧ AtSector read g₀ first shortName i t g' ∧
      g = g'.atSlot (.opened i) j := by
  obtain ⟨last, inside, found⟩ := carried_matches chain fresh served carried
  have ongoing : ∀ s ≤ last, ¬ EndsAt read g₀ first s := fun s before =>
    chain_ongoing chain fresh served some_per (before.trans_lt inside)
  have midway : Midway read g₀ first shortName i last g₀ := start.midway
  obtain ⟨t, before, j, below, g', here, there, _⟩ := midway.goes some_per few found ongoing goes
  exact ⟨t, j, g', before.trans_lt inside, below, here, there⟩

/-- The clusters that it looks up are in the table. -/
theorem searchesTable_chain : SearchesTable read (.opened i) shortName g₀ := by
  intro k g goes _
  obtain ⟨t, j, g', inside, _, here, rfl⟩ := goes_chain chain served fresh some_per few start carried goes
  have below : t / g₀.boot.sectorsPerCluster < cs.length := (Nat.div_lt_iff_lt_mul some_per).mpr inside
  have cluster := here.cluster
  rw [trail_chain chain fresh served.table (List.getElem?_eq_getElem below)] at cluster
  have layout : g'.toLayout = g₀.toLayout := here.cache.layout.trans (trail_layout read g₀ first _)
  obtain ⟨_, small, inTable⟩ := chain.clusters _ (List.getElem_mem below)
  right
  rw [file_atSlot, FatData.atSlot, layout_setFile, layout]
  dsimp only
  rw [cluster]
  exact ⟨small, inTable⟩

/-- What it finds is an entry of the chain. -/
theorem found_chain
    (done : loop (FatData.findStep read (.opened i) shortName) fuel g₀ = some (g, some entry)) :
    EntryIn content g₀.toLayout cs entry ∧ entry.name = shortName := by
  obtain ⟨k, before, goes, ends⟩ := loop_result done
  obtain ⟨t, j, g', inside, entries, here, rfl⟩ :=
    goes_chain chain served fresh some_per few start carried goes
  rw [findStep_slot _ _ (listing_atSlot here.listing entries), slot_atSlot] at ends
  split at ends
  · rename_i same
    obtain rfl := Option.some.inj (congrArg Prod.snd (Sum.inr.inj ends))
    have below : t / g₀.boot.sectorsPerCluster < cs.length := (Nat.div_lt_iff_lt_mul some_per).mpr inside
    have sector : t % g₀.boot.sectorsPerCluster < g₀.boot.sectorsPerCluster := Nat.mod_lt t some_per
    obtain ⟨low, small, _⟩ := chain.clusters _ (List.getElem_mem below)
    obtain ⟨bound, reads⟩ := served.clusters _ (List.getElem_mem below) _ sector
    have loaded := here.loaded
    rw [trail_chain chain fresh served.table (List.getElem?_eq_getElem below),
      clusterToLba_eq low (Nat.lt_of_le_of_lt (Nat.le_add_right _ _) bound) small, u32_of_lt bound] at loaded
    have buffer := loaded _ (by omega) reads
    exact ⟨⟨_, List.getElem_mem below, _, sector, j, entries, by rw [buffer]⟩, same.symm⟩
  · cases ends

end Chain

/-! ## The whole path -/

/-- From its `k`-th pass on, the names that `FAT_Open` looks up are in the chains of the directories:
the first in that of `directory`, the others in those of all entries that may be found on the way. -/
def ChainsCarry (content : Content) (v : Layout) (read : Reader) (junk : Nat → Nat → Byte) :
    (k : Nat) → (passes : List (List Byte × Bool)) → (name : Nat → Byte) → Directory → Prop
  | _, [], _, _ => True
  | k, (token, isLast) :: passes, name, directory =>
    let name := copyToken name token isLast
    let shortName := getShortName (junk k) (nameString name token)
    directory.isDirectory = true ∧ directory.size.toNat = 0 ∧
    ∃ cs, DirChain content v directory.firstCluster cs ∧ Served content v read cs ∧
      Carried content v cs shortName ∧
      ∀ entry, EntryIn content v cs entry → entry.name = shortName → isLast = true ∨ entry.isDirectory = true →
        ChainsCarry content v read junk (k + 1) passes name entry.toDirectory

/-- In a directory just opened, the searches stay in the table. -/
theorem ChainsCarry.follows {directory : Directory}
    (carry : ChainsCarry content v read junk k ps name directory) (some_per : 0 < v.boot.sectorsPerCluster)
    (few : v.boot.sectorsPerCluster < 2 ^ 8) (layout : g₀.toLayout = v) (fresh : Fresh content g₀)
    (opens : g₀.fatOpenEntry read directory = (g, some i)) :
    FollowsTable read junk k ps g name (.opened i) := by
  induction ps generalizing k g₀ g name i directory with
  | nil => trivial
  | cons p ps ih =>
    obtain ⟨token, isLast⟩ := p
    obtain ⟨isDirectory, unsized, cs, chain, served, carried, rest⟩ := carry
    have opened := fatOpenEntry_opens read g₀ directory
    rw [opens] at opened
    cases opened with
    | opened i buffer _ loaded =>
      have layout' := (layout_setFile g₀ (.ofEntry directory i buffer) (.opened i)).trans layout
      have lba := clusterToLba_congr (layout_setFile g₀ (.ofEntry directory i buffer) (.opened i))
        directory.firstCluster
      have fresh' := fresh.setFile (.ofEntry directory i buffer) (.opened i)
      have file := file_setFile g₀ (.ofEntry directory i buffer) (.opened i)
      generalize g₀.setFile (.ofEntry directory i buffer) (.opened i) = g at layout' lba fresh' file
      subst layout'
      rw [← lba] at loaded
      have live : directory.firstCluster < 0xFFFFFFF8 := by
        obtain ⟨_, small, _⟩ := chain.clusters _ (List.mem_of_head? chain.first)
        omega
      have start : AtSector read g directory.firstCluster
          (getShortName (junk k) (nameString (copyToken name token isLast) token)) i 0 g :=
        atSector_zero file isDirectory unsized loaded live
      refine ⟨searchesTable_chain chain served fresh' some_per few start carried, ?_⟩
      intro fuel g' entry g'' i' found enters opens'
      have moved : Moved (.opened i) g g' := .findLoop found
      have searched : Fresh content g' := fresh'.findLoop served.table found
      have handle : (g.file (.opened i)).handle = .opened i := by
        rw [file, FileData.ofEntry]
      obtain ⟨closed, kept, _⟩ := @fatClose_spec content _ _ (moved.same.handle.trans handle) nofun
      rw [FatData.fatFindFile, findLoop_eq] at found
      obtain ⟨inside, named⟩ := found_chain chain served fresh' some_per few start carried found
      exact ih (rest entry inside named enters) (closed.trans moved.layout) (kept searched) opens'

/-- The first name of a path is in the first sector of the root directory, as the `j`-th entry, and
the directories behind it carry the others. -/
def PathCarried (content : Content) (v : Layout) (read : Reader) (junk : Nat → Nat → Byte)
    (name : Nat → Byte) (root : Vector Byte (1 * 512)) : List (List Byte × Bool) → Prop
  | [] => True
  | (token, isLast) :: passes =>
    let name := copyToken name token isLast
    let shortName := getShortName (junk 0) (nameString name token)
    ∃ j < 16, shortName = (slot root (32 * j)).name ∧ (∀ k < j, shortName ≠ (slot root (32 * k)).name) ∧
      (isLast = true ∨ (slot root (32 * j)).isDirectory = true →
        ChainsCarry content v read junk 1 passes name (slot root (32 * j)).toDirectory)

/-- Right after `fat_init`, the lookup of a path that the volume carries stays in the table. -/
theorem PathCarried.follows (initialised : fatInit read = some g)
    (carried : PathCarried content g.toLayout read junk name g.rootDirectory.buffer ps)
    (uncounted : g.boot.dirEntryCount = 0)
    (table : TableReads content g.toLayout read) (some_per : 0 < g.boot.sectorsPerCluster)
    (few : g.boot.sectorsPerCluster < 2 ^ 8) : FollowsTable read junk 0 ps g name .root := by
  cases ps with
  | nil => trivial
  | cons p ps =>
    obtain ⟨token, isLast⟩ := p
    obtain ⟨j, inside, same, others, rest⟩ := carried
    refine ⟨fun _ _ _ other => absurd rfl other, ?_⟩
    intro fuel g' entry g'' i found enters opens
    obtain ⟨buffer, _, root⟩ := fatInit_root initialised
    have file : g.file .root = .ofRoot g buffer := root
    have listing : Listing (g.file .root) := fatInit_listing initialised uncounted
    have start : (g.file .root).position = 0 := by
      rw [file, FileData.ofRoot]
    have moved : Moved .root g g' := .findLoop found
    have fresh' : Fresh content g' :=
      (Fresh.empty (Session.fatInit_some initialised).2.1).findLoop table found
    have handle : (g.file .root).handle = .root := by
      rw [file, FileData.ofRoot]
    obtain ⟨k, goes⟩ := goes_atSlot read listing inside (by omega) fun k before _ => others k before
    rw [FatData.fatFindFile, findLoop_eq] at found
    obtain rfl : slot g.rootDirectory.buffer (32 * j) = entry := Option.some.inj
      (congrArg Prod.snd (loop_unique (goes.ends (findStep_atSlot listing inside same)) found))
    have room : Room g' .root := Room.moved (fun _ => ⟨0, (Session.fatInit_some initialised).2.2 0⟩) moved
    obtain ⟨layout, kept, _⟩ := @fatClose_spec content _ _ (moved.same.handle.trans handle) room
    exact (rest enters).follows some_per few (layout.trans moved.layout) (kept fresh') opens

end Laomb.FS
