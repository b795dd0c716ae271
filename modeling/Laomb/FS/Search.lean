import Laomb.FS.Cache
import Laomb.FS.Sessions
import Laomb.FS.Slots

/-! When `FAT_FindFile` ends, and with what. The root directory is read sector after sector,
around the whole device; other directories along their clusters and past the end mark. -/
namespace Laomb.FS
open Word Loop

variable {content : Content} {read : Reader} {v : Layout} {g g' : FatData} {fd : FileData}
    {h : Handle} {i : Fin 10}
    {shortName : Vector Byte 11} {c d k n t first : Nat} {cs : List Nat} {buffer : Vector Byte (1 * 512)}

/-! ## The root directory -/

theorem refill_root (root : (g.file .root).handle = .root) :
    g.refill read .root = g.setFile { g.file .root with
    position := u32 (((g.file .root).position / 512 + 1) * 512)
    currentCluster := u32 ((g.file .root).currentCluster + 1)
    buffer := (read (u32 ((g.file .root).currentCluster + 1)) 1).getD (g.file .root).buffer } .root := by
  have root' : (g.setFile { g.file .root with
      position := u32 (((g.file .root).position / 512 + 1) * 512) } .root).rootDirectory.handle =
        .root := root
  rw [FatData.refill, nextSector_root root']
  rfl

theorem u32_mul_512 (n : Nat) : u32 (n * 512) % 512 = 0 ∧ u32 (n * 512) < 2 ^ 32 := by
  unfold u32
  omega

theorem listing_refill_root (read : Reader) (root : (g.file .root).handle = .root)
    (listing : Listing (g.file .root)) :
    ((g.refill read .root).file .root).handle = .root ∧ Listing ((g.refill read .root).file .root) ∧
      ((g.refill read .root).file .root).position % 512 = 0 := by
  obtain ⟨start, word⟩ := u32_mul_512 ((g.file .root).position / 512 + 1)
  rw [refill_root root, file_setFile]
  exact ⟨root, ⟨listing.isDirectory, listing.unsized, by dsimp only; omega, word⟩, start⟩

/-- A name that some sector of the device carries is found in the root directory: the search
comes to that sector, even around the device, unless it has found the name before. -/
theorem root_finds (root : (g.file .root).handle = .root) (listing : Listing (g.file .root))
    (loaded : read n 1 = some buffer) (carried : Carries buffer shortName)
    (ahead : u32 ((g.file .root).currentCluster + d + 1) = n) :
    ∃ fuel g' entry, loop (FatData.findStep read .root shortName) fuel g = some (g', some entry) := by
  induction d generalizing g with
  | zero =>
    obtain ⟨root', listing', start⟩ := listing_refill_root read root listing
    rcases ends_or_refills read shortName listing with ended | ⟨k, goes⟩
    · exact ended
    · have here : ((g.refill read .root).file .root).buffer = buffer := by
        rw [refill_root root, file_setFile]
        dsimp only
        rw [← Nat.add_zero (g.file .root).currentCluster, ahead, loaded, Option.getD_some]
      obtain ⟨j, inside, found⟩ := carried
      obtain ⟨fuel, g', entry, ended⟩ := ends_found read listing'
        ⟨j, inside, start ▸ Nat.zero_le _, here ▸ found⟩
      exact ⟨fuel + (k + 1), g', entry, by rw [goes.loop_eq, ended]⟩
  | succ d ih =>
    obtain ⟨root', listing', _⟩ := listing_refill_root read root listing
    rcases ends_or_refills read shortName listing with ended | ⟨k, goes⟩
    · exact ended
    · have next : ((g.refill read .root).file .root).currentCluster =
          u32 ((g.file .root).currentCluster + 1) := by
        rw [refill_root root, file_setFile]
      obtain ⟨fuel, g', entry, ended⟩ := ih root' listing' (by
        rw [next, ← ahead]
        unfold u32
        omega)
      exact ⟨fuel + (k + 1), g', entry, by rw [goes.loop_eq, ended]⟩

/-- The search of the root directory never ends without an entry. -/
theorem root_never_misses (root : (g.file .root).handle = .root) (listing : Listing (g.file .root))
    (fuel : Nat)
    {r : Option DirEntry} (done : loop (FatData.findStep read .root shortName) fuel g = some (g', r)) :
    r.isSome = true := by
  induction fuel generalizing g with
  | zero => cases done
  | succ fuel ih =>
    have step := findStep_slot read shortName listing
    by_cases found : shortName = (slot (g.file .root).buffer (g.file .root).position).name
    · rw [if_pos found] at step
      rw [loop_inr step] at done
      cases done
      rfl
    · rw [if_neg found] at step
      rw [loop_inl step] at done
      rcases advance_slot read listing with ⟨j, inside, moved⟩ | moved
      · rw [moved] at done
        exact ih (by rw [file_atSlot]; exact root) (listing_atSlot listing inside) done
      · rw [moved] at done
        obtain ⟨root', listing', _⟩ := listing_refill_root read root listing
        exact ih root' listing' done

/-! ## Directories along their clusters -/

/-- The clusters of a directory, up to one of the standard marks. -/
structure DirChain (content : Content) (v : Layout) (first : Nat) (cs : List Nat) : Prop where
  first : cs.head? = some first
  links : cs.IsChain fun c d => entryOf content v c = d
  last : ∀ c ∈ cs.getLast?, 0x0FFFFFF8 ≤ entryOf content v c ∧ entryOf content v c ≤ 0x0FFFFFFF
  clusters : ∀ c ∈ cs, 2 ≤ c ∧ c < 2 ^ 28 ∧ c * 4 / 512 < v.sectorsPerFat

theorem trail_layout (read : Reader) (g : FatData) (c k : Nat) :
    (trail read g c k).1.toLayout = g.toLayout := by
  induction k with
  | zero => rfl
  | succ k ih => exact (Moved.fatNextCluster read _ .root _).layout.trans ih

theorem trail_fresh (fresh : Fresh content g) (table : TableReads content g.toLayout read) (c k : Nat) :
    Fresh content (trail read g c k).1 := by
  induction k with
  | zero => exact fresh
  | succ k ih => exact ih.next (by rw [trail_layout]; exact table) _

/-- As far as the directory goes, its clusters are looked up one after another. -/
theorem trail_chain (chain : DirChain content g.toLayout first cs) (fresh : Fresh content g)
    (table : TableReads content g.toLayout read) (found : cs[k]? = some c) :
      (trail read g first k).2 = c := by
  induction k generalizing c with
  | zero =>
    have head := chain.first
    rw [List.head?_eq_getElem?, found] at head
    exact (Option.some.inj head).symm
  | succ k ih =>
    obtain ⟨inside, same⟩ := List.getElem?_eq_some_iff.mp found
    have before : cs[k]? = some cs[k] := List.getElem?_eq_getElem (by omega)
    obtain ⟨_, small, inTable⟩ := chain.clusters cs[k] (List.getElem_mem _)
    have link := List.isChain_iff_getElem.mp chain.links k inside
    have entry :=
      (trail_fresh fresh table first k).entry (c := cs[k]) (by rw [trail_layout]; exact table) small
      (by rw [trail_layout]; exact inTable)
    rw [trail, ih before, entry, trail_layout, link, same]

/-- The `t`-th sector from the start of the directory can be read and has the name. -/
def MatchesAt (read : Reader) (g : FatData) (first : Nat) (shortName : Vector Byte 11) (t : Nat) : Prop :=
  (trail read g first (t / g.boot.sectorsPerCluster)).2 < 0xFFFFFFF8 ∧ ∃ buffer,
    read (u32 (g.clusterToLba (trail read g first (t / g.boot.sectorsPerCluster)).2 +
      t % g.boot.sectorsPerCluster)) 1 = some buffer ∧ Carries buffer shortName

/-- The cluster of the `t`-th sector passes for the end, and the position has not wrapped. -/
def EndsAt (read : Reader) (g : FatData) (first t : Nat) : Prop :=
  0xFFFFFFF8 ≤ (trail read g first (t / g.boot.sectorsPerCluster)).2 ∧ u32 (t * 512) ≠ 0

/-- The search has come to the `t`-th sector; a buffer that is still an older one has been
searched already. -/
structure AtSector (read : Reader) (g₀ : FatData) (first : Nat) (shortName : Vector Byte 11)
    (i : Fin 10) (t : Nat)
    (g : FatData) : Prop where
  handle : (g.file (.opened i)).handle = .opened i
  listing : Listing (g.file (.opened i))
  position : (g.file (.opened i)).position = u32 (t * 512)
  cluster : (g.file (.opened i)).currentCluster = (trail read g₀ first (t / g₀.boot.sectorsPerCluster)).2
  sector : (g.file (.opened i)).sectorInCluster = t % g₀.boot.sectorsPerCluster
  cache : SameCache (trail read g₀ first (t / g₀.boot.sectorsPerCluster)).1 g
  loaded : ∀ buffer, (trail read g₀ first (t / g₀.boot.sectorsPerCluster)).2 < 0xFFFFFFF8 →
    read (u32 (g₀.clusterToLba (trail read g₀ first (t / g₀.boot.sectorsPerCluster)).2 +
      t % g₀.boot.sectorsPerCluster)) 1 = some buffer → (g.file (.opened i)).buffer = buffer
  stale : Carries (g.file (.opened i)).buffer shortName → MatchesAt read g₀ first shortName t

/-- The file when it comes to the `t`-th sector, before that is read. -/
structure Arrives (read : Reader) (g₀ : FatData) (first : Nat) (shortName : Vector Byte 11)
    (i : Fin 10) (t : Nat)
    (g : FatData) (fd : FileData) : Prop where
  handle : fd.handle = .opened i
  isDirectory : fd.isDirectory = true
  unsized : fd.size = 0
  position : fd.position = u32 (t * 512)
  cluster : fd.currentCluster = (trail read g₀ first (t / g₀.boot.sectorsPerCluster)).2
  sector : fd.sectorInCluster = t % g₀.boot.sectorsPerCluster
  cache : SameCache (trail read g₀ first (t / g₀.boot.sectorsPerCluster)).1 g
  searched : ¬ Carries fd.buffer shortName

namespace Arrives

variable {g₀ : FatData}

theorem ended (arrives : Arrives read g₀ first shortName i t g fd) (ends : EndsAt read g₀ first t) :
    ((g.loadSector read (.opened i) fd).1.file (.opened i)).isDirectory = true ∧
      ((g.loadSector read (.opened i) fd).1.file (.opened i)).size ≠ 0 ∧
      ((g.loadSector read (.opened i) fd).1.file (.opened i)).size =
        ((g.loadSector read (.opened i) fd).1.file (.opened i)).position := by
  obtain ⟨mark, nonzero⟩ := ends
  rw [← arrives.cluster] at mark
  rw [← arrives.position] at nonzero
  rw [FatData.loadSector, if_pos mark, file_setFile]
  exact ⟨arrives.isDirectory, nonzero, rfl⟩

/-- With the buffer that it gets there. -/
theorem stored {size : Nat} (arrives : Arrives read g₀ first shortName i t g fd) (unsized : size = 0)
    (loaded : ∀ buffer', (trail read g₀ first (t / g₀.boot.sectorsPerCluster)).2 < 0xFFFFFFF8 →
      read (u32 (g₀.clusterToLba (trail read g₀ first (t / g₀.boot.sectorsPerCluster)).2 +
        t % g₀.boot.sectorsPerCluster)) 1 = some buffer' → buffer = buffer')
    (stale : Carries buffer shortName → MatchesAt read g₀ first shortName t) :
    AtSector read g₀ first shortName i t (g.setFile { fd with size, buffer } (.opened i)) := by
  obtain ⟨handle, isDirectory, _, position, cluster, sector, cache, _⟩ := arrives
  obtain ⟨start, word⟩ := u32_mul_512 t
  rw [← position] at start word
  refine ⟨?_, ?_, ?_, ?_, ?_, cache.trans (.setFile g _ _), ?_, ?_⟩
  all_goals rw [file_setFile]
  · exact handle
  · exact ⟨isDirectory, unsized, show fd.position % 32 = 0 by omega, word⟩
  · exact position
  · exact cluster
  · exact sector
  · exact loaded
  · exact stale

theorem goesOn (arrives : Arrives read g₀ first shortName i t g fd) (ongoing : ¬ EndsAt read g₀ first t) :
    AtSector read g₀ first shortName i t (g.loadSector read (.opened i) fd).1 := by
  have cluster := arrives.cluster
  have lba : g.clusterToLba = g₀.clusterToLba := by
    funext c
    rw [FatData.clusterToLba, FatData.clusterToLba, arrives.cache.layout, trail_layout]
  rw [FatData.loadSector, lba]
  by_cases mark : 0xFFFFFFF8 ≤ fd.currentCluster
  · rw [if_pos mark]
    refine arrives.stored ?_ (fun buffer live => absurd mark (Nat.not_le.mpr (cluster ▸ live)))
      fun carried => absurd carried arrives.searched
    by_contra nonzero
    exact ongoing ⟨cluster ▸ mark, arrives.position ▸ nonzero⟩
  · rw [if_neg mark]
    rw [cluster] at mark
    cases loaded : read (u32 (g₀.clusterToLba fd.currentCluster + fd.sectorInCluster)) 1 with
    | none =>
      rw [cluster, arrives.sector] at loaded
      refine arrives.stored arrives.unsized (fun buffer _ done => ?_) fun carried =>
        absurd carried arrives.searched
      rw [done] at loaded
      cases loaded
    | some buffer =>
      rw [cluster, arrives.sector] at loaded
      refine arrives.stored arrives.unsized (fun buffer' _ done => ?_) fun carried => ?_
      · exact Option.some.inj (loaded.symm.trans done)
      · exact ⟨Nat.not_le.mp mark, buffer, loaded, carried⟩

end Arrives

namespace AtSector

variable {g₀ : FatData}

theorem carries_iff (here : AtSector read g₀ first shortName i t g) :
    Carries (g.file (.opened i)).buffer shortName ↔ MatchesAt read g₀ first shortName t := by
  refine ⟨here.stale, ?_⟩
  rintro ⟨live, buffer, loaded, carried⟩
  rw [here.loaded buffer live loaded]
  exact carried

theorem start (here : AtSector read g₀ first shortName i t g) : (g.file (.opened i)).position % 512 = 0 := by
  rw [here.position]
  exact (u32_mul_512 t).1

/-- A sector with the name ends the search. -/
theorem found (here : AtSector read g₀ first shortName i t g) (found : MatchesAt read g₀ first shortName t) :
    ∃ fuel g' entry, loop (FatData.findStep read (.opened i) shortName) fuel g = some (g', some entry) := by
  obtain ⟨j, inside, same⟩ := here.carries_iff.mpr found
  exact ends_found _ here.listing ⟨j, inside, here.start ▸ Nat.zero_le _, same⟩

/-- Past a sector without the name, the search comes to the next one. -/
theorem refill (here : AtSector read g₀ first shortName i t g) (some_per : 0 < g₀.boot.sectorsPerCluster)
    (few : g₀.boot.sectorsPerCluster < 2 ^ 8) (missing : ¬ MatchesAt read g₀ first shortName t) :
    ∃ G fd, Arrives read g₀ first shortName i (t + 1) G fd ∧
      g.refill read (.opened i) = (G.loadSector read (.opened i) fd).1 := by
  have searched : ¬ Carries (g.file (.opened i)).buffer shortName :=
    fun carried => missing (here.stale carried)
  obtain ⟨handle, listing, position, cluster, sector, cache, _, _⟩ := here
  have below : t % g₀.boot.sectorsPerCluster < g₀.boot.sectorsPerCluster := Nat.mod_lt t some_per
  have next : u32 (((g.file (.opened i)).position / 512 + 1) * 512) = u32 ((t + 1) * 512) := by
    rw [position]
    unfold u32
    omega
  have moved :
      SameCache g (g.setFile { g.file (.opened i) with position := u32 ((t + 1) * 512) } (.opened i)) :=
    .setFile g _ _
  have file := file_setFile g { g.file (.opened i) with position := u32 ((t + 1) * 512) } (.opened i)
  have boot : g.boot = g₀.boot := by rw [cache.layout, trail_layout]
  rw [FatData.refill, next]
  generalize g.setFile { g.file (.opened i) with position := u32 ((t + 1) * 512) } (.opened i) =
    g₁ at moved file
  have file' : g₁.openedFiles i = { g.file (.opened i) with position := u32 ((t + 1) * 512) } := file
  have boot' : g₁.boot = g₀.boot := by rw [moved.layout, boot]
  rw [nextSector_opened (by rw [file']; exact handle), file', boot']
  dsimp only
  rw [sector, u32_of_lt (by omega)]
  rcases sector_succ t some_per with ⟨inside, cluster', sector'⟩ | ⟨last, cluster', sector'⟩
  · rw [if_neg (by omega)]
    refine ⟨g₁, _, ?_, rfl⟩
    refine ⟨handle, listing.isDirectory, listing.unsized, rfl, ?_, ?_, ?_, searched⟩
    · rw [cluster']
      exact cluster
    · exact sector'.symm
    · rw [cluster']
      exact cache.trans moved
  · rw [if_pos (by omega)]
    obtain ⟨entry, after⟩ := (cache.trans moved).next read (g.file (.opened i)).currentCluster
    refine ⟨_, _, ?_, rfl⟩
    refine ⟨handle, listing.isDirectory, listing.unsized, rfl, ?_, ?_, ?_, searched⟩
    · rw [cluster', trail, ← cluster]
      exact entry
    · exact sector'.symm
    · rw [cluster', trail, ← cluster]
      exact after

/-- Where nothing is found and nothing ends before, the search comes to the `t`-th sector. -/
theorem reaches (here : AtSector read g₀ first shortName i 0 g) (some_per : 0 < g₀.boot.sectorsPerCluster)
    (few : g₀.boot.sectorsPerCluster < 2 ^ 8) (missing : ∀ s < t, ¬ MatchesAt read g₀ first shortName s)
    (ongoing : ∀ s ≤ t, ¬ EndsAt read g₀ first s) : ∃ k g', t ≤ k ∧
      Goes (FatData.findStep read (.opened i) shortName) k g g' ∧
        AtSector read g₀ first shortName i t g' := by
  induction t with
  | zero => exact ⟨0, g, Nat.le_refl 0, .zero g, here⟩
  | succ t ih =>
    obtain ⟨k, g', more, goes, there⟩ :=
      ih (fun s less => missing s (by omega)) fun s less => ongoing s (by omega)
    have missed := missing t (Nat.lt_succ_self t)
    obtain ⟨m, step⟩ := goes_refill read there.listing fun j inside _ same =>
      missed (there.stale ⟨j, inside, same⟩)
    obtain ⟨G, fd, arrives, refilled⟩ := there.refill some_per few missed
    refine ⟨k + (m + 1), _, by omega, goes.trans step, ?_⟩
    rw [refilled]
    exact arrives.goesOn (ongoing (t + 1) (Nat.le_refl _))

theorem not_endsAt_zero : ¬ EndsAt read g₀ first 0 := fun ends => ends.2 (by decide)

/-- The search finds an entry if a sector with the name comes before the end. -/
theorem ends_some (here : AtSector read g₀ first shortName i 0 g) (some_per : 0 < g₀.boot.sectorsPerCluster)
    (few : g₀.boot.sectorsPerCluster < 2 ^ 8) (found : MatchesAt read g₀ first shortName t)
    (ongoing : ∀ s ≤ t, ¬ EndsAt read g₀ first s) :
    ∃ fuel g' entry, loop (FatData.findStep read (.opened i) shortName) fuel g = some (g', some entry) := by
  induction t using Nat.strong_induction_on with
  | _ t ih =>
    by_cases earlier : ∃ s < t, MatchesAt read g₀ first shortName s
    · obtain ⟨s, less, found'⟩ := earlier
      exact ih s less found' fun r before => ongoing r (before.trans less.le)
    · obtain ⟨k, g', _, goes, there⟩ := here.reaches some_per few
        (fun s less found' => earlier ⟨s, less, found'⟩) ongoing
      obtain ⟨fuel, g'', entry, ended⟩ := there.found found
      exact ⟨fuel + k, g'', entry, by rw [goes.loop_eq, ended]⟩

/-- It ends without one if the end comes before every sector with the name. -/
theorem ends_none (here : AtSector read g₀ first shortName i 0 g) (some_per : 0 < g₀.boot.sectorsPerCluster)
    (few : g₀.boot.sectorsPerCluster < 2 ^ 8) (ends : EndsAt read g₀ first t)
    (missing : ∀ s < t, ¬ MatchesAt read g₀ first shortName s) :
    ∃ fuel g', loop (FatData.findStep read (.opened i) shortName) fuel g = some (g', none) := by
  induction t using Nat.strong_induction_on with
  | _ t ih =>
    by_cases earlier : ∃ s < t, EndsAt read g₀ first s
    · obtain ⟨s, less, ends'⟩ := earlier
      exact ih s less ends' fun r before => missing r (before.trans less)
    · cases t with
      | zero => exact absurd ends not_endsAt_zero
      | succ t =>
        obtain ⟨k, g', _, goes, there⟩ := here.reaches some_per few (fun s less => missing s (by omega))
          fun s less ends' => earlier ⟨s, Nat.lt_succ_of_le less, ends'⟩
        have missed := missing t (Nat.lt_succ_self t)
        obtain ⟨m, step⟩ := goes_refill read there.listing fun j inside _ same =>
          missed (there.stale ⟨j, inside, same⟩)
        obtain ⟨G, fd, arrives, refilled⟩ := there.refill some_per few missed
        rw [refilled] at step
        obtain ⟨directory, nonzero, ended⟩ := arrives.ended ends
        have last : FatData.findStep read (.opened i) shortName (G.loadSector read (.opened i) fd).1 =
            .inr ((G.loadSector read (.opened i) fd).1, none) := by
          rw [FatData.findStep, fatReadEntry_end directory nonzero ended]
        exact ⟨_, _, (goes.trans step).ends last⟩

/-- It goes on for ever if neither comes. -/
theorem never_ends (here : AtSector read g₀ first shortName i 0 g) (some_per : 0 < g₀.boot.sectorsPerCluster)
    (few : g₀.boot.sectorsPerCluster < 2 ^ 8) (missing : ∀ t, ¬ MatchesAt read g₀ first shortName t)
    (ongoing : ∀ t, ¬ EndsAt read g₀ first t) (fuel : Nat) :
    loop (FatData.findStep read (.opened i) shortName) fuel g = none := by
  refine loop_never (fun t => ?_) fuel
  obtain ⟨k, g', more, goes, _⟩ :=
    here.reaches (t := t) some_per few (fun s _ => missing s) fun s _ => ongoing s
  exact ⟨k, g', more, goes⟩

end AtSector

/-! ## What the search decides -/

/-- A directory that `FAT_FindFile` can get, and the cluster where it starts: the root
directory between two entries, whatever its buffer holds, or a directory just opened. -/
inductive DirHandle (read : Reader) (g : FatData) : Handle → Nat → Prop
  | root : g.rootDirectory.handle = .root → Listing g.rootDirectory →
    DirHandle read g .root g.boot.rootDirectoryCluster
  | opened (i : Fin 10) (entry : Directory) (buffer : Vector Byte (1 * 512)) :
      g.openedFiles i = .ofEntry entry i buffer → entry.isDirectory = true → entry.size.toNat = 0 →
      read (g.clusterToLba entry.firstCluster) 1 = some buffer →
        DirHandle read g (.opened i) entry.firstCluster

/-- An entry in the chain has the name. -/
def Carried (content : Content) (v : Layout) (cs : List Nat) (shortName : Vector Byte 11) : Prop :=
  ∃ c ∈ cs, ∃ s < v.boot.sectorsPerCluster, Carries (sectors content (sectorOf v c + s) 1) shortName

/-- Following the clusters past the end mark of the chain, a word that passes for the end
comes before any sector with the name. -/
def RunsOut (read : Reader) (g : FatData) (first : Nat) (shortName : Vector Byte 11) : Prop :=
  ∃ t, EndsAt read g first t ∧ ∀ s < t, ¬ MatchesAt read g first shortName s

/-- The search ends, with an entry exactly if there is one. -/
def Decides (search : Nat → Option (FatData × Option DirEntry)) (present : Prop) : Prop :=
  ∃ fuel g' r, search fuel = some (g', r) ∧ (r.isSome = true ↔ present)

/-- A search that ends without an entry has run out. -/
theorem AtSector.runsOut {r : Option DirEntry} {fuel : Nat} (here : AtSector read g first shortName i 0 g)
    (some_per : 0 < g.boot.sectorsPerCluster) (few : g.boot.sectorsPerCluster < 2 ^ 8)
    (done : loop (FatData.findStep read (.opened i) shortName) fuel g = some (g', r)) (nothing : r = none) :
    RunsOut read g first shortName := by
  classical
  by_cases found : ∃ t, MatchesAt read g first shortName t
  · have earliest : ∀ s < Nat.find found, ¬ MatchesAt read g first shortName s := fun s => Nat.find_min found
    by_cases ended : ∃ s ≤ Nat.find found, EndsAt read g first s
    · obtain ⟨s, before, ends⟩ := ended
      exact ⟨s, ends, fun r less => earliest r (less.trans_le before)⟩
    · obtain ⟨fuel', g'', entry, done'⟩ := here.ends_some some_per few (Nat.find_spec found)
        fun s before ends => ended ⟨s, before, ends⟩
      have same := congrArg Prod.snd (loop_unique done done')
      rw [nothing] at same
      cases same
  · by_cases ended : ∃ t, EndsAt read g first t
    · obtain ⟨t, ends⟩ := ended
      exact ⟨t, ends, fun s _ found' => found ⟨s, found'⟩⟩
    · have never := here.never_ends some_per few (fun t found' => found ⟨t, found'⟩)
        (fun t ends => ended ⟨t, ends⟩) fuel
      rw [never] at done
      cases done

/-- Sectors of the chain come before the end. -/
theorem chain_ongoing (chain : DirChain content g.toLayout first cs) (fresh : Fresh content g)
    (served : Served content g.toLayout read cs) (some_per : 0 < g.boot.sectorsPerCluster)
    (inside : t < cs.length * g.boot.sectorsPerCluster) : ¬ EndsAt read g first t := by
  rintro ⟨mark, _⟩
  have below : t / g.boot.sectorsPerCluster < cs.length := (Nat.div_lt_iff_lt_mul some_per).mpr inside
  have found : cs[t / g.boot.sectorsPerCluster]? = some cs[t / g.boot.sectorsPerCluster] :=
    List.getElem?_eq_getElem below
  rw [trail_chain chain fresh served.table found] at mark
  obtain ⟨_, small, _⟩ := chain.clusters _ (List.getElem_mem below)
  omega

/-- A name in the chain is in one of its sectors. -/
theorem carried_matches (chain : DirChain content g.toLayout first cs) (fresh : Fresh content g)
    (served : Served content g.toLayout read cs) (carried : Carried content g.toLayout cs shortName) :
    ∃ t < cs.length * g.boot.sectorsPerCluster, MatchesAt read g first shortName t := by
  obtain ⟨c, member, s, inside, carries⟩ := carried
  obtain ⟨k, below, same⟩ := List.mem_iff_getElem.mp member
  obtain ⟨low, small, _⟩ := chain.clusters c member
  obtain ⟨bound, done⟩ := served.clusters c member s inside
  have found : cs[k]? = some c := by rw [List.getElem?_eq_getElem below, same]
  have lba := clusterToLba_eq low (Nat.lt_of_le_of_lt (Nat.le_add_right _ s) bound) small
  have quotient : (k * g.boot.sectorsPerCluster + s) / g.boot.sectorsPerCluster = k := by
    rw [Nat.mul_comm, Nat.mul_add_div (by omega), Nat.div_eq_of_lt inside, Nat.add_zero]
  have rest : (k * g.boot.sectorsPerCluster + s) % g.boot.sectorsPerCluster = s := by
    rw [Nat.mul_comm, Nat.mul_add_mod, Nat.mod_eq_of_lt inside]
  refine ⟨k * g.boot.sectorsPerCluster + s, ?_, ?_, _, ?_, carries⟩
  · calc k * g.boot.sectorsPerCluster + s < (k + 1) * g.boot.sectorsPerCluster := by
          rw [Nat.succ_mul]
          omega
      _ ≤ cs.length * g.boot.sectorsPerCluster := Nat.mul_le_mul_right _ below
  · rw [quotient, trail_chain chain fresh served.table found]
    omega
  · rw [quotient, rest, trail_chain chain fresh served.table found, lba, u32_of_lt bound, done]

/-- The first sector of a directory just opened. -/
theorem atSector_zero {entry : Directory} (file : g.openedFiles i = .ofEntry entry i buffer)
    (directory : entry.isDirectory = true) (unsized : entry.size.toNat = 0)
    (loaded : read (g.clusterToLba entry.firstCluster) 1 = some buffer)
    (live : entry.firstCluster < 0xFFFFFFF8) :
    AtSector read g entry.firstCluster shortName i 0 g := by
  have file' : g.file (.opened i) = .ofEntry entry i buffer := file
  have lba : u32 (g.clusterToLba entry.firstCluster + 0) = g.clusterToLba entry.firstCluster := by
    rw [Nat.add_zero, u32_of_lt]
    exact u32_lt _
  have origin : u32 (0 * 512) = 0 := by decide
  have zero : trail read g entry.firstCluster (0 / g.boot.sectorsPerCluster) = (g, entry.firstCluster) := by
    rw [Nat.zero_div, trail]
  constructor
  all_goals simp only [file', zero, Nat.zero_mod, origin, lba]
  · exact rfl
  · exact listing_ofEntry i buffer directory unsized
  · exact rfl
  · exact rfl
  · exact rfl
  · exact ⟨rfl, rfl, rfl⟩
  · exact fun buffer' _ done => Option.some.inj (loaded.symm.trans done)
  · intro carried
    refine ⟨?_, buffer, ?_, carried⟩
    · simp only [zero]
      exact live
    · simp only [zero, Nat.zero_mod, lba]
      exact loaded

/-- `FAT_FindFile` ends with the right answer exactly when the name is there, or when a word
that passes for the end comes up after the chain of a directory other than the root. -/
theorem fatFindFile_decides_iff (handle : DirHandle read g h first)
    (chain : DirChain content g.toLayout first cs)
    (served : Served content g.toLayout read cs) (fresh : Fresh content g)
    (some_per : 0 < g.boot.sectorsPerCluster)
    (few : g.boot.sectorsPerCluster < 2 ^ 8) (junk : Nat → Byte) (name : List Byte) :
    Decides (fun fuel => g.fatFindFile (fun _ => read) junk fuel h name)
        (Carried content g.toLayout cs (getShortName junk name)) ↔
      Carried content g.toLayout cs (getShortName junk name) ∨
        h ≠ .root ∧ RunsOut read g first (getShortName junk name) := by
  simp only [FatData.fatFindFile, findLoop_eq]
  generalize getShortName junk name = shortName
  cases handle with
  | root root listing =>
    constructor
    · rintro ⟨fuel, g', r, done, same⟩
      exact .inl (same.mp (root_never_misses root listing fuel done))
    · rintro (carried | ⟨other, _⟩)
      · obtain ⟨c, member, s, inside, carries⟩ := carried
        obtain ⟨bound, loaded⟩ := served.clusters c member s inside
        obtain ⟨d, ahead⟩ : ∃ d, u32 (g.rootDirectory.currentCluster + d + 1) =
            sectorOf g.toLayout c + s := by
          refine ⟨u32 (sectorOf g.toLayout c + s + 2 ^ 32 - u32 (g.rootDirectory.currentCluster + 1)), ?_⟩
          unfold u32
          omega
        obtain ⟨fuel, g', entry, ended⟩ := root_finds root listing loaded carries ahead
        exact ⟨fuel, g', some entry, ended, iff_of_true rfl ⟨c, member, s, inside, carries⟩⟩
      · exact absurd rfl other
  | opened i entry buffer file directory unsized loaded =>
    have live : entry.firstCluster < 0xFFFFFFF8 := by
      obtain ⟨_, small, _⟩ := chain.clusters _ (List.mem_of_head? chain.first)
      omega
    have start : AtSector read g entry.firstCluster shortName i 0 g :=
      atSector_zero file directory unsized loaded live
    constructor
    · rintro ⟨fuel, g', r, done, same⟩
      by_cases carried : Carried content g.toLayout cs shortName
      · exact .inl carried
      · refine .inr ⟨nofun, ?_⟩
        exact start.runsOut some_per few done
          (Option.not_isSome_iff_eq_none.mp fun found => carried (same.mp found))
    · intro decided
      by_cases carried : Carried content g.toLayout cs shortName
      · obtain ⟨t, inside, found⟩ := carried_matches chain fresh served carried
        obtain ⟨fuel, g', e, ended⟩ := start.ends_some some_per few found fun s before =>
          chain_ongoing chain fresh served some_per (before.trans_lt inside)
        exact ⟨fuel, g', some e, ended, iff_of_true rfl carried⟩
      · obtain ⟨_, t, ends, missing⟩ := decided.resolve_left carried
        obtain ⟨fuel, g', ended⟩ := start.ends_none some_per few ends missing
        exact ⟨fuel, g', none, ended, iff_of_false Bool.false_ne_true carried⟩

/-- A volume of four sectors: the boot sector, the table, the root directory with a directory
`D` in it, and that directory, which is empty. Both chains end with the mark `0x0FFFFFFF`. -/
def markedVolume : Content := fun n =>
  let fields : List (Nat × Byte) :=
    [(13, 1), (14, 1), (16, 1), (36, 1), (44, 2), (520, 0xFF), (521, 0xFF), (522, 0xFF), (523, 0x0F),
      (524, 0xFF), (525, 0xFF), (526, 0xFF), (527, 0x0F), (1024, 0x44), (1035, 0x10), (1050, 3)]
  (fields.lookup n).getD (if 1025 ≤ n ∧ n < 1035 then 0x20 else 0)

def markedRead : Reader := mbrReadSector markedVolume ⟨0, 4⟩

theorem markedRead_reads (inside : n < 4) (count : Nat) : Reads markedRead markedVolume n count := by
  have reads : Reads markedRead (Partition.content ⟨0, 4⟩ markedVolume) n count :=
    mbrReadSector_reads inside (inside.trans (by decide)) count
  have same : Partition.content ⟨0, 4⟩ markedVolume = markedVolume :=
    funext fun i => congrArg markedVolume (Nat.zero_add i)
  rwa [same] at reads

/-- The volume after `fat_init`. -/
theorem marked_init : ∃ g, fatInit markedRead = some g ∧ g.toLayout = ⟨⟨1, 1, 1, 0, 0, 0, 1, 2⟩, 2, 1⟩ := by
  have layout : (fatInit markedRead).map FatData.toLayout = some ⟨⟨1, 1, 1, 0, 0, 0, 1, 2⟩, 2, 1⟩ := by
    decide +kernel
  exact Option.map_eq_some_iff.mp layout

theorem marked_root (initialised : fatInit markedRead = some g)
    (layout : g.toLayout = ⟨⟨1, 1, 1, 0, 0, 0, 1, 2⟩, 2, 1⟩) :
    g.rootDirectory.handle = .root ∧ Listing g.rootDirectory := by
  obtain ⟨buffer, _, root⟩ := fatInit_root initialised
  refine ⟨congrArg FileData.handle root, fatInit_listing initialised ?_⟩
  rw [layout]

theorem marked_handle (initialised : fatInit markedRead = some g)
    (layout : g.toLayout = ⟨⟨1, 1, 1, 0, 0, 0, 1, 2⟩, 2, 1⟩) : DirHandle markedRead g .root 2 := by
  obtain ⟨root, listing⟩ := marked_root initialised layout
  have handle : DirHandle markedRead g .root g.boot.rootDirectoryCluster := .root root listing
  rwa [layout] at handle

theorem marked_chain : DirChain markedVolume ⟨⟨1, 1, 1, 0, 0, 0, 1, 2⟩, 2, 1⟩ 2 [2] :=
  ⟨rfl, .singleton 2, by decide, by decide⟩

theorem marked_served : Served markedVolume ⟨⟨1, 1, 1, 0, 0, 0, 1, 2⟩, 2, 1⟩ markedRead [2] := by
  refine ⟨fun n one => markedRead_reads (show 1 + n < 4 by have : n < 1 := one; omega) 5,
    fun c member j one => ?_⟩
  have none : j = 0 := Nat.lt_one_iff.mp one
  subst none
  rw [List.mem_singleton.mp member]
  exact markedRead_reads (by decide) 1

/-- The search for `D` in the root directory. -/
theorem fatFindFile_decides_marked : ∃ g, fatInit markedRead = some g ∧
    Decides (fun fuel => g.fatFindFile (fun _ => markedRead) (fun _ => 0x20) fuel .root [0x44])
      (Carried markedVolume g.toLayout [2] (getShortName (fun _ => 0x20) [0x44])) := by
  obtain ⟨g, initialised, layout⟩ := marked_init
  have carries : getShortName (fun _ => 0x20) [0x44] = (slot (sectors markedVolume 2 1) (32 * 0)).name := by
    decide +kernel
  have carried : Carried markedVolume g.toLayout [2] (getShortName (fun _ => 0x20) [0x44]) := by
    rw [layout]
    exact ⟨2, List.mem_singleton.mpr rfl, 0, by decide, 0, by decide, carries⟩
  refine ⟨g, initialised, (fatFindFile_decides_iff (marked_handle initialised layout) ?_ ?_
    (.empty (Session.fatInit_some initialised).2.1) ?_ ?_ (fun _ => 0x20) [0x44]).mpr (.inl carried)⟩
  all_goals rw [layout]
  · exact marked_chain
  · exact marked_served
  · decide
  · decide

/-- The first letter of a name that a sector has. -/
theorem Carries.letter (carried : Carries (sectors content n 1) shortName) :
    ∃ j < 16, shortName[0] = content (n * 512 + 32 * j) := by
  obtain ⟨j, inside, rfl⟩ := carried
  refine ⟨j, inside, ?_⟩
  have place : 32 * j % 512 + 0 = 32 * j := by omega
  rw [slot, dirEntry, Vector.getElem_ofFn]
  dsimp only
  rw [place, bytesOf_sectors (by omega)]

/-- No entry is called `X`, and the search for it does not end. -/
theorem marked_missing : ∃ g, fatInit markedRead = some g ∧
    ¬ Decides (fun fuel => g.fatFindFile (fun _ => markedRead) (fun _ => 0x20) fuel .root [0x58])
        (Carried markedVolume g.toLayout [2] (getShortName (fun _ => 0x20) [0x58])) := by
  obtain ⟨g, initialised, layout⟩ := marked_init
  refine ⟨g, initialised, fun ⟨fuel, g', r, done, same⟩ => ?_⟩
  have absent : ∀ j < 16, (getShortName (fun _ => 0x20) [0x58])[0] ≠ markedVolume
      (2 * 512 + 32 * j) := by decide +kernel
  simp only [FatData.fatFindFile, findLoop_eq] at done
  obtain ⟨root, listing⟩ := marked_root initialised layout
  obtain ⟨c, member, s, inside, carries⟩ := same.mp (root_never_misses root listing fuel done)
  rw [layout] at inside carries
  have first : s = 0 := Nat.lt_one_iff.mp inside
  rw [List.mem_singleton.mp member, first] at carries
  obtain ⟨j, below, letter⟩ := carries.letter
  exact absent j below letter

end Laomb.FS
