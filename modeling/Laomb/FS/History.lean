import Laomb.Base.Transition
import Laomb.FS.Sessions
import Laomb.FS.TablePaths

/-! Lookups after any calls. All of them go through the one handle of the root directory,
which closing moves back to its start, but whose buffer closing leaves as it is. -/
namespace Laomb.FS
open Word Loop Transition

variable {content : Content} {read : Reader} {searching : Nat → Reader} {g g' g₀ : FatData}
    {h : Handle} {fd : FileData}
    {shortName : Vector Byte 11} {root : FileData} {v : Layout} {i : Fin 10} {fuel k n byteCount take : Nat}
    {r : Option DirEntry} {ps : List (List Byte × Bool)} {name : Nat → Byte} {junk : Nat → Nat → Byte}

/-! ## In the sector of the buffer -/

theorem advance_inside (inside : (g.file h).position + take < 512) :
    g.advance read h take = (g.setFile { g.file h with position := (g.file h).position + take } h, true) := by
  have more : ¬ 512 - (g.file h).position % 512 = take := by omega
  rw [FatData.advance]
  simp only [if_neg more, u32_of_lt (show (g.file h).position + take < 2 ^ 32 by omega)]

/-- A read that does not use up the first sector moves the position alone. -/
theorem fatRead_inside (inside : (g.file h).position + (g.file h).within byteCount < 512) :
    (g.fatRead read h byteCount).1 =
      g.setFile { g.file h with position := (g.file h).position + (g.file h).within byteCount } h := by
  rw [fatRead_eq]
  by_cases nothing : (g.file h).within byteCount = 0
  · rw [nothing]
    exact (setFile_file g h).symm
  · rw [readLoop_short (by omega) nothing (Nat.le_refl _), advance_inside inside]

theorem fatReadEntry_inside (inside : (g.file h).position + (g.file h).within 32 < 512) :
    g.fatReadEntry read h =
    (g.setFile { g.file h with position := (g.file h).position + (g.file h).within 32 } h,
      if (g.file h).within 32 = 32 then some (slot (g.file h).buffer (g.file h).position) else none) := by
  by_cases nothing : (g.file h).within 32 = 0
  · rw [fatReadEntry_nothing nothing, nothing]
    refine Prod.ext (setFile_file g h).symm rfl
  · rw [fatReadEntry_short (by omega) nothing, advance_inside inside]

/-- A directory in its first sector, and not past its end. -/
structure FirstSector (fd : FileData) : Prop where
  isDirectory : fd.isDirectory = true
  inside : fd.position < 512
  word : fd.size < 2 ^ 32
  sized : fd.size ≠ 0 → fd.position ≤ fd.size

theorem FirstSector.within_eq (first : FirstSector fd) (byteCount : Nat) :
    fd.within byteCount = if fd.size = 0 then byteCount else min byteCount (fd.size - fd.position) := by
  unfold FileData.within
  rw [first.isDirectory]
  by_cases unsized : fd.size = 0
  · simp [unsized]
  · have sized := first.sized unsized
    have word := first.word
    have left : sub32 fd.size fd.position = fd.size - fd.position := by
      unfold sub32 u32
      omega
    simp [unsized, left]

/-- The directory ends before its first sector does. -/
def FileData.Short (fd : FileData) : Prop := fd.size ≠ 0 ∧ fd.size < 512

/-- From its position on, the directory has an entry with the name before the last of the
sector, or it ends before the sector does. -/
def FileData.EndsInside (fd : FileData) (shortName : Vector Byte 11) : Prop :=
  fd.Short ∨ ∃ k, fd.position + 32 * (k + 1) < 512 ∧ shortName = (slot fd.buffer (fd.position + 32 * k)).name

theorem FirstSector.reads (first : FirstSector fd) (few : fd.Short ∨ fd.position + byteCount < 512) :
    FirstSector { fd with position := fd.position + fd.within byteCount } ∧
      fd.position + fd.within byteCount < 512 := by
  obtain ⟨isDirectory, inside, word, sized⟩ := first
  have within_eq := FirstSector.within_eq ⟨isDirectory, inside, word, sized⟩ byteCount
  have within : fd.position + fd.within byteCount < 512 := by
    rw [within_eq]
    split
    · rename_i unsized
      exact few.resolve_left fun short => short.1 unsized
    · rename_i some_size
      have sized := sized some_size
      rcases few with ⟨_, short⟩ | few
      · omega
      · omega
  refine ⟨⟨isDirectory, within, word, fun some_size => ?_⟩, within⟩
  have sized := sized some_size
  dsimp only at some_size ⊢
  rw [within_eq, if_neg some_size]
  omega

/-- A search that ends in the first sector leaves it in the buffer. -/
theorem findLoop_inside (first : FirstSector (g.file h)) (ends : (g.file h).EndsInside shortName)
    (done : FatData.findLoop searching h shortName fuel n g = some (g', r)) :
    ∃ p, FirstSector { g.file h with position := p } ∧ g' = g.setFile { g.file h with position := p } h := by
  induction fuel generalizing n g with
  | zero => cases done
  | succ fuel ih =>
    have few : (g.file h).Short ∨ (g.file h).position + 32 < 512 := by
      apply ends.imp_right
      rintro ⟨k, inside, _⟩
      omega
    obtain ⟨first', inside⟩ := first.reads few
    rw [FatData.findLoop, fatReadEntry_inside inside] at done
    by_cases whole : (g.file h).within 32 = 32
    · rw [whole, if_pos rfl] at done
      rw [whole] at first'
      dsimp only at done
      split at done
      · cases done
        exact ⟨_, first', rfl⟩
      · rename_i other
        have file := file_setFile g { g.file h with position := (g.file h).position + 32 } h
        have ends' :
            FileData.EndsInside { g.file h with position := (g.file h).position + 32 } shortName := by
          apply ends.imp_right
          rintro ⟨_ | k, below, same⟩
          · exact absurd same other
          · have place : (g.file h).position + 32 + 32 * k = (g.file h).position + 32 * (k + 1) := by omega
            refine ⟨k, by dsimp only; omega, ?_⟩
            dsimp only
            rw [place]
            exact same
        obtain ⟨p, first'', moved⟩ := ih (file.symm ▸ first') (file.symm ▸ ends') done
        rw [file] at first'' moved
        exact ⟨p, first'', moved.trans (setFile_setFile g _ _ h)⟩
    · rw [if_neg whole] at done
      cases done
      exact ⟨_, first', rfl⟩

theorem fatClose_root (handle : g.rootDirectory.handle = .root) :
    g.fatClose .root = g.setFile { g.rootDirectory with
    position := 0, currentCluster := g.rootDirectory.firstCluster } .root := by
  have handle' : (g.file .root).handle = .root := handle
  rw [FatData.fatClose, handle']
  rfl

/-! ## The calls -/

/-- A call, with the memory that it finds: that of `get_short_name` for each component and
the stack frame of `FAT_Open`. -/
inductive FatCall where
  | fatOpen (junk : Nat → Nat → Byte) (name : Nat → Byte) (path : List Byte)
  | fatRead (h : Handle) (byteCount : Nat)
  | fatClose (h : Handle)

/-- `FAT_Open` returns, a null handle or not; what is read or closed has been opened. -/
inductive FatStep (read : Reader) : FatData → FatCall → FatData → Prop
  | fatOpen {g g' : FatData} {junk : Nat → Nat → Byte} {name : Nat → Byte} {path : List Byte} {fuel : Nat}
      {file : Option Handle} (returned : g.fatOpen (steady read junk) fuel name path = .returned g' file) :
      FatStep read g (.fatOpen junk name path) g'
  | fatRead {g : FatData} {h : Handle} (opened : (g.file h).opened = true) (byteCount : Nat) :
      FatStep read g (.fatRead h byteCount) (g.fatRead read h byteCount).1
  | fatClose {g : FatData} {h : Handle} (opened : (g.file h).opened = true) :
      FatStep read g (.fatClose h) (g.fatClose h)

/-- The call does not use up the sector that the buffer of the root directory holds: its
first component is found before the last entry, or its bytes end before the sector. -/
def KeepsSector (g : FatData) : FatCall → Prop
  | .fatOpen junk name path => ∀ token isLast rest, passes path = (token, isLast) :: rest →
    g.rootDirectory.EndsInside (getShortName (junk 0) (nameString (copyToken name token isLast) token))
  | .fatRead .root byteCount => g.rootDirectory.Short ∨ g.rootDirectory.position + byteCount < 512
  | .fatRead (.opened _) _ => True
  | .fatClose _ => True

/-- The root directory is this, the cache is right, and open slots know their handles. -/
structure Stands (content : Content) (v : Layout) (root : FileData) (g : FatData) : Prop where
  layout : g.toLayout = v
  root : g.rootDirectory = root
  fresh : Fresh content g
  slots : ∀ i, (g.openedFiles i).opened = true → (g.openedFiles i).handle = .opened i

namespace Stands

theorem setRoot (stands : Stands content v root g) (fd : FileData) :
    Stands content v fd (g.setFile fd .root) :=
  ⟨stands.layout, rfl, stands.fresh, stands.slots⟩

theorem setSlot (stands : Stands content v root g) (own : fd.opened = true → fd.handle = .opened i) :
    Stands content v root (g.setFile fd (.opened i)) := by
  refine ⟨stands.layout, stands.root, stands.fresh.setFile fd _, fun j => ?_⟩
  dsimp only [FatData.setFile]
  by_cases same : j = i
  · subst same
    rw [Function.update_self]
    exact own
  · rw [Function.update_of_ne same]
    exact stands.slots j

/-- Reading an opened file moves it and the cache. -/
theorem moved (stands : Stands content v root g) (moved : Moved (.opened i) g g') (fresh : Fresh content g') :
    Stands content v root g' := by
  refine ⟨moved.layout.trans stands.layout, (moved.others .root nofun).trans stands.root, fresh,
    fun j opened => ?_⟩
  by_cases same : j = i
  · subst same
    exact moved.same.handle.trans (stands.slots j (moved.same.opened.symm.trans opened))
  · have file : g'.openedFiles j = g.openedFiles j :=
    moved.others (.opened j) fun eq => same (Handle.opened.inj eq)
    rw [file] at opened ⊢
    exact stands.slots j opened

theorem closeRoot (stands : Stands content v root g) (handle : root.handle = .root)
    (cluster : root.currentCluster = root.firstCluster) :
    Stands content v { root with position := 0 } (g.fatClose .root) := by
  have root_eq := stands.root
  subst root_eq
  have same : { g.rootDirectory with position := 0, currentCluster := g.rootDirectory.firstCluster } =
      { g.rootDirectory with position := 0 } := by
    rw [← cluster]
  rw [fatClose_root handle, same]
  exact stands.setRoot _

theorem closeSlot (stands : Stands content v root g) (handle : (g.openedFiles i).handle = .opened i) :
    Stands content v root (g.fatClose (.opened i)) := by
  have handle' : (g.file (.opened i)).handle = .opened i := handle
  rw [FatData.fatClose, handle']
  exact stands.setSlot fun _ => handle

theorem fatOpenEntry (stands : Stands content v root g) (read : Reader) (entry : Directory) :
    Stands content v root (g.fatOpenEntry read entry).1 ∧ ∀ i, (g.fatOpenEntry read entry).2 = some i →
      ((g.fatOpenEntry read entry).1.openedFiles i).handle = .opened i := by
  have opens := fatOpenEntry_opens read g entry
  generalize g.fatOpenEntry read entry = result at opens
  cases opens with
  | full used => exact ⟨stands, nofun⟩
  | unreadable i fd _ unused =>
    exact ⟨stands.setSlot fun used => absurd (unused.symm.trans used) nofun, nofun⟩
  | opened i buffer =>
    refine ⟨stands.setSlot fun _ => rfl, ?_⟩
    rintro j ⟨⟩
    dsimp only [FatData.setFile]
    rw [Function.update_self]
    rfl

/-- Past the root directory, `FAT_Open` leaves it as it is. -/
theorem openLoop {current : Option (Fin 10)} {file : Option Handle} (stands : Stands content v root g)
    (table : TableReads content v read) (handles : ∀ i ∈ current, (g.openedFiles i).handle = .opened i)
    (done : FatData.openLoop (steady read junk) fuel k ps g name (current.map .opened) = .returned g' file) :
    Stands content v root g' := by
  induction ps generalizing k g name current with
  | nil =>
    cases done
    exact stands
  | cons p ps ih =>
    obtain ⟨token, isLast⟩ := p
    cases current with
    | none => cases done
    | some i =>
      rw [Option.map_some, FatData.openLoop] at done
      dsimp only [steady] at done
      generalize found : g.fatFindFile (fun _ => read) (junk k) fuel (.opened i)
        (nameString (copyToken name token isLast) token) = result at done
      have table' : TableReads content g.toLayout read := stands.layout ▸ table
      cases result with
      | none => cases done
      | some found_at =>
        obtain ⟨g₁, r⟩ := found_at
        have moved : Moved (.opened i) g g₁ := .findLoop found
        have stands₁ := stands.moved moved (stands.fresh.findLoop table' found)
        have closed := stands₁.closeSlot (i := i) (moved.same.handle.trans (handles i rfl))
        cases r with
        | none =>
          cases done
          exact closed
        | some entry =>
          dsimp only at done
          split at done
          · cases done
            exact closed
          · obtain ⟨stands₂, handles₂⟩ := closed.fatOpenEntry read entry.toDirectory
            exact ih stands₂ (fun j opened => handles₂ j opened) done

end Stands
/-- The root directory is that of `fat_init` but for its position, which is in the first sector. -/
def Rewindable (content : Content) (g₀ g : FatData) : Prop :=
  ∃ p, FirstSector { g₀.rootDirectory with position := p } ∧
    Stands content g₀.toLayout { g₀.rootDirectory with position := p } g

/-- What the root directory is after `fat_init`. -/
structure AtStart (fd : FileData) : Prop where
  handle : fd.handle = .root
  cluster : fd.currentCluster = fd.firstCluster
  position : fd.position = 0
  first : FirstSector fd

theorem fatInit_atStart (initialised : fatInit read = some g) : AtStart g.rootDirectory := by
  obtain ⟨bytes, buffer, _, _, rfl⟩ := fatInit_eq initialised
  have few : le16 (bytesOf bytes) 17 < 2 ^ 16 := by
    have low := (bytesOf bytes 17).isLt
    have high := (bytesOf bytes 18).isLt
    unfold le16
    omega
  refine ⟨rfl, rfl, rfl, rfl, Nat.zero_lt_succ _, ?_, fun _ => Nat.zero_le _⟩
  show 32 * le16 (bytesOf bytes) 17 < 2 ^ 32
  omega

namespace Rewindable

variable {call : FatCall}

theorem start (initialised : fatInit read = some g) : Rewindable content g g := by
  have atStart := fatInit_atStart initialised
  obtain ⟨_, empty, unused⟩ := Session.fatInit_some initialised
  have same : { g.rootDirectory with position := 0 } = g.rootDirectory := by rw [← atStart.position]
  refine ⟨0, ?_, rfl, same.symm, .empty empty, fun i used => absurd ((unused i).symm.trans used) nofun⟩
  rw [same]
  exact atStart.first

/-- Closing the root directory moves it to its start. -/
theorem close (rewindable : Rewindable content g₀ g) (atStart : AtStart g₀.rootDirectory) :
    Rewindable content g₀ (g.fatClose .root) := by
  obtain ⟨p, first, stands⟩ := rewindable
  refine ⟨0, ?_, stands.closeRoot atStart.handle atStart.cluster⟩
  exact ⟨first.isDirectory, Nat.zero_lt_succ _, first.word, fun _ => Nat.zero_le _⟩

theorem fatOpen {file : Option Handle} {path : List Byte} (rewindable : Rewindable content g₀ g)
    (atStart : AtStart g₀.rootDirectory)
    (table : TableReads content g₀.toLayout read) (keeps : KeepsSector g (.fatOpen junk name path))
    (returned : g.fatOpen (steady read junk) fuel name path = .returned g' file) :
      Rewindable content g₀ g' := by
  unfold FatData.fatOpen at returned
  cases components : passes path with
  | nil =>
    rw [components] at returned
    cases returned
    exact rewindable
  | cons p rest =>
    obtain ⟨token, isLast⟩ := p
    obtain ⟨p, first, stands⟩ := rewindable
    have ends : (g.file .root).EndsInside _ := keeps token isLast rest components
    rw [components, FatData.openLoop] at returned
    dsimp only [steady] at returned
    generalize found : g.fatFindFile (fun _ => read) (junk 0) fuel .root
      (nameString (copyToken name token isLast) token) = result at returned
    cases result with
    | none => cases returned
    | some found_at =>
      obtain ⟨g₁, r⟩ := found_at
      have root : g.file .root = { g₀.rootDirectory with position := p } := stands.root
      obtain ⟨q, first', moved⟩ := findLoop_inside (root.symm ▸ first) ends found
      rw [root] at first' moved
      have rewindable₁ : Rewindable content g₀ g₁ := ⟨q, first', moved ▸ stands.setRoot _⟩
      have closed := rewindable₁.close atStart
      cases r with
      | none =>
        cases returned
        exact closed
      | some entry =>
        dsimp only at returned
        split at returned
        · cases returned
          exact closed
        · obtain ⟨q, first'', stands'⟩ := closed
          obtain ⟨stands₂, handles⟩ := stands'.fatOpenEntry read entry.toDirectory
          exact ⟨q, first'', stands₂.openLoop table (fun j opened => handles j opened) returned⟩

theorem step (rewindable : Rewindable content g₀ g) (atStart : AtStart g₀.rootDirectory)
    (table : TableReads content g₀.toLayout read) (step : FatStep read g call g')
    (keeps : KeepsSector g call) :
    Rewindable content g₀ g' := by
  cases step with
  | fatOpen returned => exact rewindable.fatOpen atStart table keeps returned
  | @fatRead h opened byteCount =>
    obtain ⟨p, first, stands⟩ := rewindable
    cases h with
    | root =>
      have root : g.file .root = { g₀.rootDirectory with position := p } := stands.root
      have few : (g.file .root).Short ∨ (g.file .root).position + byteCount < 512 := keeps
      obtain ⟨first', inside⟩ := (root.symm ▸ first : FirstSector (g.file .root)).reads few
      rw [fatRead_inside inside]
      rw [root] at first' ⊢
      exact ⟨_, first', stands.setRoot _⟩
    | opened i =>
      have table' : TableReads content g.toLayout read := stands.layout ▸ table
      exact ⟨p, first, stands.moved (.fatRead read g _ byteCount) (stands.fresh.readLoop table' _ _ _)⟩
  | @fatClose h opened =>
    cases h with
    | root => exact rewindable.close atStart
    | opened i =>
      obtain ⟨p, first, stands⟩ := rewindable
      exact ⟨p, first, stands.closeSlot (stands.slots i opened)⟩

end Rewindable

/-- `FAT_Open` comes to this outcome. -/
def FatData.ComesTo (g : FatData) (read : Reader) (junk : Nat → Nat → Byte) (name : Nat → Byte)
    (path : List Byte)
    (outcome : Outcome) : Prop :=
  ∃ fuel, (g.fatOpen (steady read junk) fuel name path).outcome = some outcome

/-- A longer search comes to the same end, so that there is one outcome at most. -/
theorem openLoop_unique {fuel' : Nat} {current : Option Handle} {o o' : Outcome}
    (done : (FatData.openLoop (steady read junk) fuel k ps g name current).outcome = some o)
    (done' : (FatData.openLoop (steady read junk) fuel' k ps g name current).outcome = some o') : o = o' := by
  induction ps generalizing k g name current with
  | nil =>
    rw [FatData.openLoop] at done done'
    exact Option.some.inj (done.symm.trans done')
  | cons p ps ih =>
    obtain ⟨token, isLast⟩ := p
    cases current with
    | none => exact Option.some.inj (done.symm.trans done')
    | some h =>
      rw [FatData.openLoop] at done done'
      dsimp only [steady] at done done'
      generalize found : g.fatFindFile (fun _ => read) (junk k) fuel h
        (nameString (copyToken name token isLast) token) = result at done
      generalize found' : g.fatFindFile (fun _ => read) (junk k) fuel' h
        (nameString (copyToken name token isLast) token) = result' at done'
      cases result with
      | none => cases done
      | some found_at =>
        cases result' with
        | none => cases done'
        | some found_at' =>
          rw [FatData.fatFindFile, findLoop_eq] at found found'
          obtain rfl := loop_unique found found'
          obtain ⟨g₁, r⟩ := found_at
          cases r with
          | none => exact Option.some.inj (done.symm.trans done')
          | some entry =>
            dsimp only at done done'
            split at done
            · rename_i stops
              rw [if_pos stops] at done'
              exact Option.some.inj (done.symm.trans done')
            · rename_i enters
              rw [if_neg enters] at done'
              exact ih done done'

theorem FatData.ComesTo.unique {path : List Byte} {o o' : Outcome} (comes : g.ComesTo read junk name path o)
    (comes' : g.ComesTo read junk name path o') : o = o' := by
  obtain ⟨_, done⟩ := comes
  obtain ⟨_, done'⟩ := comes'
  exact openLoop_unique done done'

/-- After calls that keep the first sector of the root directory in its buffer, and with the
root directory closed, lookups that stay in the table come to the outcome that they come to
right after `fat_init`. -/
theorem run_lookups (initialised : fatInit read = some g₀) (table : TableReads content g₀.toLayout read)
    {calls : List FatCall} (run : Run (Along (FatStep read) KeepsSector) g₀ calls g)
    (free : ∃ i, (g.openedFiles i).opened = false) (rewound : g.rootDirectory.position = 0) {path : List Byte}
    (follows : FollowsTable read junk 0 (passes path) g₀ name .root) (outcome : Outcome) :
    g.ComesTo read junk name path outcome ↔ g₀.ComesTo read junk name path outcome := by
  have atStart := fatInit_atStart initialised
  have fresh₀ : Fresh content g₀ := .empty (Session.fatInit_some initialised).2.1
  obtain ⟨p, _, stands⟩ : Rewindable content g₀ g :=
    run.invariant (I := fun g => Rewindable content g₀ g)
      (fun _ _ _ rewindable step => rewindable.step atStart table step.1 step.2) (.start initialised)
  have start : p = 0 := by
    have root := congrArg FileData.position stands.root
    exact root.symm.trans rewound
  subst start
  have same : g.rootDirectory = g₀.rootDirectory := by
    rw [stands.root, ← atStart.position]
  have alike : Alike content .root .root g₀ g :=
    ⟨stands.layout, atStart.handle, same.trans (with_handle atStart.handle).symm, Iff.rfl, fresh₀,
      stands.fresh⟩
  have room : Room g₀ .root := fun _ => ⟨0, (Session.fatInit_some initialised).2.2 0⟩
  have aligned : (g₀.file .root).position % 32 = 0 := by
    show g₀.rootDirectory.position % 32 = 0
    rw [atStart.position]
  unfold FatData.ComesTo FatData.fatOpen
  simp only [fun fuel => alike.openLoop table aligned room (fun _ => free) junk fuel 0
    (passes path) name follows]

/-! ## Two files of one name -/

/-- The entries of a sector are those of the device. -/
theorem slot_sectors (content : Content) (n : Nat) {position : Nat} (inside : position + 32 ≤ 512) :
    slot (sectors content n 1) position = dirEntry fun i => content (n * 512 + (position + i)) := by
  refine dirEntry_congr fun i below => ?_
  rw [bytesOf_sectors (by omega), Nat.mod_eq_of_lt (by omega)]

/-- A name in the buffer of the root directory is opened. -/
theorem comesTo_carried (root : g.rootDirectory.handle = .root) (listing : Listing g.rootDirectory)
    (start : g.rootDirectory.position = 0)
    (free : ∃ i, (g.openedFiles i).opened = false) {path token : List Byte}
    (components : passes path = [(token, true)]) {j : Nat} (inside : j < 16)
    (others : ∀ k < j, getShortName (junk 0) (nameString (copyToken name token true) token) ≠
      (slot g.rootDirectory.buffer (32 * k)).name) {entry : DirEntry}
    (carried : slot g.rootDirectory.buffer (32 * j) = entry)
    (same : getShortName (junk 0) (nameString (copyToken name token true) token) = entry.name)
    {buffer : Vector Byte (1 * 512)} (loaded : read (g.clusterToLba entry.firstCluster) 1 = some buffer) :
    g.ComesTo read junk name path (.opened entry.firstCluster entry.size.toNat entry.isDirectory) := by
  have listing' : Listing (g.file .root) := listing
  have start' : (g.file .root).position % 512 ≤ 32 * j := by
    rw [show (g.file .root).position = 0 from start]
    exact Nat.zero_le _
  have carried' : slot (g.file .root).buffer (32 * j) = entry := carried
  obtain ⟨k, goes⟩ := goes_atSlot read listing' inside start' fun k less _ => others k less
  have found := goes.ends (findStep_atSlot listing' inside (carried'.symm ▸ same))
  rw [carried'] at found
  rw [← findLoop_eq read .root _ (k + 1) 0] at found
  have moved : Moved .root g ((g.atSlot .root j).advance read .root 32).1 := .findLoop found
  have handle : (((g.atSlot .root j).advance read .root 32).1.file .root).handle = .root :=
    moved.same.handle.trans root
  obtain ⟨layout, _, free'⟩ := @fatClose_spec (fun _ => 0) _ _ handle (Room.moved (fun _ => free) moved)
  refine ⟨k + 1, ?_⟩
  rw [FatData.fatOpen, components, FatData.openLoop]
  dsimp only [steady]
  rw [FatData.fatFindFile, found]
  dsimp only
  rw [if_neg (by simp)]
  have opens := fatOpenEntry_opens read
    (((g.atSlot .root j).advance read .root 32).1.fatClose .root) entry.toDirectory
  have lba := clusterToLba_congr (layout.trans moved.layout) entry.firstCluster
  generalize (((g.atSlot .root j).advance read .root 32).1.fatClose .root).fatOpenEntry read
    entry.toDirectory = result at opens
  cases opens with
  | full used =>
    obtain ⟨i, free'⟩ := free'
    cases free'.symm.trans (used i)
  | unreadable i fd _ _ unreadable =>
    rw [lba, loaded] at unreadable
    cases unreadable
  | opened i buffer' =>
    rw [Option.map_some, FatData.openLoop, Opening.outcome, file_setFile]
    rfl

/-- A read of the first sector leaves the next one in the buffer. -/
theorem fatRead_sector (root : g.rootDirectory.handle = .root) (listing : Listing g.rootDirectory)
    (start : g.rootDirectory.position = 0) : (g.fatRead read .root 512).1.rootDirectory =
      { g.rootDirectory with
      position := 512
      currentCluster := u32 (g.rootDirectory.currentCluster + 1)
      buffer := (read (u32 (g.rootDirectory.currentCluster + 1)) 1).getD g.rootDirectory.buffer } := by
  have listing' : Listing (g.file .root) := listing
  have start' : (g.file .root).position = 0 := start
  have whole : (g.file .root).within 512 = 512 := by
    simp [FileData.within, listing'.isDirectory, listing'.unsized]
  have moved : (g.setFile { g.file .root with position := 512 } .root).rootDirectory.handle = .root := root
  have last : u32 (0 + 512) = 512 := by decide
  rw [fatRead_eq, whole, readLoop_short (by rw [start']) (by decide) (Nat.le_refl _), FatData.advance]
  simp only [start', Nat.zero_mod, Nat.sub_zero, if_true, last]
  rw [nextSector_root moved]
  rfl

/-- A volume of seven sectors: the boot sector, the table, the root directory, a directory `D`
of it and three more clusters. Both directories have a file `A`, in clusters 4 and 6. -/
def twinVolume : Content := fun n =>
  let fields : List (Nat × Byte) :=
    [(13, 1), (14, 1), (16, 1), (36, 1), (44, 2), (512, 0xF8),
      (1024, 0x41), (1050, 4), (1052, 1), (1056, 0x44), (1067, 0x10), (1082, 3),
      (1536, 0x2E), (1547, 0x10), (1562, 3), (1568, 0x2E), (1569, 0x2E), (1579, 0x10), (1600, 0x41),
        (1626, 6), (1628, 2)]
  (fields.lookup n).getD
    (if 512 ≤ n ∧ n < 540 then if n % 4 = 3 then 0x0F else 0xFF
    else if (1024 ≤ n ∧ n < 1088 ∨ 1536 ≤ n ∧ n < 1632) ∧ n % 32 < 11 then 0x20 else 0)

def twinRead : Reader := mbrReadSector twinVolume ⟨0, 7⟩

/-- The memory is full of spaces. -/
def spaces (_ _ : Nat) : Byte := 0x20

theorem twin_table {v : Layout} (layout : v = ⟨⟨1, 1, 1, 0, 0, 0, 1, 2⟩, 2, 1⟩) :
    TableReads twinVolume v twinRead := by
  subst layout
  intro n one
  have none : n = 0 := Nat.lt_one_iff.mp one
  subst none
  have reads : Reads twinRead (Partition.content ⟨0, 7⟩ twinVolume) 1 5 :=
    mbrReadSector_reads (by decide) (by decide) 5
  have same : Partition.content ⟨0, 7⟩ twinVolume = twinVolume :=
    funext fun i => congrArg twinVolume (Nat.zero_add i)
  rwa [same] at reads

theorem twin_init : ∃ g, fatInit twinRead = some g ∧ g.toLayout = ⟨⟨1, 1, 1, 0, 0, 0, 1, 2⟩, 2, 1⟩ := by
  have layout : (fatInit twinRead).map FatData.toLayout = some ⟨⟨1, 1, 1, 0, 0, 0, 1, 2⟩, 2, 1⟩ := by
    decide +kernel
  exact Option.map_eq_some_iff.mp layout

theorem twin_read {n : Nat} (inside : n < 7) : twinRead n 1 = some (sectors twinVolume n 1) := by
  have reads : Reads twinRead (Partition.content ⟨0, 7⟩ twinVolume) n 1 :=
    mbrReadSector_reads inside (inside.trans (by decide)) 1
  have same : Partition.content ⟨0, 7⟩ twinVolume = twinVolume :=
    funext fun i => congrArg twinVolume (Nat.zero_add i)
  rw [same] at reads
  exact reads.2

theorem twin_root (initialised : fatInit twinRead = some g)
    (layout : g.toLayout = ⟨⟨1, 1, 1, 0, 0, 0, 1, 2⟩, 2, 1⟩) :
    g.file .root = .ofRoot g (sectors twinVolume 2 1) ∧ Listing (g.file .root) := by
  obtain ⟨buffer, loaded, root⟩ := fatInit_root initialised
  have lba : g.clusterToLba g.boot.rootDirectoryCluster = 2 := by
    rw [FatData.clusterToLba, layout]
    decide
  rw [lba, twin_read (by decide)] at loaded
  obtain rfl := Option.some.inj loaded
  refine ⟨root, fatInit_listing initialised ?_⟩
  rw [layout]

/-- The one cluster of `D`. -/
theorem twin_chain : DirChain twinVolume ⟨⟨1, 1, 1, 0, 0, 0, 1, 2⟩, 2, 1⟩ 3 [3] :=
  ⟨rfl, .singleton 3, by decide, by decide⟩

theorem twin_served : Served twinVolume ⟨⟨1, 1, 1, 0, 0, 0, 1, 2⟩, 2, 1⟩ twinRead [3] := by
  refine ⟨twin_table rfl, fun c member j one => ?_⟩
  have none : j = 0 := Nat.lt_one_iff.mp one
  subst none
  rw [List.mem_singleton.mp member]
  exact ⟨by decide, twin_read (by decide)⟩

/-- `D` is in the first sector of the root directory, and `A` in the chain of `D`. -/
theorem twin_carried : PathCarried twinVolume ⟨⟨1, 1, 1, 0, 0, 0, 1, 2⟩, 2, 1⟩ twinRead spaces (fun _ => 0)
    (sectors twinVolume 2 1) (passes [0x44, 0x2F, 0x41]) := by
  have components : passes [0x44, 0x2F, 0x41] = [([0x44], false), ([0x41], true)] := by decide
  rw [components]
  have directory : (slot (sectors twinVolume 2 1) (32 * 1)).toDirectory = ⟨0x10, 0, 3, 0⟩ := by
    rw [slot_sectors _ _ (by decide)]
    decide +kernel
  refine ⟨1, by decide, ?_, fun k before => ?_, fun _ => ?_⟩
  · rw [slot_sectors _ _ (by decide)]
    decide +kernel
  · obtain rfl := Nat.lt_one_iff.mp before
    rw [slot_sectors _ _ (by decide)]
    decide +kernel
  · rw [directory]
    refine ⟨by decide, by decide, [3], twin_chain, twin_served, ?_, fun _ _ _ _ => trivial⟩
    refine ⟨3, List.mem_singleton.mpr rfl, 0, by decide, 2, by decide, ?_⟩
    change _ = (slot (sectors twinVolume 3 1) (32 * 2)).name
    rw [slot_sectors _ _ (by decide)]
    decide +kernel

theorem twin_follows (initialised : fatInit twinRead = some g)
    (layout : g.toLayout = ⟨⟨1, 1, 1, 0, 0, 0, 1, 2⟩, 2, 1⟩) :
    FollowsTable twinRead spaces 0 (passes [0x44, 0x2F, 0x41]) g (fun _ => 0) .root := by
  have root : g.rootDirectory = .ofRoot g (sectors twinVolume 2 1) := (twin_root initialised layout).1
  have buffer : g.rootDirectory.buffer = sectors twinVolume 2 1 := by rw [root, FileData.ofRoot]
  have carried := twin_carried
  rw [← layout, ← buffer] at carried
  refine carried.follows initialised ?_ (twin_table layout) ?_ ?_
  all_goals rw [layout]
  · decide
  · decide

/-- The root directory is opened, read for some bytes and closed. -/
def listRoot (byteCount : Nat) : List FatCall :=
  [.fatOpen spaces (fun _ => 0) [0x2F], .fatRead .root byteCount, .fatClose .root]

theorem run_listRoot (initialised : fatInit read = some g) (byteCount : Nat) :
    ∃ g₁, g₁ = (g.fatRead read .root byteCount).1.fatClose .root ∧
      Run (FatStep read) g (listRoot byteCount) g₁ ∧
      (KeepsSector g (.fatRead .root byteCount) →
        Run (Along (FatStep read) KeepsSector) g (listRoot byteCount) g₁) ∧
      (∃ i, (g₁.openedFiles i).opened = false) ∧ g₁.rootDirectory.position = 0 := by
  obtain ⟨buffer, _, root⟩ := fatInit_root initialised
  have opened : (g.file .root).opened = true := congrArg FileData.opened root
  have handle : (g.file .root).handle = .root := congrArg FileData.handle root
  have moved := Moved.fatRead read g .root byteCount
  have handle' : ((g.fatRead read .root byteCount).1.file .root).handle = .root :=
    moved.same.handle.trans handle
  have room : Room g .root := fun _ => ⟨0, (Session.fatInit_some initialised).2.2 0⟩
  have returned : g.fatOpen (steady read spaces) 0 (fun _ => 0) [0x2F] = .returned g (some .root) := rfl
  have first : FatStep read g (.fatOpen spaces (fun _ => 0) [0x2F]) g := .fatOpen returned
  have second : FatStep read g (.fatRead .root byteCount) (g.fatRead read .root byteCount).1 :=
    .fatRead opened byteCount
  have third : FatStep read (g.fatRead read .root byteCount).1 (.fatClose .root) _ :=
    .fatClose (moved.same.opened.trans opened)
  refine ⟨_, rfl, .next first (.next second (.single third)), fun keeps => ?_, ?_, ?_⟩
  · refine .next ⟨first, ?_⟩ (.next ⟨second, keeps⟩ (.single ⟨third, trivial⟩))
    intro token isLast rest components
    cases components
  · exact (@fatClose_spec (fun _ => 0) _ _ handle' (room.moved moved)).2.2
  · rw [fatClose_root handle']
    rfl

/-- A lookup of `D/A` after the first entry of the root directory has been read. -/
theorem run_lookups_twin : ∃ g₀ g, fatInit twinRead = some g₀ ∧
    Run (Along (FatStep twinRead) KeepsSector) g₀ (listRoot 32) g ∧
    ∀ outcome, g.ComesTo twinRead spaces (fun _ => 0) [0x44, 0x2F, 0x41] outcome ↔
      g₀.ComesTo twinRead spaces (fun _ => 0) [0x44, 0x2F, 0x41] outcome := by
  obtain ⟨g₀, initialised, layout⟩ := twin_init
  obtain ⟨g, _, _, run, free, rewound⟩ := run_listRoot initialised 32
  have keeps : KeepsSector g₀ (.fatRead .root 32) := by
    right
    rw [(fatInit_atStart initialised).position]
    decide
  exact ⟨g₀, g, initialised, run keeps, run_lookups initialised (twin_table layout) (run keeps) free rewound
    (twin_follows initialised layout)⟩

/-- The entries of a sector. -/
def twinEntry (n k : Nat) : DirEntry := dirEntry fun i => twinVolume (n * 512 + (32 * k + i))

/-- `A` is looked up in the sector that the buffer of the root directory holds. -/
theorem twin_finds (n j c size : Nat) (layout : g.toLayout = ⟨⟨1, 1, 1, 0, 0, 0, 1, 2⟩, 2, 1⟩)
    (handle : g.rootDirectory.handle = .root) (listing : Listing g.rootDirectory)
    (start : g.rootDirectory.position = 0) (free : ∃ i, (g.openedFiles i).opened = false)
    (holds : g.rootDirectory.buffer = sectors twinVolume n 1) (inside : j < 16)
    (others : ∀ k < j, getShortName (spaces 0) [0x41] ≠ (twinEntry n k).name)
    (same : getShortName (spaces 0) [0x41] = (twinEntry n j).name)
    (cluster : (twinEntry n j).firstCluster = c) (long : (twinEntry n j).size.toNat = size)
    (file : (twinEntry n j).isDirectory = false) (small : 2 ≤ c ∧ c < 7) :
    g.ComesTo twinRead spaces (fun _ => 0) [0x41] (.opened c size false) := by
  have components : passes [0x41] = [([0x41], true)] := by decide
  have string : nameString (copyToken (fun _ => 0) [0x41] true) [0x41] = [0x41] := by decide
  have slots : ∀ k < 16, slot g.rootDirectory.buffer (32 * k) = twinEntry n k := by
    intro k below
    rw [holds, slot_sectors _ _ (by omega)]
    rfl
  have lba : g.clusterToLba (twinEntry n j).firstCluster = c := by
    rw [FatData.clusterToLba, layout, cluster]
    simp only [u32, sub32]
    omega
  have loaded : twinRead (g.clusterToLba (twinEntry n j).firstCluster) 1 = some (sectors twinVolume c 1) := by
    rw [lba, twin_read small.2]
  have found := comesTo_carried handle listing start free components inside
    (fun k less => by rw [string, slots k (by omega)]; exact others k less) (slots j inside)
    (by rw [string]; exact same) loaded
  rw [cluster, long, file] at found
  exact found

/-- A lookup of `A` before and after the first sector of the root directory has been read. -/
theorem listRoot_differs : ∃ g₀ g, fatInit twinRead = some g₀ ∧ TableReads twinVolume g₀.toLayout twinRead ∧
    Run (FatStep twinRead) g₀ (listRoot 512) g ∧ (∃ i, (g.openedFiles i).opened = false) ∧
    g₀.ComesTo twinRead spaces (fun _ => 0) [0x41] (.opened 4 1 false) ∧
    ¬ g.ComesTo twinRead spaces (fun _ => 0) [0x41] (.opened 4 1 false) := by
  obtain ⟨g₀, initialised, layout⟩ := twin_init
  obtain ⟨g, after, run, _, free, rewound⟩ := run_listRoot initialised 512
  obtain ⟨root, listing⟩ := twin_root initialised layout
  have handle : g₀.rootDirectory.handle = .root := congrArg FileData.handle root
  have start : g₀.rootDirectory.position = 0 := congrArg FileData.position root
  have listing₀ : Listing g₀.rootDirectory := listing
  have moved := Moved.fatRead twinRead g₀ .root 512
  have handle₁ : (g₀.fatRead twinRead .root 512).1.rootDirectory.handle = .root :=
    moved.same.handle.trans handle
  have sector := @fatRead_sector twinRead g₀ handle listing₀ start
  have next : u32 (g₀.rootDirectory.currentCluster + 1) = 3 := by
    rw [show g₀.rootDirectory.currentCluster = g₀.clusterToLba g₀.boot.rootDirectoryCluster from
      congrArg FileData.currentCluster root, FatData.clusterToLba, layout]
    decide
  rw [next, twin_read (by decide), Option.getD_some] at sector
  have closed := fatClose_root handle₁
  rw [← after] at closed
  generalize (g₀.fatRead twinRead .root 512).1 = g₁ at moved sector closed
  have layout' : g.toLayout = ⟨⟨1, 1, 1, 0, 0, 0, 1, 2⟩, 2, 1⟩ := by
    rw [closed, layout_setFile, moved.layout, layout]
  have root' : g.rootDirectory = { g₀.rootDirectory with
      position := 0, currentCluster := g₀.rootDirectory.firstCluster, buffer := sectors twinVolume 3 1 } := by
    rw [closed]
    dsimp only [FatData.setFile]
    rw [sector]
  have handle' : g.rootDirectory.handle = .root := by
    rw [root']
    exact handle
  have listing' : Listing g.rootDirectory := by
    rw [root']
    exact ⟨listing₀.isDirectory, listing₀.unsized, rfl, Nat.two_pow_pos 32⟩
  have root₀ : g₀.rootDirectory = .ofRoot g₀ (sectors twinVolume 2 1) := root
  have buffer : g₀.rootDirectory.buffer = sectors twinVolume 2 1 := by rw [root₀, FileData.ofRoot]
  have buffer' : g.rootDirectory.buffer = sectors twinVolume 3 1 := by rw [root']
  have before :=
    twin_finds 2 0 4 1 layout handle listing₀ start ⟨0, (Session.fatInit_some initialised).2.2 0⟩ buffer
    (by decide) (fun k less => absurd less (Nat.not_lt_zero k))
      (by decide +kernel) (by decide +kernel) (by decide +kernel) (by decide +kernel) (by decide)
  have later :=
    twin_finds 3 2 6 2 layout' handle' listing' rewound free buffer' (by decide) (by decide +kernel)
    (by decide +kernel) (by decide +kernel) (by decide +kernel) (by decide +kernel) (by decide)
  refine ⟨g₀, g, initialised, twin_table layout, run, free, before, fun comes => ?_⟩
  cases later.unique comes

end Laomb.FS
