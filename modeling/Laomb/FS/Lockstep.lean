import Laomb.FS.Slots
import Laomb.FS.Cache

/-! Two lookups of a path in lockstep. The files that they search are the same but for the
handles, the caches may differ, and the clusters that they look up are those of the table. -/
namespace Laomb.FS
open Word Loop

variable {content : Content} {read : Reader} {g g' g₁ g₁' : FatData} {h h' : Handle} {fd : FileData}
    {shortName : Vector Byte 11} {take byteCount fuel : Nat}

/-- The entry of the cluster is one of the table. -/
structure Tabled (v : Layout) (c : Nat) : Prop where
  small : c < 2 ^ 28
  inside : c * 4 / 512 < v.sectorsPerFat

/-- The same directory under two handles, at the same place. -/
structure Alike (content : Content) (h h' : Handle) (g g' : FatData) : Prop where
  layout : g'.toLayout = g.toLayout
  handle : (g.file h).handle = h
  file : g'.file h' = { g.file h with handle := h' }
  root : h = .root ↔ h' = .root
  left : Fresh content g
  right : Fresh content g'

theorem clusterToLba_congr (layout : g'.toLayout = g.toLayout) (c : Nat) :
    g'.clusterToLba c = g.clusterToLba c := by
  rw [FatData.clusterToLba, FatData.clusterToLba, layout]

theorem with_handle (handle : fd.handle = h) : { fd with handle := h } = fd := by
  subst handle
  rfl

/-- A lookup in the table moves no file. -/
theorem file_fatNextCluster (read : Reader) (g : FatData) (h : Handle) (c : Nat) :
    (g.fatNextCluster read c).1.file h = g.file h := by
  unfold FatData.fatNextCluster
  dsimp only
  split
  · unfold FatData.readFat
    cases read (u32 (g.boot.reservedSectors + u32 (c * 4) / 512)) 5 with
    | none => cases h <;> rfl
    | some sectors => cases h <;> rfl
  · rfl

namespace Alike

theorem setFile (alike : Alike content h h' g g') (fd : FileData) (handle : fd.handle = h) :
    Alike content h h' (g.setFile fd h) (g'.setFile { fd with handle := h' } h') := by
  constructor
  · rw [layout_setFile, layout_setFile, alike.layout]
  · rw [file_setFile, handle]
  · rw [file_setFile, file_setFile]
  · exact alike.root
  · exact alike.left.setFile fd h
  · exact alike.right.setFile _ h'

/-- The next cluster is that of the table, whatever the caches hold. -/
theorem next (alike : Alike content h h' g g') (table : TableReads content g.toLayout read) {c : Nat}
    (tabled : Tabled g.toLayout c) :
    (g'.fatNextCluster read c).2 = (g.fatNextCluster read c).2 ∧
      Alike content h h' (g.fatNextCluster read c).1 (g'.fatNextCluster read c).1 := by
  have table' : TableReads content g'.toLayout read := alike.layout ▸ table
  have tabled' : Tabled g'.toLayout c := alike.layout ▸ tabled
  have kept := Moved.fatNextCluster read g h c
  have kept' := Moved.fatNextCluster read g' h' c
  constructor
  · rw [alike.left.entry table tabled.small tabled.inside,
      alike.right.entry table' tabled'.small tabled'.inside,
      alike.layout]
  · have file := file_fatNextCluster read g h c
    have file' := file_fatNextCluster read g' h' c
    constructor
    · rw [kept.layout, kept'.layout, alike.layout]
    · rw [file, alike.handle]
    · rw [file, file', alike.file]
    · exact alike.root
    · exact alike.left.next table c
    · exact alike.right.next table' c

theorem loadSector (alike : Alike content h h' g g') (fd : FileData) (handle : fd.handle = h) :
    (g'.loadSector read h' { fd with handle := h' }).2 = (g.loadSector read h fd).2 ∧
      Alike content h h' (g.loadSector read h fd).1 (g'.loadSector read h' { fd with handle := h' }).1 := by
  unfold FatData.loadSector
  dsimp only
  rw [clusterToLba_congr alike.layout]
  split
  · exact ⟨rfl, alike.setFile _ handle⟩
  · cases read (u32 (g.clusterToLba fd.currentCluster + fd.sectorInCluster)) 1 with
    | none => exact ⟨rfl, alike.setFile _ handle⟩
    | some buffer => exact ⟨rfl, alike.setFile _ handle⟩

/-- The next sector is the same, if its cluster has not to be looked up or is in the table. -/
theorem nextSector (alike : Alike content h h' g g') (table : TableReads content g.toLayout read)
    (tabled : h ≠ .root → Tabled g.toLayout (g.file h).currentCluster) :
    (g'.nextSector read h').2 = (g.nextSector read h).2 ∧
      Alike content h h' (g.nextSector read h).1 (g'.nextSector read h').1 := by
  have file := alike.file
  cases h with
  | root =>
    obtain rfl := alike.root.mp rfl
    have handle : g.rootDirectory.handle = .root := alike.handle
    have same : g'.rootDirectory = g.rootDirectory := file.trans (with_handle handle)
    rw [nextSector_root handle, nextSector_root (same ▸ handle), same]
    have moved : ∀ fd : FileData, fd.handle = .root →
        Alike content .root .root (g.setFile fd .root) (g'.setFile fd .root) := by
      intro fd root
      have moved := alike.setFile fd root
      rwa [with_handle root] at moved
    exact ⟨rfl, moved _ handle⟩
  | opened i =>
    cases h' with
    | root => cases alike.root.mpr rfl
    | opened j =>
      have handle : (g.openedFiles i).handle = .opened i := alike.handle
      have file' : g'.openedFiles j = { g.openedFiles i with handle := .opened j } := file
      obtain ⟨same, next⟩ := alike.next table (tabled nofun)
      have same' : (g'.fatNextCluster read (g.openedFiles i).currentCluster).2 =
          (g.fatNextCluster read (g.openedFiles i).currentCluster).2 := same
      rw [nextSector_opened handle, nextSector_opened (by rw [file']), file']
      dsimp only
      rw [alike.layout, same']
      split
      · exact next.loadSector { g.openedFiles i with
          sectorInCluster := 0
          currentCluster := (g.fatNextCluster read (g.openedFiles i).currentCluster).2 } handle
      · exact alike.loadSector { g.openedFiles i with
          sectorInCluster := u32 ((g.openedFiles i).sectorInCluster + 1) } handle

theorem advance (alike : Alike content h h' g g') (table : TableReads content g.toLayout read) (take : Nat)
    (tabled : h ≠ .root → Tabled g.toLayout (g.file h).currentCluster) :
    (g'.advance read h' take).2 = (g.advance read h take).2 ∧
      Alike content h h' (g.advance read h take).1 (g'.advance read h' take).1 := by
  have moved := alike.setFile { g.file h with position := u32 ((g.file h).position + take) } alike.handle
  unfold FatData.advance
  rw [alike.file]
  dsimp only
  split
  · refine moved.nextSector (layout_setFile g _ h ▸ table) fun other => ?_
    rw [layout_setFile, file_setFile]
    exact tabled other
  · exact ⟨rfl, moved⟩

/-- An entry is read in one pass, the same entry at both places. -/
theorem fatReadEntry (alike : Alike content h h' g g') (table : TableReads content g.toLayout read)
    (aligned : (g.file h).position % 32 = 0)
    (tabled : h ≠ .root → (g.file h).within 32 = 0 ∨ Tabled g.toLayout (g.file h).currentCluster) :
    (g'.fatReadEntry read h').2 = (g.fatReadEntry read h).2 ∧
      Alike content h h' (g.fatReadEntry read h).1 (g'.fatReadEntry read h').1 ∧
      ((g.fatReadEntry read h).2.isSome = true → ((g.fatReadEntry read h).1.file h).position % 32 = 0) := by
  have same : (g'.file h').within 32 = (g.file h).within 32 := by rw [alike.file]; rfl
  have few := (g.file h).within_le 32
  by_cases nothing : (g.file h).within 32 = 0
  · rw [fatReadEntry_nothing nothing, fatReadEntry_nothing (same.trans nothing)]
    exact ⟨rfl, alike, nofun⟩
  · have short : (g.file h).within 32 ≤ 512 - (g.file h).position % 512 := by omega
    have short' : (g.file h).within 32 ≤ 512 - (g'.file h').position % 512 := by
      rw [alike.file]
      exact short
    obtain ⟨_, next⟩ :=
      alike.advance table ((g.file h).within 32) fun other => (tabled other).resolve_left nothing
    rw [fatReadEntry_short short nothing, fatReadEntry_short (same.symm ▸ short')
      (same.symm ▸ nothing), same, alike.file]
    refine ⟨rfl, next, fun found => ?_⟩
    have whole : (g.file h).within 32 = 32 := by
      by_contra less
      dsimp only at found
      rw [if_neg less] at found
      cases found
    dsimp only
    rw [position_advance, whole, u32]
    omega

end Alike

/-- Every entry that the search comes to lies in a cluster of the table. -/
def SearchesTable (read : Reader) (h : Handle) (shortName : Vector Byte 11) (g : FatData) : Prop :=
  ∀ k g₁, Goes (FatData.findStep read h shortName) k g g₁ → h ≠ .root →
    (g₁.file h).within 32 = 0 ∨ Tabled g₁.toLayout (g₁.file h).currentCluster

/-- The same layout, and between the same two entries. -/
structure InStep (content : Content) (v : Layout) (h h' : Handle) (g g' : FatData) : Prop where
  alike : Alike content h h' g g'
  layout : g.toLayout = v
  aligned : (g.file h).position % 32 = 0

/-- The same entry is found, or none in both searches. -/
structure SameEnd (content : Content) (h h' : Handle) (end₁ end₂ : FatData × Option DirEntry) : Prop where
  alike : Alike content h h' end₁.1 end₂.1
  entry : end₂.2 = end₁.2

theorem InStep.findStep {v : Layout} (inStep : InStep content v h h' g g') (table : TableReads content v read)
    (tabled : h ≠ .root → (g.file h).within 32 = 0 ∨ Tabled g.toLayout (g.file h).currentCluster) :
    Sum.LiftRel (InStep content v h h') (SameEnd content h h') (g.findStep read h shortName)
      (g'.findStep read h' shortName) := by
  obtain ⟨alike, rfl, aligned⟩ := inStep
  obtain ⟨same, next, aligned'⟩ := alike.fatReadEntry table aligned tabled
  have kept := Moved.fatReadEntry read g h
  unfold FatData.findStep
  generalize g.fatReadEntry read h = result at same next aligned' kept
  generalize g'.fatReadEntry read h' = result' at same next
  obtain ⟨g₁, r⟩ := result
  obtain ⟨g₁', r'⟩ := result'
  cases same
  cases r with
  | none => exact .inr ⟨next, rfl⟩
  | some entry =>
    dsimp only
    split
    · exact .inr ⟨next, rfl⟩
    · exact .inl ⟨next, kept.layout, aligned' rfl⟩

theorem Alike.fatFindFile (alike : Alike content h h' g g') (table : TableReads content g.toLayout read)
    (aligned : (g.file h).position % 32 = 0) (junk : Nat → Byte) (name : List Byte)
    (tabled : SearchesTable read h (getShortName junk name) g) (fuel : Nat) :
    Option.Rel (SameEnd content h h') (g.fatFindFile (fun _ => read) junk fuel h name)
      (g'.fatFindFile (fun _ => read) junk fuel h' name) := by
  unfold FatData.fatFindFile
  rw [findLoop_eq, findLoop_eq]
  have start : InStep content g.toLayout h h' g g' := ⟨alike, rfl, aligned⟩
  exact loop_lockstep (fun _ _ inStep tabled => inStep.findStep table tabled) start tabled fuel

/-- What a caller of `FAT_Open` gets to know. -/
inductive Outcome where
  | nullHandle
  | failed
  | opened (firstCluster size : Nat) (isDirectory : Bool)
deriving DecidableEq, Repr

def Opening.outcome : Opening → Option Outcome
  | .running => none
  | .nullHandle => some .nullHandle
  | .returned _ none => some .failed
  | .returned g (some h) => some (.opened (g.file h).firstCluster (g.file h).size (g.file h).isDirectory)

/-- What the components of a path meet when reads do not vary. -/
def steady (read : Reader) (junk : Nat → Nat → Byte) (k : Nat) :
    Circumstances := ⟨fun _ => read, read, junk k⟩

/-- The searches of `FAT_Open` from its `k`-th pass on come to clusters of the table only;
`PathCarried.follows` says so of a path by what the volume holds. -/
def FollowsTable (read : Reader) (junk : Nat → Nat → Byte) :
    (k : Nat) → (passes : List (List Byte × Bool)) → FatData → (name : Nat → Byte) → Handle → Prop
  | _, [], _, _, _ => True
  | k, (token, isLast) :: passes, g, name, h =>
    SearchesTable read h (getShortName (junk k) (nameString (copyToken name token isLast) token)) g ∧
    ∀ fuel g' entry g'' i, g.fatFindFile (fun _ => read) (junk k) fuel h
        (nameString (copyToken name token isLast) token) = some (g', some entry) →
      isLast = true ∨ entry.isDirectory = true →
      (g'.fatClose h).fatOpenEntry read entry.toDirectory = (g'', some i) →
      FollowsTable read junk (k + 1) passes g'' (copyToken name token isLast) (.opened i)

/-- A slot is free, also when this handle has been closed. -/
def Room (g : FatData) (h : Handle) : Prop := h = .root → ∃ i, (g.openedFiles i).opened = false

theorem Room.moved (room : Room g h) (moved : Moved h g g₁) : Room g₁ h := by
  rintro rfl
  obtain ⟨i, free⟩ := room rfl
  have same : g₁.openedFiles i = g.openedFiles i := moved.others (.opened i) nofun
  exact ⟨i, same ▸ free⟩

/-- Closing frees a slot or moves the root directory. -/
theorem fatClose_spec (handle : (g.file h).handle = h) (room : Room g h) :
    (g.fatClose h).toLayout = g.toLayout ∧ (Fresh content g → Fresh content (g.fatClose h)) ∧
      ∃ i, ((g.fatClose h).openedFiles i).opened = false := by
  unfold FatData.fatClose
  rw [handle]
  cases h with
  | root => exact ⟨rfl, id, room rfl⟩
  | opened i =>
    refine ⟨rfl, id, i, ?_⟩
    dsimp only [FatData.setFile]
    rw [Function.update_self]

/-- Free slots are filled in the same way, or not at all if the entry's first sector cannot
be read. -/
theorem fatOpenEntry_lockstep (layout : g'.toLayout = g.toLayout) (left : Fresh content g)
    (right : Fresh content g')
    (free : ∃ i, (g.openedFiles i).opened = false) (free' : ∃ i, (g'.openedFiles i).opened = false)
    (entry : Directory) :
    ((g.fatOpenEntry read entry).2 = none ∧ (g'.fatOpenEntry read entry).2 = none) ∨
      ∃ g₁ g₁' i j, g.fatOpenEntry read entry = (g₁, some i) ∧ g'.fatOpenEntry read entry = (g₁', some j) ∧
        g₁.toLayout = g.toLayout ∧ (g₁.file (.opened i)).position = 0 ∧
        Alike content (.opened i) (.opened j) g₁ g₁' := by
  have opens := fatOpenEntry_opens read g entry
  have opens' := fatOpenEntry_opens read g' entry
  have lba := clusterToLba_congr layout entry.firstCluster
  generalize g.fatOpenEntry read entry = result at opens
  generalize g'.fatOpenEntry read entry = result' at opens'
  cases opens with
  | full used =>
    obtain ⟨i, free⟩ := free
    cases free.symm.trans (used i)
  | unreadable i fd _ _ unreadable =>
    cases opens' with
    | full used =>
      obtain ⟨i, free⟩ := free'
      cases free.symm.trans (used i)
    | unreadable j fd' _ _ _ => exact .inl ⟨rfl, rfl⟩
    | opened j buffer _ loaded =>
      rw [lba, unreadable] at loaded
      cases loaded
  | opened i buffer _ loaded =>
    cases opens' with
    | full used =>
      obtain ⟨i, free⟩ := free'
      cases free.symm.trans (used i)
    | unreadable j fd' _ _ unreadable =>
      rw [lba, loaded] at unreadable
      cases unreadable
    | opened j buffer' _ loaded' =>
      rw [lba, loaded] at loaded'
      cases loaded'
      refine .inr ⟨_, _, i, j, rfl, rfl, rfl, by rw [file_setFile]; rfl, ?_⟩
      constructor
      · exact layout
      · rw [file_setFile]
        rfl
      · rw [file_setFile, file_setFile]
        rfl
      · exact iff_of_false nofun nofun
      · exact left.setFile _ _
      · exact right.setFile _ _

/-- `FAT_Open` has the same outcome from its `k`-th pass on. -/
theorem Alike.openLoop (alike : Alike content h h' g g') (table : TableReads content g.toLayout read)
    (aligned : (g.file h).position % 32 = 0) (room : Room g h) (room' : Room g' h')
    (junk : Nat → Nat → Byte) (fuel k : Nat) (passes : List (List Byte × Bool)) (name : Nat → Byte)
    (tabled : FollowsTable read junk k passes g name h) :
    (FatData.openLoop (steady read junk) fuel k passes g' name (some h')).outcome =
      (FatData.openLoop (steady read junk) fuel k passes g name (some h)).outcome := by
  induction passes generalizing k g g' h h' name with
  | nil =>
    simp only [FatData.openLoop, Opening.outcome, alike.file]
  | cons p passes ih =>
    obtain ⟨token, isLast⟩ := p
    obtain ⟨searches, rest⟩ := tabled
    have both := alike.fatFindFile table aligned (junk k)
      (nameString (copyToken name token isLast) token) searches fuel
    rw [FatData.openLoop, FatData.openLoop]
    dsimp only [steady] at both ⊢
    generalize found : g.fatFindFile (fun _ => read) (junk k) fuel h
      (nameString (copyToken name token isLast) token) = result at both
    generalize found' : g'.fatFindFile (fun _ => read) (junk k) fuel h'
      (nameString (copyToken name token isLast) token) = result' at both
    cases both with
    | none => rfl
    | @some end₁ end₂ same =>
      obtain ⟨g₁, r⟩ := end₁
      obtain ⟨g₁', r'⟩ := end₂
      obtain ⟨alike₁, entry⟩ := same
      cases entry
      have moved : Moved h g g₁ := .findLoop found
      have moved' : Moved h' g' g₁' := .findLoop found'
      cases r with
      | none => rfl
      | some entry =>
        have handle' : (g₁'.file h').handle = h' := by rw [alike₁.file]
        obtain ⟨layout, fresh, free⟩ := @fatClose_spec content _ _ alike₁.handle (room.moved moved)
        obtain ⟨layout', fresh', free'⟩ := @fatClose_spec content _ _ handle' (room'.moved moved')
        have same := (layout'.trans alike₁.layout).trans layout.symm
        dsimp only
        split
        · rfl
        · rename_i enters
          have enter : isLast = true ∨ entry.isDirectory = true := by
            cases isLast with
            | true => exact .inl rfl
            | false => exact .inr (by simpa using enters)
          rcases @fatOpenEntry_lockstep content read _ _ same (fresh alike₁.left)
            (fresh' alike₁.right) free free' entry.toDirectory with
            ⟨null, null'⟩ | ⟨g₂, g₂', i, j, opens, opens', layout₂, position, alike₂⟩
          · rw [null, null']
            cases passes with
            | nil => rfl
            | cons p passes => rfl
          · rw [opens, opens']
            have table₂ : TableReads content g₂.toLayout read := by
              rw [layout₂, layout, moved.layout]
              exact table
            exact ih alike₂ table₂ (by rw [position]) nofun nofun (k + 1) _
              (rest fuel g₁ entry g₂ i found enter opens)

end Laomb.FS
