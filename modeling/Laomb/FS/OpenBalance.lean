import Laomb.FS.Slots

/-! What `FAT_Open` leaves of the table of handles, whatever the reads do. Each pass closes
the directory that it has searched before it opens what it has found there. -/
namespace Laomb.FS

variable {circumstances : Nat → Circumstances} {fuel k : Nat} {ps : List (List Byte × Bool)}
    {g g' g₀ : FatData}
    {name : Nat → Byte} {current : Handle} {entries : List DirEntry} {i : Fin 10} {path : List Byte}

/-- The slots that are opened. -/
def FatData.inUse (g : FatData) (i : Fin 10) : Bool := (g.openedFiles i).opened

/-- The handle of the last component with one slot more in use, or null with those of before;
and no null handle on the way. -/
def AllOrNothing (g : FatData) (last : Option DirEntry) : Opening → Prop
  | .running | .nullHandle => False
  | .returned g' none => g'.inUse = g.inUse
  | .returned g' (some h) => ∃ i entry buffer, h = .opened i ∧ last = some entry ∧
      g'.openedFiles i = .ofEntry entry.toDirectory i buffer ∧
      g.inUse i = false ∧ g'.inUse = Function.update g.inUse i true

/-- The components of a path are found: every search that `FAT_Open` gets to ends with the
entry, and what is not the last is a directory. -/
inductive Found (circumstances : Nat → Circumstances) (fuel : Nat) : Nat → List (List Byte × Bool) → FatData →
    (Nat → Byte) → Handle → List DirEntry → Prop
  | done (k : Nat) (g : FatData) (name : Nat → Byte) (current : Handle) :
      Found circumstances fuel k [] g name current []
  | pass {k : Nat} {token : List Byte} {isLast : Bool} {ps : List (List Byte × Bool)} {g g' : FatData}
      {name : Nat → Byte} {current : Handle} {entry : DirEntry} {entries : List DirEntry}
      (search : g.fatFindFile (circumstances k).searching (circumstances k).junk fuel current
        (nameString (copyToken name token isLast) token) = some (g', some entry))
      (enter : isLast = true ∨ entry.isDirectory = true)
      (rest : ∀ g'' i, (g'.fatClose current).fatOpenEntry
        (circumstances k).opening entry.toDirectory = (g'', some i) →
        Found circumstances fuel (k + 1) ps g'' (copyToken name token isLast) (.opened i) entries) :
      Found circumstances fuel k ((token, isLast) :: ps) g name current (entry :: entries)

/-- While a directory is searched, its slot is the only one in use that was not before. -/
structure Balanced (g₀ : FatData) (current : Handle) (g : FatData) : Prop where
  layout : g.toLayout = g₀.toLayout
  handle : (g.file current).handle = current
  root : current = .root → g.inUse = g₀.inUse
  slot : ∀ i, current = .opened i → g₀.inUse i = false ∧ g.inUse = Function.update g₀.inUse i true

theorem Moved.inUse (moved : Moved current g g') : g'.inUse = g.inUse := by
  funext i
  by_cases here : Handle.opened i = current
  · subst here
    exact moved.same.opened
  · exact congrArg FileData.opened (moved.others (.opened i) here)

theorem Balanced.moved (balanced : Balanced g₀ current g) (moved : Moved current g g') :
    Balanced g₀ current g' :=
  ⟨moved.layout.trans balanced.layout, moved.same.handle.trans balanced.handle,
    fun root => moved.inUse.trans (balanced.root root), fun i slot =>
      ⟨(balanced.slot i slot).1, moved.inUse.trans (balanced.slot i slot).2⟩⟩

/-- Closing the directory leaves the slots of before. -/
theorem Balanced.close (balanced : Balanced g₀ current g) :
    (g.fatClose current).toLayout = g₀.toLayout ∧ (g.fatClose current).inUse = g₀.inUse := by
  have layout := balanced.layout
  unfold FatData.fatClose
  rw [balanced.handle]
  cases current with
  | root => exact ⟨layout, balanced.root rfl⟩
  | opened i =>
    obtain ⟨free, used⟩ := balanced.slot i rfl
    refine ⟨layout, funext fun j => ?_⟩
    have here := congrFun used j
    by_cases same : j = i
    · subst same
      rw [free]
      simp only [FatData.inUse, FatData.setFile, Function.update_self]
    · rw [Function.update_of_ne same] at here
      rw [← here]
      simp only [FatData.inUse, FatData.setFile, Function.update_of_ne same]

/-- One pass of the loop whose search ends with an entry. -/
theorem openLoop_found {token : List Byte} {isLast : Bool} {entry : DirEntry}
    (search : g.fatFindFile (circumstances k).searching (circumstances k).junk fuel current
      (nameString (copyToken name token isLast) token) = some (g', some entry))
    (enter : isLast = true ∨ entry.isDirectory = true) :
    FatData.openLoop circumstances fuel k ((token, isLast) :: ps) g name (some current) =
      FatData.openLoop circumstances fuel (k + 1) ps
        ((g'.fatClose current).fatOpenEntry (circumstances k).opening entry.toDirectory).1
        (copyToken name token isLast)
        (((g'.fatClose current).fatOpenEntry (circumstances k).opening entry.toDirectory).2.map .opened) := by
  have entered : ¬ (!isLast && !entry.isDirectory) = true := by
    rcases enter with last | directory
    · simp [last]
    · simp [directory]
  rw [FatData.openLoop]
  dsimp only
  rw [search]
  dsimp only
  rw [if_neg entered]

/-- With passes left, the last entry is one of theirs. -/
theorem Found.getLast_cons {p : List Byte × Bool}
    (found : Found circumstances fuel k (p :: ps) g name current entries)
    (entry : DirEntry) : (entry :: entries).getLast? = entries.getLast? := by
  cases found with
  | pass => exact List.getLast?_cons_cons

/-- Without a directory to search, the loop only does well at the end of the path. -/
theorem openLoop_null {last : Option DirEntry} (inUse : g.inUse = g₀.inUse) :
    AllOrNothing g₀ last (FatData.openLoop circumstances fuel k ps g name none) ↔ ps = [] := by
  cases ps with
  | nil => exact iff_of_true inUse rfl
  | cons p ps => exact iff_of_false id (List.cons_ne_nil p ps)

/-- A slot that has been filled is the only new one. -/
theorem Balanced.opened {entry : Directory} {buffer : Vector Byte (1 * 512)}
    (layout : g.toLayout = g₀.toLayout)
    (inUse : g.inUse = g₀.inUse) (free : (g.openedFiles i).opened = false) :
    Balanced g₀ (.opened i) (g.setFile (.ofEntry entry i buffer) (.opened i)) := by
  refine ⟨layout, by rw [file_setFile]; rfl, fun root => (nomatch root), ?_⟩
  rintro j ⟨⟩
  refine ⟨inUse ▸ free, funext fun k => ?_⟩
  by_cases same : k = i
  · subst same
    simp only [FatData.inUse, FatData.setFile, Function.update_self]
    rfl
  · rw [Function.update_of_ne same, ← inUse]
    simp only [FatData.inUse, FatData.setFile, Function.update_of_ne same]

/-- The passes from the `k`-th on, with a directory to search. -/
theorem openLoop_allOrNothing (found : Found circumstances fuel k ps g name current entries)
    (balanced : Balanced g₀ current g) (some_left : ps ≠ []) :
    AllOrNothing g₀ entries.getLast? (FatData.openLoop circumstances fuel k ps g name (some current)) ↔
      ps.length = 1 ∨ (∃ i, g₀.inUse i = false) ∧ ∀ j entry, entries[j]? = some entry → j + 1 < ps.length →
        (circumstances (k + j)).opening (g₀.clusterToLba entry.firstCluster) 1 ≠ none := by
  induction found with
  | done => exact absurd rfl some_left
  | @pass k token isLast ps g g' name current entry entries search enter rest ih =>
    obtain ⟨layout, inUse⟩ := (balanced.moved (.findLoop search)).close
    have lba : (g'.fatClose current).clusterToLba entry.firstCluster =
        g₀.clusterToLba entry.firstCluster := by
      rw [FatData.clusterToLba, FatData.clusterToLba, layout]
    rw [openLoop_found search enter]
    have opens := fatOpenEntry_opens (circumstances k).opening (g'.fatClose current) entry.toDirectory
    generalize closed : g'.fatClose current = g₁ at opens layout inUse lba rest ih
    generalize opening : g₁.fatOpenEntry (circumstances k).opening entry.toDirectory = result at opens
    cases opens with
    | full used =>
      rw [Option.map_none, openLoop_null inUse]
      have none_free : ¬ ∃ i, g₀.inUse i = false := by
        rintro ⟨i, free⟩
        rw [← inUse, FatData.inUse, used i] at free
        cases free
      simp [none_free]
    | unreadable i fd free unused unreadable =>
      have kept : (g₁.setFile fd (.opened i)).inUse = g₀.inUse := by
        rw [← inUse]
        funext j
        by_cases same : j = i
        · subst same
          simp only [FatData.inUse, FatData.setFile, Function.update_self, unused, free]
        · simp only [FatData.inUse, FatData.setFile, Function.update_of_ne same]
      rw [Option.map_none, openLoop_null kept]
      constructor
      · rintro rfl
        exact .inl rfl
      · rintro (single | ⟨_, readable⟩)
        · exact List.length_eq_zero_iff.mp (Nat.succ.inj single)
        · by_contra more
          refine readable 0 entry rfl ?_ (lba ▸ unreadable)
          exact Nat.succ_lt_succ (List.length_pos_of_ne_nil more)
    | opened i buffer free loaded =>
      have balanced' :
          Balanced g₀ (.opened i) (g₁.setFile (.ofEntry entry.toDirectory i buffer) (.opened i)) :=
        .opened layout inUse free
      have some_free : ∃ i, g₀.inUse i = false := ⟨i, inUse ▸ free⟩
      rw [Option.map_some]
      have later := rest _ i opening
      cases ps with
      | nil =>
        cases later
        exact iff_of_true
          ⟨i, entry, buffer, rfl, rfl, file_setFile g₁ _ (.opened i), balanced'.slot i rfl⟩ (.inl rfl)
      | cons p ps =>
        rw [later.getLast_cons entry, ih _ i opening balanced' (List.cons_ne_nil p ps)]
        constructor
        · refine fun rest => .inr ⟨some_free, fun j e at_j below => ?_⟩
          cases j with
          | zero =>
            cases at_j
            rw [← lba, Nat.add_zero, loaded]
            exact Option.some_ne_none buffer
          | succ j =>
            have shift : k + (j + 1) = k + 1 + j := by omega
            simp only [List.length_cons] at rest below
            rw [shift]
            exact (rest.resolve_left (by omega)).2 j e at_j (by omega)
        · rintro (single | ⟨_, readable⟩)
          · simp at single
          · refine .inr ⟨some_free, fun j e at_j below => ?_⟩
            have shift : k + (j + 1) = k + 1 + j := by omega
            rw [← shift]
            exact readable (j + 1) e at_j (Nat.succ_lt_succ below)

/-- `FAT_Open` opens its path or nothing exactly when no opening fails before the last: with
two components or more it takes a free slot, and that the first sector of every directory on
the way can be read. -/
theorem fatOpen_allOrNothing_iff (root : g.rootDirectory.handle = .root) (some_pass : passes path ≠ [])
    (found : Found circumstances fuel 0 (passes path) g name .root entries) :
    AllOrNothing g entries.getLast? (g.fatOpen circumstances fuel name path) ↔
      (passes path).length = 1 ∨ (∃ i, g.inUse i = false) ∧ ∀ k entry, entries[k]? = some entry →
        k + 1 < (passes path).length →
          (circumstances k).opening (g.clusterToLba entry.firstCluster) 1 ≠ none := by
  have balanced : Balanced g .root g := ⟨rfl, root, fun _ => rfl, fun i slot => (nomatch slot)⟩
  have whole := openLoop_allOrNothing found balanced some_pass
  simp only [Nat.zero_add] at whole
  exact whole

/-- A sector that starts with the entry of a directory `D`, in cluster 3. -/
def nestedSector : Vector Byte (1 * 512) := Vector.ofFn fun i =>
  if i.val = 0 then 0x44 else if i.val < 11 then 0x20 else if i.val = 11 then 0x10 else if i.val =
    26 then 3 else 0

/-- A device that is full of such sectors. -/
def nestedRead : Reader := fun _ _ =>
  some (Vector.ofFn fun i => nestedSector[i.val % 512]?.getD 0)

def nestedCircumstances (_ : Nat) : Circumstances := ⟨fun _ => nestedRead, nestedRead, fun _ => 0x20⟩

/-- The volume after `fat_init`, with slots that are all in use or all free. -/
def nestedVolume (opened : Bool) : FatData where
  boot := ⟨1, 1, 1, 0, 0, 0, 1, 2⟩
  dataSectionLba := 2
  sectorsPerFat := 1
  rootDirectory := { FileData.zero with
    buffer := nestedSector, handle := .root, isDirectory := true, opened := true, firstCluster := 2
    currentCluster := 2 }
  openedFiles := fun _ => { FileData.zero with opened }
  fatCashe := Vector.replicate _ 0
  fatCashePosition := 0xFFFFFFFF

def nestedPath : List Byte := [0x44, 0x2F, 0x44]

theorem slot_nested_name (short : List Byte) (same : short = [0x44]) :
    getShortName (fun _ => 0x20) short = (slot nestedSector 0).name := by
  subst same
  decide +kernel

theorem nestedRead_eq (lba : Nat) : nestedRead lba 1 = some nestedSector := by
  refine congrArg some (Vector.ext fun i inside => ?_)
  rw [Vector.getElem_ofFn]
  simp only [Nat.mod_eq_of_lt (show i < 512 by omega), Vector.getElem?_eq_getElem inside, Option.getD_some]

/-- Every directory has `D` first. -/
theorem nested_search (listing : Listing (g.file current)) (start : (g.file current).position = 0)
    (buffer : (g.file current).buffer = nestedSector) {short : List Byte} (same : short = [0x44]) :
    g.fatFindFile (fun _ => nestedRead) (fun _ => 0x20) 1 current short =
      some ((g.advance nestedRead current 32).1, some (slot nestedSector 0)) := by
  rw [FatData.fatFindFile, findLoop_succ listing, buffer, start, slot_nested_name short same, if_pos rfl]

theorem nested_directory :
    (slot nestedSector 0).isDirectory = true ∧ (slot nestedSector 0).size.toNat = 0 := by
  decide +kernel

theorem nested_passes : passes nestedPath = [([0x44], false), ([0x44], true)] := by decide

/-- The first pass on the volume. -/
theorem nested_first (opened : Bool) : (nestedVolume opened).fatFindFile (nestedCircumstances 0).searching
    (nestedCircumstances 0).junk 1 .root (nameString (copyToken (fun _ => 0) [0x44] false) [0x44]) =
      some (((nestedVolume opened).advance nestedRead .root 32).1, some (slot nestedSector 0)) := by
  have root : Listing ((nestedVolume opened).file .root) := ⟨rfl, rfl, rfl, Nat.two_pow_pos 32⟩
  exact nested_search root rfl rfl (by decide)

theorem nested_found (opened : Bool) : Found nestedCircumstances 1 0 (passes nestedPath) (nestedVolume opened)
    (fun _ => 0) .root [slot nestedSector 0, slot nestedSector 0] := by
  rw [nested_passes]
  refine .pass (nested_first opened) (.inr nested_directory.1) fun g i opening => ?_
  generalize ((nestedVolume opened).advance nestedRead .root 32).1.fatClose .root = g₁ at opening
  have opens := fatOpenEntry_opens nestedRead g₁ (slot nestedSector 0).toDirectory
  simp only [nestedCircumstances] at opening
  rw [opening] at opens
  cases opens with
  | opened i buffer free loaded =>
    have same : nestedSector = buffer := Option.some.inj ((nestedRead_eq _).symm.trans loaded)
    subst same
    have file := file_setFile g₁ (.ofEntry (slot nestedSector 0).toDirectory i nestedSector) (.opened i)
    generalize g₁.setFile (.ofEntry (slot nestedSector 0).toDirectory i nestedSector) (.opened i) = g at file
    have listing : Listing (g.file (.opened i)) := by
      rw [file]
      exact listing_ofEntry i _ nested_directory.1 nested_directory.2
    have start : (g.file (.opened i)).position = 0 := by rw [file, FileData.ofEntry]
    have buffer : (g.file (.opened i)).buffer = nestedSector := by rw [file, FileData.ofEntry]
    have short : nameString (copyToken (copyToken (fun _ => 0) [0x44] false) [0x44] true) [0x44] =
        [0x44] := by
      decide
    exact .pass (nested_search listing start buffer short) (.inl rfl) fun g i _ => .done _ _ _ _

theorem fatOpen_allOrNothing_nested :
    AllOrNothing (nestedVolume false) [slot nestedSector 0, slot nestedSector 0].getLast?
      ((nestedVolume false).fatOpen nestedCircumstances 1 (fun _ => 0) nestedPath) := by
  have root : (nestedVolume false).rootDirectory.handle = .root := rfl
  have free : ∃ i, (nestedVolume false).inUse i = false := ⟨0, rfl⟩
  have readable : ∀ k lba, (nestedCircumstances k).opening lba 1 ≠ none := by
    intro k lba
    change nestedRead lba 1 ≠ none
    rw [nestedRead_eq]
    exact Option.some_ne_none nestedSector
  rw [fatOpen_allOrNothing_iff root (by decide) (nested_found false)]
  exact .inr ⟨free, fun k entry _ _ => readable k _⟩

/-- With every slot in use, the second component is searched for in a null handle. -/
theorem fatOpen_crowded :
    Found nestedCircumstances 1 0 (passes nestedPath) (nestedVolume true) (fun _ => 0) .root
      [slot nestedSector 0, slot nestedSector 0] ∧
    (nestedVolume true).fatOpen nestedCircumstances 1 (fun _ => 0) nestedPath = .nullHandle ∧
    ¬ AllOrNothing (nestedVolume true) [slot nestedSector 0, slot nestedSector 0].getLast?
      ((nestedVolume true).fatOpen nestedCircumstances 1 (fun _ => 0) nestedPath) := by
  have ended : (nestedVolume true).fatOpen nestedCircumstances 1 (fun _ => 0) nestedPath = .nullHandle := by
    have balanced : Balanced (nestedVolume true) .root (nestedVolume true) :=
      ⟨rfl, rfl, fun _ => rfl, fun i slot => (nomatch slot)⟩
    obtain ⟨_, inUse⟩ := (balanced.moved (.findLoop (nested_first true))).close
    rw [FatData.fatOpen, nested_passes, openLoop_found (nested_first true) (.inr nested_directory.1)]
    generalize ((nestedVolume true).advance nestedRead .root 32).1.fatClose .root = g at inUse
    have opens := fatOpenEntry_opens (nestedCircumstances 0).opening g (slot nestedSector 0).toDirectory
    generalize g.fatOpenEntry (nestedCircumstances 0).opening (slot nestedSector 0).toDirectory =
      result at opens
    cases opens with
    | full => rfl
    | unreadable => rfl
    | opened i buffer free => exact absurd ((congrFun inUse i).symm.trans free) Bool.noConfusion
  exact ⟨nested_found true, ended, by rw [ended]; exact id⟩

end Laomb.FS
