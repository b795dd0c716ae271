import Laomb.FS.FileRead

/-! Calls that open regular files and read from them, in any order. -/
namespace Laomb.FS
open Word Blocks Transition

variable {content : Content} {read : Reader} {g g' : FatData} {v : Layout} {fd : FileData}
    {entry : Directory} {i j : Fin 10}
  {n : Nat} {cs : List Nat}

/-- What a caller knows of a file that it has opened: the entry and its chain, how much
it has asked for and what it has got. -/
structure OpenFile where
  entry : Directory
  chain : List Nat
  requested : Nat
  received : List Byte

/-- The bytes of the clusters in chain order. -/
def OpenFile.stored (content : Content) (v : Layout) (f : OpenFile) : List Byte :=
  f.chain.flatMap (clusterBytes content v)

structure Session where
  data : FatData
  files : Fin 10 → Option OpenFile

/-- A call, with the reads of sectors that succeed during it. -/
inductive Call where
  | fatOpenEntry (read : Reader) (entry : Directory) (chain : List Nat)
  | fatRead (read : Reader) (i : Fin 10) (byteCount : Nat)

namespace Session

variable {s s' : Session} {f : OpenFile}

def start (g : FatData) : Session := ⟨g, fun _ => none⟩

def exec (s : Session) : Call → Session
  | .fatOpenEntry read entry chain =>
    match s.data.fatOpenEntry read entry with
    | (g, none) => { s with data := g }
    | (g, some i) => ⟨g, Function.update s.files i (some ⟨entry, chain, 0, []⟩)⟩
  | .fatRead read i byteCount =>
    match s.files i with
    | none => s
    | some f =>
      let (g, bytes, _) := s.data.fatRead read (.opened i) byteCount
      ⟨g, Function.update s.files i (some { f with
        requested := f.requested + byteCount, received := f.received ++ bytes })⟩

/-- Only regular files with a chain are opened, only open ones are read, and the sectors
of their chains and of the table can be read. -/
def Allowed (content : Content) (s : Session) : Call → Prop
  | .fatOpenEntry read entry chain => entry.isDirectory = false ∧
    FileChain content s.data.toLayout entry chain ∧
      Served content s.data.toLayout read chain
  | .fatRead read i _ => ∃ f, s.files i = some f ∧ Served content s.data.toLayout read f.chain

def Step (content : Content) (s : Session) (call : Call) (s' : Session) : Prop :=
  Allowed content s call ∧ s' = s.exec call

/-- A file has been read as far as it was asked for, or to its end. -/
structure Follows (content : Content) (v : Layout) (i : Fin 10) (f : OpenFile) (fd : FileData) : Prop where
  chain : FileChain content v f.entry f.chain
  tracks : Tracks content v f.entry f.chain i fd
  position : fd.position = min f.requested f.entry.size.toNat
  received : f.received = (f.stored content v).take (min f.requested f.entry.size.toNat)

structure Kept (content : Content) (v : Layout) (s : Session) : Prop where
  layout : s.data.toLayout = v
  cached : Cached content s.data
  files : ∀ i f, s.files i = some f → Follows content v i f (s.data.openedFiles i)

/-- A file that has just been opened. -/
theorem follows_opened (chain : FileChain content g.toLayout entry cs)
    (served : Served content g.toLayout read cs)
    (regular : entry.isDirectory = false) {buffer : Vector Byte (1 * 512)}
    (loaded : read (g.clusterToLba entry.firstCluster) 1 = some buffer) (handle : fd.handle = .opened i)
    (directory : fd.isDirectory = entry.isDirectory) (opened : fd.opened = true)
    (size : fd.size = entry.size.toNat)
    (position : fd.position = 0) (cluster : fd.currentCluster = entry.firstCluster)
    (sector : fd.sectorInCluster = 0)
    (held : fd.buffer = buffer) : Follows content g.toLayout i ⟨entry, cs, 0, []⟩ fd := by
  refine ⟨chain, ⟨⟨handle, directory.trans regular, opened, size, by omega⟩, fun short => ?_⟩, ?_, ?_⟩
  · rw [size] at short
    have nonempty : cs ≠ [] := by
      rintro rfl
      have long := chain.long
      rw [List.length_nil, Nat.zero_mul] at long
      omega
    obtain ⟨c, rest, rfl⟩ := List.exists_cons_of_ne_nil nonempty
    have first : entry.firstCluster = c := chain.first c rfl
    have some_per : 0 < g.boot.sectorsPerCluster := by
      by_contra none_per
      have long := chain.long
      rw [Nat.le_zero.mp (Nat.not_lt.mp none_per), Nat.zero_mul, Nat.mul_zero] at long
      omega
    obtain ⟨low, small, _⟩ := chain.clusters c List.mem_cons_self
    obtain ⟨bound, done⟩ := served.clusters c List.mem_cons_self 0 some_per
    rw [first, clusterToLba_eq low bound small] at loaded
    refine ⟨c, ?_, cluster.trans first, ?_, ?_⟩
    · rw [position, Nat.zero_div]
      exact List.getElem?_cons_zero
    · rw [position, sector, Nat.zero_div, Nat.zero_mod]
    · rw [position, Nat.zero_div, Nat.zero_mod, held]
      exact Option.some.inj (loaded.symm.trans done)
  · rw [position, Nat.zero_min]
  · rw [Nat.zero_min, List.take_zero]

/-- An open slot is not free, and other slots stay as they are. -/
theorem Kept.other (kept : s.Kept content v) (free : (s.data.openedFiles i).opened = false)
    (found : s.files j = some f) :
    j ≠ i ∧ ∀ fd, Follows content v j f ((s.data.setFile fd (.opened i)).openedFiles j) := by
  have follows := kept.files j f found
  have other : j ≠ i := by
    rintro rfl
    exact Bool.false_ne_true (free.symm.trans follows.tracks.opened)
  refine ⟨other, fun fd => ?_⟩
  rw [(touches_setFile s.data fd i).others j other]
  exact follows

theorem Kept.fatOpenEntry (kept : s.Kept content v) (regular : entry.isDirectory = false)
    (chain : FileChain content v entry cs) (served : Served content v read cs) :
    (s.exec (.fatOpenEntry read entry cs)).Kept content v := by
  rcases fatOpenEntry_eq read s.data entry with
    done | ⟨i, fd, free, done |
      ⟨buffer, loaded, done, handle, directory, opened, size, position, cluster, sector, held⟩⟩
  · simp only [exec, done]
    exact kept
  · simp only [exec, done]
    exact ⟨kept.layout, kept.cached, fun j f now => (kept.other free now).2 fd⟩
  · simp only [exec, done]
    refine ⟨kept.layout, kept.cached, fun j f now => ?_⟩
    by_cases same : j = i
    · subst same
      have new : f = ⟨entry, cs, 0, []⟩ := by simpa using now.symm
      subst new
      rw [setFile_self]
      have layout := kept.layout
      subst layout
      exact follows_opened chain served regular loaded handle directory opened size position cluster
        sector held
    · exact (kept.other free (by simpa [same] using now)).2 fd

theorem Kept.fatRead (kept : s.Kept content v) (some_per : 0 < v.boot.sectorsPerCluster)
    (few : v.boot.sectorsPerCluster < 2 ^ 8) (found : s.files i = some f)
    (served : Served content v read f.chain)
    (byteCount : Nat) : (s.exec (.fatRead read i byteCount)).Kept content v := by
  have follows := kept.files i f found
  obtain ⟨g', done, touches, cached, tracks, position⟩ :=
    fatRead_spec follows.chain served some_per few kept.layout
    kept.cached follows.tracks byteCount
  have exec : s.exec (.fatRead read i byteCount) = ⟨g', Function.update s.files i (some { f with
      requested := f.requested + byteCount
      received := f.received ++ ((f.stored content v).drop (s.data.openedFiles i).position).take
        (min byteCount (f.entry.size.toNat - (s.data.openedFiles i).position)) })⟩ := by
    simp only [Session.exec, found, done]
    rfl
  rw [exec]
  have total : (s.data.openedFiles i).position + min byteCount
      (f.entry.size.toNat - (s.data.openedFiles i).position) =
      min (f.requested + byteCount) f.entry.size.toNat := by
    rw [follows.position]
    omega
  refine ⟨touches.layout.trans kept.layout, cached, fun j h now => ?_⟩
  by_cases same : j = i
  · subst same
    have new : h = { f with
        requested := f.requested + byteCount
        received := f.received ++ ((f.stored content v).drop (s.data.openedFiles j).position).take
          (min byteCount (f.entry.size.toNat - (s.data.openedFiles j).position)) } := by simpa using now.symm
    subst new
    refine ⟨follows.chain, tracks, position.trans total, ?_⟩
    rw [← total, List.take_add, follows.received, follows.position]
    rfl
  · rw [touches.others j same]
    exact kept.files j h (by simpa [same] using now)

theorem fatInit_some {read₀ : Reader} (initialised : fatInit read₀ = some g) :
    g.boot.sectorsPerCluster < 2 ^ 8 ∧ g.fatCashePosition = 0xFFFFFFFF ∧
      ∀ i, (g.openedFiles i).opened = false := by
  obtain ⟨bytes, buffer, _, _, rfl⟩ := fatInit_eq initialised
  exact ⟨(bytesOf bytes 13).isLt, rfl, fun _ => rfl⟩

theorem kept_start {read₀ : Reader} (initialised : fatInit read₀ = some g) :
    (start g).Kept content g.toLayout :=
  ⟨rfl, .inl (fatInit_some initialised).2.1, fun _ f now => absurd now.symm (Option.some_ne_none f)⟩

/-- Whatever the calls, every open file has given the first bytes of its clusters in
chain order, as many as it was asked for or has, and a read returns what it delivers. -/
theorem run_reads {read₀ : Reader} (initialised : fatInit read₀ = some g)
    (some_per : 0 < g.boot.sectorsPerCluster)
    {calls : List Call} (run : Run (Step content) (start g) calls s) :
    ∀ i f, s.files i = some f →
      f.received = (f.stored content g.toLayout).take (min f.requested f.entry.size.toNat) ∧
      ∀ read byteCount, Served content g.toLayout read f.chain →
        (s.data.fatRead read (.opened i) byteCount).2.2 =
          (s.data.fatRead read (.opened i) byteCount).2.1.length := by
  have few := (fatInit_some initialised).1
  have held : s.Kept content g.toLayout := by
    refine run.invariant (I := fun s : Session => s.Kept content g.toLayout) ?_ (kept_start initialised)
    rintro s call s' kept ⟨allowed, rfl⟩
    cases call with
    | fatOpenEntry read entry chain =>
      obtain ⟨regular, chained, served⟩ := allowed
      rw [kept.layout] at chained served
      exact kept.fatOpenEntry regular chained served
    | fatRead read i byteCount =>
      obtain ⟨f, found, served⟩ := allowed
      rw [kept.layout] at served
      exact kept.fatRead some_per few found served byteCount
  intro i f found
  have follows := held.files i f found
  refine ⟨follows.received, fun read byteCount served => ?_⟩
  obtain ⟨g', done, _, _, _, _⟩ :=
    fatRead_spec follows.chain served some_per few held.layout held.cached follows.tracks
    byteCount
  have long := follows.chain.long
  have whole : (f.chain.flatMap (clusterBytes content g.toLayout)).length = f.chain.length *
      (g.boot.sectorsPerCluster * 512) := flatMap_length fun c => slice_length
  rw [done]
  dsimp only
  rw [List.length_take, List.length_drop, whole]
  omega

theorem exec_fatRead (found : s.files i = some f) (read : Reader) (byteCount : Nat) :
    ∃ received, (s.exec (.fatRead read i byteCount)).files i =
      some ⟨f.entry, f.chain, f.requested + byteCount, received⟩ := by
  simp only [exec, found, Function.update_self]
  exact ⟨_, rfl⟩

/-- A volume of six sectors: the boot sector, one sector of table and four clusters of one
sector each. Cluster 3 is followed by cluster 4, the last. -/
def smallVolume : Content := fun n =>
  let fields : List (Nat × Byte) :=
    [(13, 1), (14, 1), (16, 1), (36, 1), (44, 2), (524, 4), (528, 0xFF), (529, 0xFF),
    (530, 0xFF), (531, 0x0F)]
  (fields.lookup n).getD (if 1024 ≤ n then BitVec.ofNat 8 n else 0)

/-- The volume at the start of a disk, in a partition of six sectors. -/
def smallRead : Reader := mbrReadSector smallVolume ⟨0, 6⟩

/-- A file of 1000 bytes in clusters 3 and 4. -/
def smallEntry : Directory := ⟨0x20, 0, 3, 1000⟩

theorem smallRead_reads (inside : n < 6) (count : Nat) : Reads smallRead smallVolume n count := by
  have reads : Reads smallRead (Partition.content ⟨0, 6⟩ smallVolume) n count :=
    mbrReadSector_reads inside (inside.trans (by decide)) count
  have same : Partition.content ⟨0, 6⟩ smallVolume = smallVolume :=
    funext fun i => congrArg smallVolume (Nat.zero_add i)
  rwa [same] at reads

/-- A read across the clusters, and one past the end of the file. -/
theorem run_reads_two : ∃ g s f, fatInit smallRead = some g ∧
    Run (Step smallVolume) (start g) [.fatOpenEntry smallRead smallEntry [3, 4], .fatRead smallRead 0 700,
      .fatRead smallRead 0 400] s ∧ s.files 0 = some f ∧ f.requested = 1100 ∧
    f.received = (f.stored smallVolume g.toLayout).take 1000 := by
  have layout : (fatInit smallRead).map FatData.toLayout = some ⟨⟨1, 1, 1, 0, 0, 0, 1, 2⟩, 2, 1⟩ := by
    decide +kernel
  obtain ⟨g, initialised, layout⟩ := Option.map_eq_some_iff.mp layout
  obtain ⟨_, _, unused⟩ := fatInit_some initialised
  have served : Served smallVolume g.toLayout smallRead [3, 4] := by
    rw [layout]
    refine ⟨fun n one => smallRead_reads (show 1 + n < 6 by have : n < 1 := one; omega) 5,
      fun c member j one => ?_⟩
    have none : j = 0 := Nat.lt_one_iff.mp one
    subst none
    rcases List.mem_pair.mp member with rfl | rfl
    · exact smallRead_reads (by decide) 1
    · exact smallRead_reads (by decide) 1
  have chain : FileChain smallVolume g.toLayout smallEntry [3, 4] := by
    rw [layout]
    exact ⟨by decide, .cons_cons (by decide) (.singleton 4), by decide, by decide, by decide⟩
  obtain ⟨fd, opens⟩ : ∃ fd, g.fatOpenEntry smallRead smallEntry = (g.setFile fd (.opened 0), some 0) := by
    have free : (List.finRange 10).find? (fun i => !(g.openedFiles i).opened) = some 0 := by
      rw [List.finRange_succ, List.find?_cons, unused 0]
      rfl
    have lba := clusterToLba_eq (g := g) (c := 3) (by decide) (by rw [layout]; decide) (by decide)
    obtain ⟨buffer, loaded⟩ : ∃ buffer, smallRead (g.clusterToLba smallEntry.firstCluster) 1 =
      some buffer := by
      rw [show smallEntry.firstCluster = 3 from rfl, lba]
      exact ⟨_, (served.clusters 3 List.mem_cons_self 0 (by rw [layout]; decide)).2⟩
    unfold FatData.fatOpenEntry
    rw [free]
    dsimp only
    rw [loaded]
    exact ⟨_, rfl⟩
  have first : ((start g).exec (.fatOpenEntry smallRead smallEntry [3, 4])).files 0 =
      some ⟨smallEntry, [3, 4], 0, []⟩ := by
    simp only [exec, start, opens, Function.update_self]
  have fresh : (start g).Kept smallVolume g.toLayout := kept_start initialised
  have kept := fresh.fatOpenEntry rfl chain served
  have few := (fatInit_some initialised).1
  have some_per : 0 < g.boot.sectorsPerCluster := by
    rw [layout]
    decide
  obtain ⟨received, second⟩ := exec_fatRead first smallRead 700
  have kept' := kept.fatRead some_per few first served 700
  obtain ⟨received', third⟩ := exec_fatRead second smallRead 400
  have run : Run (Step smallVolume) (start g)
      [.fatOpenEntry smallRead smallEntry [3, 4], .fatRead smallRead 0 700,
      .fatRead smallRead 0 400] _ :=
    .next ⟨⟨rfl, chain, served⟩, rfl⟩ (.next ⟨⟨_, first, kept.layout ▸ served⟩, rfl⟩
      (.next ⟨⟨_, second, kept'.layout ▸ served⟩, rfl⟩ (.refl _)))
  refine ⟨g, _, _, initialised, run, third, rfl, ?_⟩
  exact (run_reads initialised some_per run 0 _ third).1

end Session
end Laomb.FS
