import Laomb.FS.Fat32

/-! The lookups of `fat32.c`, from `get_short_name` to `FAT_Open`. Every read of the device
may fail or succeed on its own: a search gets one reader for each entry that it reads. -/
namespace Laomb.FS
open Word

/-- `fat_directory_t` with the name, eleven bytes. -/
structure DirEntry extends Directory where
  name : Vector Byte 11
deriving DecidableEq, Repr

def dirEntry (content : Content) : DirEntry where
  name := Vector.ofFn fun i => content i
  attributes := content 11
  firstClusterHigh := BitVec.ofNat 16 (le16 content 20)
  firstClusterLow := BitVec.ofNat 16 (le16 content 26)
  size := BitVec.ofNat 32 (le32 content 28)

def toupper (c : Byte) : Byte := if 0x61 ≤ c ∧ c ≤ 0x7A then c - 32 else c

/-- `get_short_name` of a string. Of the bytes that `kmalloc` returns, it leaves those as
they are to which the name has nothing to give. -/
def getShortName (junk : Nat → Byte) (name : List Byte) : Vector Byte 11 :=
  let ext := (name.findIdx? (· == 0x2E)).getD 11
  Vector.ofFn fun i =>
    if i.val < 8 then
      if i.val < ext then (name[i.val]?).elim (junk i) toupper else junk i
    else if ext ≠ 11 then (name[ext + 1 + (i.val - 8)]?).elim (junk i) toupper
    else junk i

/-- What one component of a path meets: the reads while its entry is searched for and while
it is opened, and the memory that `get_short_name` gets. -/
structure Circumstances where
  searching : Nat → Reader
  opening : Reader
  junk : Nat → Byte

namespace FatData

def fatReadEntry (read : Reader) (g : FatData) (h : Handle) : FatData × Option DirEntry :=
  let (g, bytes, moved) := g.fatRead read h 32
  (g, if moved = 32 then some (dirEntry fun i => bytes[i]?.getD 0) else none)

def fatClose (g : FatData) (h : Handle) : FatData :=
  match (g.file h).handle with
  | .root =>
    let g := g.setFile { g.file h with position := 0 } h
    { g with rootDirectory := { g.rootDirectory with currentCluster := g.rootDirectory.firstCluster } }
  | .opened i => g.setFile { g.openedFiles i with opened := false } (.opened i)

/-- The loop of `FAT_FindFile` from its `n`-th entry on: the entry, if it is found, or `none`
when the fuel does not last until the loop ends. -/
def findLoop (searching : Nat → Reader) (h : Handle) (shortName : Vector Byte 11) : (fuel n : Nat) →
    FatData → Option (FatData × Option DirEntry)
  | 0, _, _ => none
  | fuel + 1, n, g =>
    match g.fatReadEntry (searching n) h with
    | (g, some entry) =>
      if shortName = entry.name then some (g, some entry) else findLoop searching h shortName fuel (n + 1) g
    | (g, none) => some (g, none)

def fatFindFile (searching : Nat → Reader) (junk : Nat → Byte) (fuel : Nat) (g : FatData) (h : Handle)
    (name : List Byte) : Option (FatData × Option DirEntry) :=
  findLoop searching h (getShortName junk name) fuel 0 g

end FatData

/-- The passes that the loop of `FAT_Open` makes over what is left of the path: the bytes up
to a slash or to the end, and whether it is the end. Nothing is left after a last slash. -/
def tokens : (path token : List Byte) → List (List Byte × Bool)
  | [], token => if token = [] then [] else [(token, true)]
  | c :: path, token => if c = 0x2F then (token, false) :: tokens path [] else tokens path (token ++ [c])

/-- The path behind a slash in front of it. -/
def passes (path : List Byte) : List (List Byte × Bool) :=
  match path with
  | 0x2F :: path => tokens path []
  | path => tokens path []

/-- `name` after one pass has copied its token. The end of a last token is put behind the
byte that follows it. -/
def copyToken (name : Nat → Byte) (token : List Byte) (isLast : Bool) : Nat → Byte := fun i =>
  if i = (if isLast then token.length + 1 else token.length) then 0 else (token[i]?).getD (name i)

/-- The string that starts at `name`, which ends at or right behind the token. -/
def nameString (name : Nat → Byte) (token : List Byte) : List Byte :=
  ((List.range (token.length + 2)).map name).takeWhile (· ≠ 0)

/-- How far `FAT_Open` gets: a search has not ended, `FAT_FindFile` gets a null handle, or it
returns a handle or null. -/
inductive Opening where
  | running
  | nullHandle
  | returned (g : FatData) (file : Option Handle)

namespace FatData

/-- The loop of `FAT_Open` from its `k`-th pass on. `name` has no bound here; the array of
`MAX_PATH_SIZE` bytes holds every token that leaves room for an end and a byte in front of it. -/
def openLoop (circumstances : Nat → Circumstances) (fuel : Nat) :
    (k : Nat) → (passes : List (List Byte × Bool)) →
    FatData → (name : Nat → Byte) → (current : Option Handle) → Opening
  | _, [], g, _, current => .returned g current
  | _, _ :: _, _, _, none => .nullHandle
  | k, (token, isLast) :: passes, g, name, some current =>
    let name := copyToken name token isLast
    let here := circumstances k
    match g.fatFindFile here.searching here.junk fuel current (nameString name token) with
    | none => .running
    | some (g, none) => .returned (g.fatClose current) none
    | some (g, some entry) =>
      let g := g.fatClose current
      if !isLast && !entry.isDirectory then .returned g none
      else
        let (g, opened) := g.fatOpenEntry here.opening entry.toDirectory
        openLoop circumstances fuel (k + 1) passes g name (opened.map .opened)

/-- `FAT_Open`; `name` is what its stack frame holds. -/
def fatOpen (circumstances : Nat → Circumstances) (fuel : Nat) (g : FatData) (name : Nat → Byte)
    (path : List Byte) : Opening :=
  openLoop circumstances fuel 0 (passes path) g name (some .root)

end FatData
end Laomb.FS
