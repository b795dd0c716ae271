import Mathlib.Data.List.Induction
import Laomb.FS.OpenBalance

/-! The names that `FAT_Open` looks up. All of them pass through one buffer on the stack; the
end of an inner component is put behind its last byte, the end of the last one a byte later. -/
namespace Laomb.FS

variable {circumstances : Nat → Circumstances} {fuel k n : Nat} {ps : List (List Byte × Bool)} {g : FatData}
  {name : Nat → Byte} {current : Handle} {path token : List Byte} {inner : List (List Byte)}

/-! ## The components of a path -/

/-- What lies between the slashes, without a slash in front. -/
def parts (path : List Byte) : List (List Byte) :=
  match path with
  | 0x2F :: path => path.splitOn 0x2F
  | path => path.splitOn 0x2F

def innerParts (path : List Byte) : List (List Byte) := (parts path).dropLast

def lastPart (path : List Byte) : List Byte := (parts path).getLastD []

/-- The components; there is none behind a slash at the end. -/
def components (path : List Byte) : List (List Byte) :=
  innerParts path ++ if lastPart path = [] then [] else [lastPart path]

/-- The passes over what is split into these parts. -/
def passesOf (parts : List (List Byte)) : List (List Byte × Bool) :=
  parts.dropLast.map (·, false) ++ if parts.getLastD [] = [] then [] else [(parts.getLastD [], true)]

theorem passesOf_cons {rest : List (List Byte)} (some_left : rest ≠ []) :
    passesOf (token :: rest) = (token, false) :: passesOf rest := by
  obtain ⟨next, rest, rfl⟩ := List.exists_cons_of_ne_nil some_left
  rfl

theorem tokens_eq (path token : List Byte) :
    tokens path token = passesOf ((path.splitOn 0x2F).modifyHead (token ++ ·)) := by
  induction path generalizing token with
  | nil =>
    by_cases empty : token = []
    · simp [tokens, passesOf, empty]
    · simp [tokens, passesOf, empty]
  | cons c path ih =>
    have some_left : path.splitOn 0x2F ≠ [] := List.splitOnP_ne_nil _ path
    rw [tokens]
    by_cases slash : c = 0x2F
    · have split : (c :: path).splitOn 0x2F = [] :: path.splitOn 0x2F :=
        List.splitOnP_append_cons [] path (by simp [slash])
      rw [if_pos slash, split, List.modifyHead_cons, List.append_nil, passesOf_cons some_left, ih]
      congr 2
      exact congrFun List.modifyHead_id _
    · have split : (c :: path).splitOn 0x2F = (path.splitOn 0x2F).modifyHead (List.cons c) := by
        rw [List.splitOn, List.splitOnP_cons_eq_if_modifyHead, if_neg (by simpa using slash), List.splitOn]
      rw [if_neg slash, split, ih, List.modifyHead_modifyHead]
      congr 2
      funext rest
      rw [Function.comp, List.append_assoc, List.singleton_append]

theorem parts_ne_nil (path : List Byte) : parts path ≠ [] := by
  unfold parts
  split
  · exact List.splitOnP_ne_nil _ _
  · exact List.splitOnP_ne_nil _ _

theorem passes_eq (path : List Byte) : passes path = passesOf (parts path) := by
  have same : ∀ path, tokens path [] = passesOf (path.splitOn 0x2F) := fun path => by
    rw [tokens_eq]
    exact congrArg passesOf (congrFun List.modifyHead_id _)
  cases path with
  | nil => exact same []
  | cons c rest =>
    by_cases slash : c = 0x2F
    · subst slash
      exact same rest
    · have read : passes (c :: rest) = tokens (c :: rest) [] := by
        unfold passes
        split
        · exact absurd (List.cons.inj (by assumption)).1 slash
        · rfl
      have cut : parts (c :: rest) = (c :: rest).splitOn 0x2F := by
        unfold parts
        split
        · exact absurd (List.cons.inj (by assumption)).1 slash
        · rfl
      rw [read, cut]
      exact same (c :: rest)

theorem mem_intercalate {α : Type*} {c : α} {part : List α} {parts : List (List α)} (sep : List α)
    (member : part ∈ parts) (inside : c ∈ part) : c ∈ sep.intercalate parts := by
  induction parts with
  | nil => cases member
  | cons head rest ih =>
    cases rest with
    | nil =>
      rw [List.mem_singleton] at member
      rw [List.intercalate_singleton, ← member]
      exact inside
    | cons next rest =>
      rw [List.intercalate_cons_cons, List.append_assoc]
      rcases List.mem_cons.mp member with rfl | later
      · exact List.mem_append_left _ inside
      · exact List.mem_append_right _ (List.mem_append_right _ (ih later))

/-- No part has a byte that the path has not. -/
theorem mem_parts {c : Byte} {part : List Byte} (member : part ∈ parts path) (inside : c ∈ part) :
    c ∈ path := by
  have split : ∀ path : List Byte, part ∈ path.splitOn 0x2F → c ∈ path := fun path member => by
    have whole := mem_intercalate [0x2F] member inside
    rwa [List.intercalate_splitOn] at whole
  unfold parts at member
  split at member
  · exact List.mem_cons_of_mem _ (split _ member)
  · exact split _ member

theorem parts_eq (path : List Byte) : parts path = innerParts path ++ [lastPart path] := by
  rw [innerParts, lastPart, List.getLastD_eq_getLast?, List.getLast?_eq_some_getLast (parts_ne_nil path)]
  exact (List.dropLast_append_getLast (parts_ne_nil path)).symm

/-! ## What the buffer holds -/

theorem copyToken_copies (name : Nat → Byte) (token : List Byte) (isLast : Bool) {i : Nat}
    (inside : i < token.length) :
    copyToken name token isLast i = token[i] := by
  have before : i ≠ if isLast = true then token.length + 1 else token.length := by
    split
    · omega
    · omega
  rw [copyToken, if_neg before, List.getElem?_eq_getElem inside, Option.getD_some]

/-- The string at `name` is the token and what follows up to the next zero. -/
theorem nameString_eq {name : Nat → Byte} (copied : ∀ i (h : i < token.length), name i = token[i])
    (string : ∀ c ∈ token, c ≠ 0) :
    nameString name token =
      token ++ [name token.length, name (token.length + 1)].takeWhile (· ≠ 0) := by
  have front : (List.range token.length).map name = token := by
    refine List.ext_getElem (by simp) fun i _ inside => ?_
    rw [List.getElem_map, List.getElem_range]
    exact copied i inside
  rw [nameString, List.range_succ, List.range_succ, List.map_append, List.map_append, front,
    List.append_assoc, List.takeWhile_append_of_pos fun c member => by simpa using string c member]
  rfl

theorem nameString_inner (name : Nat → Byte) (string : ∀ c ∈ token, c ≠ 0) :
    nameString (copyToken name token false) token = token := by
  have ended : copyToken name token false token.length = 0 := if_pos rfl
  rw [nameString_eq (fun i => copyToken_copies name token false) string, ended]
  exact List.append_nil token

/-- The string of a last component goes on over a byte that is not zero. -/
theorem nameString_last_iff (name : Nat → Byte) (string : ∀ c ∈ token, c ≠ 0) :
    nameString (copyToken name token true) token = token ↔ name token.length = 0 := by
  have kept : copyToken name token true token.length = name token.length := by
    rw [copyToken, if_neg (by simp), List.getElem?_eq_none (Nat.le_refl _), Option.getD_none]
  rw [nameString_eq (fun i => copyToken_copies name token true) string, kept, List.append_right_eq_self]
  by_cases zero : name token.length = 0
  · rw [List.takeWhile_cons_of_neg (by simpa using zero)]
    exact iff_of_true rfl zero
  · rw [List.takeWhile_cons_of_pos (by simpa using zero)]
    exact iff_of_false (List.cons_ne_nil _ _) zero

/-- The buffer after some inner components. -/
def afterInner (name : Nat → Byte) (inner : List (List Byte)) : Nat → Byte :=
  inner.foldl (fun name token => copyToken name token false) name

/-- Zero stands at `n` of the buffer: the last of the inner components that reached so far ended
there, or none did and it was there before. -/
def ZeroAt (name : Nat → Byte) (inner : List (List Byte)) (n : Nat) : Prop :=
  match (inner.filter (fun token => n ≤ token.length)).getLast? with
  | none => name n = 0
  | some token => token.length = n

theorem afterInner_iff (string : ∀ token ∈ inner, ∀ c ∈ token, c ≠ 0) :
    afterInner name inner n = 0 ↔ ZeroAt name inner n := by
  induction inner using List.reverseRecOn with
  | nil => rfl
  | append_singleton inner token ih =>
    have earlier : ∀ token ∈ inner, ∀ c ∈ token, c ≠ 0 := fun token member =>
      string token (List.mem_append_left _ member)
    have last := string token (List.mem_append_right _ List.mem_cons_self)
    have step : afterInner name (inner ++ [token]) = copyToken (afterInner name inner) token false :=
      List.foldl_append
    rw [step, ZeroAt, List.filter_append]
    by_cases reaches : n ≤ token.length
    · have kept : [token].filter (fun token => n ≤ token.length) = [token] := by simp [reaches]
      rw [kept, List.getLast?_concat]
      dsimp only
      by_cases same : n = token.length
      · rw [same]
        exact iff_of_true (if_pos rfl) rfl
      · have inside : n < token.length := by omega
        rw [copyToken_copies _ _ _ inside]
        exact iff_of_false (last _ (List.getElem_mem inside)) (by omega)
    · have gone : [token].filter (fun token => n ≤ token.length) = [] := by simp [reaches]
      have past : copyToken (afterInner name inner) token false n = afterInner name inner n := by
        have other : ¬ n = if false = true then token.length + 1 else token.length := by
          rw [if_neg Bool.false_ne_true]
          omega
        rw [copyToken, if_neg other, List.getElem?_eq_none (by omega), Option.getD_none]
      rw [gone, List.append_nil, past]
      exact ih earlier

/-- The names of the passes, with the buffer as it changes. -/
def namesOf (name : Nat → Byte) : List (List Byte × Bool) → List (List Byte)
  | [] => []
  | (token, isLast) :: passes =>
    nameString (copyToken name token isLast) token :: namesOf (copyToken name token isLast) passes

theorem namesOf_inner (string : ∀ token ∈ inner, ∀ c ∈ token, c ≠ 0) (ps : List (List Byte × Bool)) :
    namesOf name (inner.map (·, false) ++ ps) = inner ++ namesOf (afterInner name inner) ps := by
  induction inner generalizing name with
  | nil => rfl
  | cons token inner ih =>
    rw [List.map_cons, List.cons_append, namesOf, nameString_inner name (string token List.mem_cons_self),
      ih fun token member => string token (List.mem_cons_of_mem _ member)]
    rfl

/-- The names are the components, if there is a slash at the end or the end of the last is
already in the buffer. -/
theorem namesOf_iff (string : ∀ c ∈ path, c ≠ 0) :
    namesOf name (passes path) = components path ↔
      lastPart path = [] ∨ ZeroAt name (innerParts path) (lastPart path).length := by
  have good : ∀ part ∈ innerParts path ++ [lastPart path], ∀ c ∈ part, c ≠ 0 := fun part member c inside =>
    string c (mem_parts (by rwa [parts_eq]) inside)
  have inner : ∀ part ∈ innerParts path, ∀ c ∈ part, c ≠ 0 := fun part member =>
    good part (List.mem_append_left _ member)
  have last := good (lastPart path) (List.mem_append_right _ List.mem_cons_self)
  have shape : passes path = (innerParts path).map (·, false) ++
      if lastPart path = [] then [] else [(lastPart path, true)] := passes_eq path
  rw [shape, namesOf_inner inner, components, List.append_cancel_left_eq]
  by_cases empty : lastPart path = []
  · rw [if_pos empty, if_pos empty]
    exact iff_of_true rfl (.inl empty)
  · rw [if_neg empty, if_neg empty, or_iff_right empty, ← afterInner_iff inner,
      ← nameString_last_iff (afterInner name (innerParts path)) last, namesOf, namesOf, List.cons.injEq,
      and_iff_left rfl]

/-! ## The loop -/

namespace FatData

/-- `openLoop`, and the strings that it passes to `FAT_FindFile`. -/
def openTrace (circumstances : Nat → Circumstances) (fuel : Nat) :
    (k : Nat) → (passes : List (List Byte × Bool)) →
    FatData → (name : Nat → Byte) → (current : Option Handle) → Opening × List (List Byte)
  | _, [], g, _, current => (.returned g current, [])
  | _, (token, isLast) :: _, _, name, none => (.nullHandle, [nameString (copyToken name token isLast) token])
  | k, (token, isLast) :: passes, g, name, some current =>
    let name := copyToken name token isLast
    let here := circumstances k
    let looked := nameString name token
    match g.fatFindFile here.searching here.junk fuel current looked with
    | none => (.running, [looked])
    | some (g, none) => (.returned (g.fatClose current) none, [looked])
    | some (g, some entry) =>
      let g := g.fatClose current
      if !isLast && !entry.isDirectory then (.returned g none, [looked])
      else
        let (g, opened) := g.fatOpenEntry here.opening entry.toDirectory
        let (opening, names) := openTrace circumstances fuel (k + 1) passes g name (opened.map .opened)
        (opening, looked :: names)

theorem openTrace_fst (name : Nat → Byte) (current : Option Handle) :
    (openTrace circumstances fuel k ps g name current).1 =
      openLoop circumstances fuel k ps g name current := by
  induction ps generalizing k g name current with
  | nil => rfl
  | cons p ps ih =>
    obtain ⟨token, isLast⟩ := p
    cases current with
    | none => rfl
    | some current =>
      rw [openTrace, openLoop]
      dsimp only
      cases g.fatFindFile (circumstances k).searching (circumstances k).junk fuel current
          (nameString (copyToken name token isLast) token) with
      | none => rfl
      | some found =>
        obtain ⟨g', _ | entry⟩ := found
        · rfl
        · dsimp only
          split
          · rfl
          · exact ih _ _

/-- The strings that `FAT_Open` passes to `FAT_FindFile`. -/
def lookedUp (circumstances : Nat → Circumstances) (fuel : Nat) (g : FatData) (name : Nat → Byte)
    (path : List Byte) : List (List Byte) :=
  (openTrace circumstances fuel 0 (passes path) g name (some .root)).2

end FatData

/-- Before its last pass, the loop finds a directory in each and opens it. -/
inductive PrefixesExist (circumstances : Nat → Circumstances) (fuel : Nat) :
    Nat → List (List Byte × Bool) → FatData → (Nat → Byte) → Handle → Prop
  | done (k : Nat) (g : FatData) (name : Nat → Byte) (current : Handle) :
      PrefixesExist circumstances fuel k [] g name current
  | last (k : Nat) (p : List Byte × Bool) (g : FatData) (name : Nat → Byte) (current : Handle) :
      PrefixesExist circumstances fuel k [p] g name current
  | enter {k : Nat} {token : List Byte} {isLast : Bool} {q : List Byte × Bool} {ps : List (List Byte × Bool)}
      {g g' g'' : FatData} {name : Nat → Byte} {current : Handle} {entry : DirEntry} {i : Fin 10}
      (search : g.fatFindFile (circumstances k).searching (circumstances k).junk fuel current
        (nameString (copyToken name token isLast) token) = some (g', some entry))
      (directory : entry.isDirectory = true)
      (opening : (g'.fatClose current).fatOpenEntry (circumstances k).opening entry.toDirectory =
        (g'', some i))
      (rest : PrefixesExist circumstances fuel (k + 1) (q :: ps) g''
        (copyToken name token isLast) (.opened i)) :
      PrefixesExist circumstances fuel k ((token, isLast) :: q :: ps) g name current

/-- As long as the loop can go on, it looks up the names of all passes. -/
theorem openTrace_names (exist : PrefixesExist circumstances fuel k ps g name current) :
    (FatData.openTrace circumstances fuel k ps g name (some current)).2 = namesOf name ps := by
  induction exist with
  | done => rfl
  | last k p g name current =>
    obtain ⟨token, isLast⟩ := p
    rw [FatData.openTrace, namesOf, namesOf]
    dsimp only
    cases g.fatFindFile (circumstances k).searching (circumstances k).junk fuel current
        (nameString (copyToken name token isLast) token) with
    | none => rfl
    | some found =>
      obtain ⟨g', _ | entry⟩ := found
      · rfl
      · dsimp only
        split
        · rfl
        · rfl
  | @enter k token isLast q ps g g' g'' name current entry i search directory opening rest ih =>
    rw [FatData.openTrace, namesOf]
    dsimp only
    rw [search]
    dsimp only
    rw [directory, Bool.not_true, Bool.and_false, if_neg Bool.false_ne_true, opening]
    exact congrArg (List.cons _) ih

/-- What `FAT_Open` looks up are the components of the path, exactly if there is none behind
the last slash or the buffer already has a zero where the last one ends. -/
theorem fatOpen_names_iff (string : ∀ c ∈ path, c ≠ 0)
    (exist : PrefixesExist circumstances fuel 0 (passes path) g name .root) :
    g.lookedUp circumstances fuel name path = components path ↔
      lastPart path = [] ∨ ZeroAt name (innerParts path) (lastPart path).length := by
  rw [FatData.lookedUp, openTrace_names exist, namesOf_iff string]

/-- `D/D`, with nothing but `A` in the buffer; the inner component puts the zero where the last
one ends. -/
theorem fatOpen_names_nested :
    (nestedVolume false).lookedUp nestedCircumstances 1 (fun _ => 0x41) nestedPath = [[0x44], [0x44]] := by
  have inner : innerParts nestedPath = [[0x44]] := by decide
  have ended : ZeroAt (fun _ => 0x41) (innerParts nestedPath) (lastPart nestedPath).length := by
    rw [inner]
    exact rfl
  have split : components nestedPath = [[0x44], [0x44]] := by decide
  rw [← split]
  refine (fatOpen_names_iff (by decide) ?_).mpr (.inr ended)
  have root : Listing ((nestedVolume false).file .root) := ⟨rfl, rfl, rfl, Nat.two_pow_pos 32⟩
  have named : nameString (copyToken (fun _ => 0x41) [0x44] false) [0x44] = [0x44] := by decide
  have first := nested_search root rfl rfl named
  have balanced : Balanced (nestedVolume false) .root (nestedVolume false) :=
    ⟨rfl, rfl, fun _ => rfl, fun i slot => (nomatch slot)⟩
  obtain ⟨_, inUse⟩ := (balanced.moved (.findLoop first)).close
  rw [nested_passes]
  have opens := fatOpenEntry_opens nestedRead
    (((nestedVolume false).advance nestedRead .root 32).1.fatClose .root) (slot nestedSector 0).toDirectory
  generalize opening : (((nestedVolume false).advance nestedRead .root 32).1.fatClose .root).fatOpenEntry
    nestedRead (slot nestedSector 0).toDirectory = result at opens
  cases opens with
  | full used => exact absurd ((congrFun inUse 0).symm.trans (used 0)) Bool.noConfusion
  | unreadable i fd free closed failed => cases (nestedRead_eq _).symm.trans failed
  | opened i buffer free loaded => exact .enter first nested_directory.1 opening (.last _ _ _ _ _)

/-- `D` alone, with the same buffer: what is looked up is `DA`. -/
theorem lookedUp_long : (∀ c ∈ [0x44], c ≠ (0 : Byte)) ∧
    PrefixesExist nestedCircumstances 1 0 (passes [0x44]) (nestedVolume false) (fun _ => 0x41) .root ∧
    (nestedVolume false).lookedUp nestedCircumstances 1 (fun _ => 0x41) [0x44] = [[0x44, 0x41]] ∧
    components [0x44] = [[0x44]] := by
  have exist : PrefixesExist nestedCircumstances 1 0 (passes [0x44]) (nestedVolume false) (fun _ => 0x41)
      .root :=
    .last _ _ _ _ _
  refine ⟨by decide, exist, ?_, by decide⟩
  rw [FatData.lookedUp, openTrace_names exist]
  decide

/-! ## The length of the buffer -/

def maxPathSize : Nat := 256

/-- The token leaves room in the buffer for an end, also for one that is put a byte too late. -/
def FitsName (token : List Byte) : Prop := token.length + 1 < maxPathSize

theorem copyToken_inside (isLast : Bool) (fits : FitsName token) (beyond : maxPathSize ≤ n) :
    copyToken name token isLast n = name n := by
  unfold FitsName at fits
  have past : ¬ n = if isLast = true then token.length + 1 else token.length := by
    split
    · omega
    · omega
  rw [copyToken, if_neg past, List.getElem?_eq_none (by omega), Option.getD_none]

theorem copyToken_agrees {name' : Nat → Byte} (isLast : Bool) (agree : ∀ i < n, name i = name' i) :
    ∀ i < n, copyToken name token isLast i = copyToken name' token isLast i := by
  intro i inside
  rw [copyToken, copyToken, agree i inside]

theorem nameString_agrees {name' : Nat → Byte} (fits : FitsName token)
    (agree : ∀ i < maxPathSize, name i = name' i) : nameString name token = nameString name' token := by
  have same : (List.range (token.length + 2)).map name = (List.range (token.length + 2)).map name' :=
    List.map_congr_left fun i member =>
      agree i (Nat.lt_of_lt_of_le (List.mem_range.mp member) fits)
  rw [nameString, nameString, same]

/-- As long as the tokens fit, the loop is independent of what lies behind the buffer. -/
theorem openLoop_inside {name' : Nat → Byte} {current : Option Handle} (fits : ∀ p ∈ ps, FitsName p.1)
    (agree : ∀ i < maxPathSize, name i = name' i) :
    FatData.openLoop circumstances fuel k ps g name current =
      FatData.openLoop circumstances fuel k ps g name' current := by
  induction ps generalizing k g name name' current with
  | nil => rfl
  | cons p ps ih =>
    obtain ⟨token, isLast⟩ := p
    cases current with
    | none => rfl
    | some current =>
      have copied : ∀ i < maxPathSize, copyToken name token isLast i = copyToken name' token isLast i :=
        copyToken_agrees isLast agree
      have looked := nameString_agrees (fits _ List.mem_cons_self) copied
      rw [FatData.openLoop, FatData.openLoop]
      dsimp only
      rw [looked]
      cases g.fatFindFile (circumstances k).searching (circumstances k).junk fuel current
          (nameString (copyToken name' token isLast) token) with
      | none => rfl
      | some found =>
        obtain ⟨g', _ | entry⟩ := found
        · rfl
        · dsimp only
          split
          · rfl
          · exact ih (fun p member => fits p (List.mem_cons_of_mem _ member)) copied

theorem mem_passesOf {p : List Byte × Bool} {parts : List (List Byte)} (some_left : parts ≠ [])
    (member : p ∈ passesOf parts) : p.1 ∈ parts := by
  rcases List.mem_append.mp member with inner | last
  · obtain ⟨part, inside, rfl⟩ := List.mem_map.mp inner
    exact List.dropLast_subset _ inside
  · split at last
    · cases last
    · rw [List.mem_singleton.mp last, List.getLastD_eq_getLast?, List.getLast?_eq_some_getLast some_left]
      exact List.getLast_mem some_left

/-- With components that fit, what `FAT_Open` does is independent of the bytes behind `name`. -/
theorem fatOpen_inside {name' : Nat → Byte} (fits : ∀ part ∈ parts path, FitsName part)
    (agree : ∀ i < maxPathSize, name i = name' i) :
    g.fatOpen circumstances fuel name path = g.fatOpen circumstances fuel name' path :=
  openLoop_inside
    (fun p member => fits p.1 (mem_passesOf (parts_ne_nil path) (passes_eq path ▸ member))) agree

end Laomb.FS
