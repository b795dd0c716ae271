import Laomb.Fshell.Lines
import Laomb.Fshell.UniqueNames

/-! The string copies behind the paths of the shell: what `resolve_path`, `create` and
`command_cd` write into their arrays, and when all of it stays inside. -/
namespace Laomb.Fshell
open VFS Fields Transition Vfs

/-- A `strcpy`, `strcat` or `strncpy` that leaves `text` and a terminator in an array of `size` bytes. -/
structure Copy where
  size : Nat
  text : CString

def Copy.Fits (c : Copy) : Prop := c.text.length < c.size

instance (c : Copy) : Decidable c.Fits := inferInstanceAs (Decidable (_ < _))

def firstText (pwd : CString) (path : Option CString) : CString :=
  if path.getD [] = [] then pwd else path.getD []

/-- The path that `resolve_path` takes apart. -/
def absoluteText (pwd : CString) (path : Option CString) : CString :=
  if (trimWhitespace (firstText pwd path)).head? = some '/' then trimWhitespace (firstText pwd path)
  else pwd ++ '/' :: trimWhitespace (firstText pwd path)

def normalParts (path : CString) : List CString := (components path).foldl pushComponent []

/-- The path without empty components, "." and "..". -/
def normalPath (pwd : CString) (path : Option CString) : CString :=
  '/' :: joinComponents (normalParts (absoluteText pwd path))

/-- The `strcat` calls of the last loop, on top of what is in the array. -/
def joinCopies (held : CString) : List CString → List Copy
  | [] => []
  | [c] => [⟨bufferSize, held ++ c⟩]
  | c :: rest => ⟨bufferSize, held ++ c⟩ :: ⟨bufferSize, held ++ c ++ ['/']⟩ :: joinCopies
    (held ++ c ++ ['/']) rest

/-- The copies of `resolve_path`, of which those through `temp` are for relative paths. -/
def resolveCopies (pwd : CString) (path : Option CString) : List Copy :=
  [⟨bufferSize, firstText pwd path⟩] ++
  (if (trimWhitespace (firstText pwd path)).head? = some '/' then []
    else [⟨bufferSize, pwd⟩, ⟨bufferSize, pwd ++ ['/']⟩, ⟨bufferSize, absoluteText pwd path⟩,
      ⟨bufferSize, absoluteText pwd path⟩]) ++
  [⟨bufferSize, absoluteText pwd path⟩] ++
  joinCopies ['/'] (normalParts (absoluteText pwd path))

/-- The copy of `create` into `parent_path`. -/
def createCopies (path : CString) : List Copy :=
  match lastSlash path with
  | none => []
  | some 0 => [⟨256, ['/']⟩]
  | some parentLen => [⟨256, path.take parentLen⟩]

/-- The copies made with a value, if the code gets that far. -/
def copiesAfter {α : Type} (x : Result α) (copies : α → List Copy) : List Copy :=
  match x with
  | .ok v => copies v
  | .error _ => []

/-- `resolve_path`, and what follows with the path it leaves. -/
def resolveThen (pwd : CString) (path : Option CString) (copies : CString → List Copy) : List Copy :=
  resolveCopies pwd path ++ copiesAfter (resolvePath pwd path) copies

/-- `open`, and `create` where that finds nothing. -/
def Shell.createMissing (sh : Shell) (path : CString) : List Copy :=
  copiesAfter (sh.vfs.openPath path) fun handle => if handle = none then createCopies path else []

namespace Shell

def redirectionCopies (sh : Shell) (args : Option CString) : List Copy :=
  match args.bind cutRedirection with
  | none => []
  | some (_, _, target) => resolveThen sh.pwd (some target) sh.createMissing

def cdCopies (sh : Shell) (path : CString) : List Copy :=
  copiesAfter (sh.vfs.openPath path) fun handle => match handle with
    | none => []
    | some handle => copiesAfter (sh.vfs.load handle) fun n => if n.type ≠ .folder then [] else [⟨256, path⟩]

end Shell

/-- The path copies of one command, in order, up to where it stops. -/
def Command.copies (env : Env) (sh : Shell) (args : Option CString) : Command → List Copy
  | help => sh.redirectionCopies args
  | echo => if args.getD [] = [] then [] else sh.redirectionCopies args
  | clear => []
  | ls => sh.redirectionCopies args ++
      copiesAfter (sh.handleRedirection env args) fun (output, mode, args, sh) =>
        copiesAfter (sh.startOffset mode output) fun _ => resolveCopies sh.pwd (some (args.getD sh.pwd))
  | cat => if args.getD [] = [] then [] else sh.redirectionCopies args ++
      copiesAfter (sh.handleRedirection env args) fun (output, mode, args, sh) =>
        copiesAfter (sh.startOffset mode output) fun _ => resolveCopies sh.pwd args
  | mkdir => if args.getD [] = [] then [] else resolveThen sh.pwd args createCopies
  | cd => if args.getD [] = [] then [] else resolveThen sh.pwd args sh.cdCopies
  | touch => if args.getD [] = [] then [] else resolveThen sh.pwd args sh.createMissing
  | rm => if args.getD [] = [] then [] else resolveCopies sh.pwd args
  | rmdir => if args.getD [] = [] then [] else resolveCopies sh.pwd args

/-- The path copies of a line, `edit` among them. -/
def Line.copies (sh : Shell) (line : Line) : List Copy :=
  copiesAfter (copyString 64 line.command) fun command =>
    if command = [] then []
    else match commands.find? (fun entry => entry.1 = command) with
      | some entry => entry.2.copies line.env sh line.args
      | none => if command = "edit".toList then resolveCopies sh.pwd line.args else []

def Fit (copies : List Copy) : Prop := ∀ c ∈ copies, c.Fits

/-- A copy that does not fit ends the code it belongs to. -/
def Stops {α : Type} (copies : List Copy) (x : Result α) : Prop := Fit copies ∨ x = .error .outOfBounds

variable {α β : Type} {copies copies' : List Copy} {x : Result α} {f : α → Result β} {ds : α → List Copy}
  {pwd full : CString} {path args : Option CString} {env : Env} {sh sh' : Shell} {line : Line}

theorem fit_nil : Fit [] := fun _ member => absurd member List.not_mem_nil

theorem fit_append : Fit (copies ++ copies') ↔ Fit copies ∧ Fit copies' := List.forall_mem_append

theorem fit_cons {c : Copy} : Fit (c :: copies) ↔ c.Fits ∧ Fit copies := List.forall_mem_cons

theorem fit_copiesAfter : Fit (copiesAfter x ds) ↔ ∀ v, x = .ok v → Fit (ds v) := by
  cases x with
  | error fault => exact iff_of_true fit_nil nofun
  | ok v =>
    constructor
    · intro fit u same
      rw [← Except.ok.inj same]
      exact fit
    · exact fun all => all v rfl

theorem Stops.bind (first : Stops copies x) (rest : ∀ v, x = .ok v → Stops (ds v) (f v)) :
    Stops (copies ++ copiesAfter x ds) (x >>= f) := by
  rcases first with fit | stopped
  · cases done : x with
    | error fault =>
      refine .inl (fit_append.mpr ⟨fit, ?_⟩)
      exact fit_nil
    | ok v =>
      rcases rest v done with fits | stopped
      · exact .inl (fit_append.mpr ⟨fit, fits⟩)
      · exact .inr stopped
  · rw [stopped]
    exact .inr rfl

theorem Stops.last (first : Stops copies x) : Stops copies (x >>= f) := by
  rcases first with fit | stopped
  · exact .inl fit
  · rw [stopped]
    exact .inr rfl

theorem stops_nil : Stops [] x := .inl fit_nil

theorem Stops.after (rest : ∀ v, x = .ok v → Stops (ds v) (f v)) : Stops (copiesAfter x ds) (x >>= f) :=
  stops_nil.bind rest

theorem Stops.guard {p : Prop} [Decidable p] {v : Result α} (rest : Stops copies x) :
    Stops (if p then [] else copies) (if p then v else x) := by
  split
  · exact stops_nil
  · exact rest

theorem trimWhitespace_length (str : CString) : (trimWhitespace str).length ≤ str.length := by
  unfold trimWhitespace
  have front := (List.dropWhile_suffix (l := str) isspace).length_le
  split
  · exact Nat.zero_le _
  · have back := (List.dropWhile_suffix (l := (str.dropWhile isspace).reverse) isspace).length_le
    rw [List.length_reverse] at back ⊢
    omega

theorem pushComponent_length (parts : List CString) (token : CString) :
    (join '/' (pushComponent parts token)).length ≤ (join '/' parts).length + (token.length + 1) := by
  unfold pushComponent
  split
  · omega
  · split
    · have kept : (join '/' parts.dropLast).length ≤ (join '/' parts).length := by
        rcases List.eq_nil_or_concat parts with rfl | ⟨front, last, rfl⟩
        · exact Nat.le_refl _
        · simp [join]
      omega
    · simp [join]

theorem normalParts_length (tokens parts : List CString) :
    (join '/' (tokens.foldl pushComponent parts)).length ≤ (join '/' parts).length +
      (join '/' tokens).length := by
  induction tokens generalizing parts with
  | nil => exact Nat.le_add_right _ _
  | cons token tokens ih =>
    have rest := ih (pushComponent parts token)
    have step := pushComponent_length parts token
    have split : (join '/' (token :: tokens)).length = (token.length + 1) + (join '/' tokens).length := by
      rw [join, List.flatMap_cons, List.length_append, List.length_cons, join]
    rw [List.foldl_cons]
    omega

theorem resolveLoop_eq (fuel : Nat) (str : Option CString) (parts : List CString)
    (enough : (str.getD []).length ≤ fuel) : resolveLoop fuel (strtok str).1 (strtok str).2 parts =
      .ok ((components (str.getD [])).foldl pushComponent parts) := by
  revert parts
  refine token_induction fuel str enough (fun fuel str finished run parts => ?_)
    (fun fuel str token last run split ih parts => ?_)
  · rw [run, finished]
    cases fuel <;> rfl
  · rw [run, split]
    exact ih (pushComponent parts token)

/-- What a path text needs for `resolve_path` to stay in its arrays. -/
def ShortText (pwd : CString) (path : Option CString) : Prop := (absoluteText pwd path).length < bufferSize

/-- The working directory as `cd` leaves it. -/
structure GoodPwd (pwd : CString) : Prop where
  slash : pwd.head? = some '/'
  short : pwd.length < 256

theorem joinCopies_fit {parts : List CString} (held : CString)
    (bound : (held ++ joinComponents parts).length < bufferSize) : Fit (joinCopies held parts) := by
  induction parts generalizing held with
  | nil => exact fit_nil
  | cons c parts ih =>
    cases parts with
    | nil => exact fit_cons.mpr ⟨bound, fit_nil⟩
    | cons d parts =>
      rw [joinComponents, List.append_cons, ← List.append_assoc, List.append_assoc held] at bound
      · have whole : (held ++ c ++ ['/'] ++ joinComponents (d :: parts)).length < bufferSize := by
          simpa using bound
        refine fit_cons.mpr ⟨?_, fit_cons.mpr ⟨?_, ih _ whole⟩⟩
        · simp only [Copy.Fits, List.length_append] at whole ⊢
          omega
        · simp only [Copy.Fits, List.length_append] at whole ⊢
          omega
      · exact List.cons_ne_nil d parts

theorem joinComponents_length (parts : List CString) :
    ('/' :: joinComponents parts).length ≤ max 1 (join '/' parts).length := by
  by_cases empty : parts = []
  · subst empty
    exact le_max_left _ _
  · rw [join_render empty]
    exact le_max_right _ _

theorem absoluteText_slash (slash : pwd.head? = some '/') : (absoluteText pwd path).head? = some '/' := by
  unfold absoluteText
  split
  · rename_i first
    exact first
  · obtain ⟨tail, rfl⟩ := List.head?_eq_some_iff.mp slash
    rfl

/-- Taking a path apart and joining it again makes it no longer. -/
theorem rejoined_length {text : CString} (slash : text.head? = some '/') :
    ('/' :: joinComponents (normalParts text)).length ≤ text.length := by
  obtain ⟨rest, rfl⟩ := List.head?_eq_some_iff.mp slash
  have parts := normalParts_length (components ('/' :: rest)) []
  have fields : (join '/' (components ('/' :: rest))).length ≤ ('/' :: rest).length :=
    join_fields_sep_length '/' rest (by simp)
  have joined := joinComponents_length (normalParts ('/' :: rest))
  simp only [components, normalParts, join, List.flatMap_nil, List.length_nil, List.length_cons] at *
  omega

theorem normalPath_length (slash : pwd.head? = some '/') :
    (normalPath pwd path).length ≤ (absoluteText pwd path).length :=
  rejoined_length (absoluteText_slash slash)

theorem resolvePath_eq (first : (firstText pwd path).length < bufferSize) (text : ShortText pwd path)
    (normal : (normalPath pwd path).length < bufferSize) : resolvePath pwd path =
      .ok (normalPath pwd path) := by
  have absolute : absolutePath pwd (trimWhitespace (firstText pwd path)) = .ok (absoluteText pwd path) := by
    unfold ShortText absoluteText at text
    unfold absolutePath absoluteText
    split
    · rfl
    · rename_i relative
      rw [if_neg relative] at text
      exact if_pos text
  have loop := resolveLoop_eq (absoluteText pwd path).length (some (absoluteText pwd path)) [] (Nat.le_refl _)
  simp only [resolvePath]
  rw [show (if path.getD [] = [] then pwd else path.getD []) = firstText pwd path from rfl,
    copyString, if_pos first]
  simp only [bind, Except.bind, pure, Except.pure, absolute, loop]
  exact if_pos normal

theorem resolvePath_stops (first : (firstText pwd path).length < bufferSize)
    (long : ¬ ShortText pwd path) : resolvePath pwd path = .error .outOfBounds := by
  have relative : (trimWhitespace (firstText pwd path)).head? ≠ some '/' := by
    intro slash
    rw [ShortText, absoluteText, if_pos slash] at long
    have shorter := trimWhitespace_length (firstText pwd path)
    omega
  rw [ShortText, absoluteText, if_neg relative] at long
  simp only [resolvePath]
  rw [show (if path.getD [] = [] then pwd else path.getD []) = firstText pwd path from rfl,
    copyString, if_pos first]
  simp only [bind, Except.bind, pure, Except.pure, absolutePath, if_neg relative, copyString, if_neg long]

theorem fit_resolveCopies (good : GoodPwd pwd) (first : (firstText pwd path).length < bufferSize) :
    Fit (resolveCopies pwd path) ↔ ShortText pwd path := by
  constructor
  · intro fit
    exact fit ⟨bufferSize, absoluteText pwd path⟩ (by simp [resolveCopies])
  · intro text
    have normal : (normalPath pwd path).length < bufferSize :=
      Nat.lt_of_le_of_lt (normalPath_length good.slash) text
    have pwd_ := good.short
    have absolute : Copy.Fits ⟨bufferSize, absoluteText pwd path⟩ := text
    refine fit_append.mpr ⟨fit_append.mpr ⟨fit_append.mpr ⟨?_, ?_⟩, ?_⟩, joinCopies_fit ['/'] normal⟩
    · exact fit_cons.mpr ⟨first, fit_nil⟩
    · split
      · exact fit_nil
      · refine fit_cons.mpr ⟨?_, fit_cons.mpr ⟨?_, fit_cons.mpr ⟨absolute, fit_cons.mpr ⟨absolute, fit_nil⟩⟩⟩⟩
        · simp only [Copy.Fits, bufferSize]
          omega
        · simp only [Copy.Fits, bufferSize, List.length_append, List.length_singleton]
          omega
    · exact fit_cons.mpr ⟨absolute, fit_nil⟩

theorem fit_resolveThen {copies : CString → List Copy} (good : GoodPwd pwd)
    (first : (firstText pwd path).length < bufferSize) : Fit (resolveThen pwd path copies) ↔
      ShortText pwd path ∧ Fit (copies (normalPath pwd path)) := by
  rw [resolveThen, fit_append, fit_resolveCopies good first]
  refine and_congr_right fun text => ?_
  rw [resolvePath_eq first text (Nat.lt_of_le_of_lt (normalPath_length good.slash) text), copiesAfter]

theorem resolve_stops (good : GoodPwd pwd) (first : (firstText pwd path).length < bufferSize) :
    Stops (resolveCopies pwd path) (resolvePath pwd path) := by
  by_cases text : ShortText pwd path
  · exact .inl ((fit_resolveCopies good first).mpr text)
  · exact .inr (resolvePath_stops first text)

/-- The part of a path in front of its last component fits `parent_path`. -/
def ShortParent (path : CString) : Prop := (lastSlash path).getD 0 < 256

theorem fit_createCopies (path : CString) : Fit (createCopies path) ↔ ShortParent path := by
  unfold createCopies ShortParent
  rcases lastSlash_cases path with none | ⟨left, name, rfl, _, slash⟩
  · rw [none]
    exact iff_of_true fit_nil (by decide)
  · rw [slash]
    cases left with
    | nil => exact iff_of_true (fit_cons.mpr ⟨by decide, fit_nil⟩) (by decide)
    | cons c left =>
      have front : (c :: left ++ '/' :: name).take (left.length + 1) = c :: left := by simp
      simp only [List.length_cons]
      rw [front, fit_cons, and_iff_left fit_nil]
      exact Iff.rfl

theorem create_stops (s : Vfs) (path : CString) (type : NodeType) (fresh : Addr) :
    Stops (createCopies path) (s.create path type fresh) := by
  by_cases short : ShortParent path
  · exact .inl ((fit_createCopies path).mpr short)
  · right
    unfold ShortParent at short
    rcases lastSlash_cases path with none | ⟨left, name, rfl, _, slash⟩
    · rw [none] at short
      exact absurd (by decide) short
    · rw [slash, Option.getD_some] at short
      have positive : left.length ≠ 0 := by omega
      simp only [Vfs.create, slash, parentPath, if_neg positive, if_neg short, bind, Except.bind]

namespace Shell

/-- Within a line the texts fit their first copy: nothing is longer than the line. -/
theorem firstText_short (good : GoodPwd pwd) (bound : ∀ text ∈ path, text.length < bufferSize) :
    (firstText pwd path).length < bufferSize := by
  unfold firstText
  split
  · exact Nat.lt_trans good.short (by decide)
  · cases path with
    | none => exact Nat.two_pow_pos 9
    | some text => exact bound text rfl

theorem createMissing_stops {f : Ptr → Result α} (created : Stops (createCopies full) (f none)) :
    Stops (sh.createMissing full) (sh.vfs.openPath full >>= f) := by
  refine Stops.after fun handle _ => ?_
  cases handle with
  | none => exact created
  | some handle => exact stops_nil

theorem cutRedirection_short {text cut target : CString} {mode : WriteMode}
    (found : cutRedirection text = some (mode, cut, target)) :
    cut.length ≤ text.length ∧ target.length ≤ text.length := by
  have front := (List.takeWhile_prefix (l := text) (· ≠ '>')).length_le
  have back := (List.dropWhile_suffix (l := text) (· ≠ '>')).length_le
  unfold cutRedirection at found
  split at found
  · cases found
  · rename_i last split_
    have rest := (List.dropWhile_suffix (l := last) (· = ' ')).length_le
    rw [split_, List.length_cons, List.length_cons] at back
    cases found
    exact ⟨front, by omega⟩
  · rename_i last _ split_
    have rest := (List.dropWhile_suffix (l := last) (· = ' ')).length_le
    rw [split_, List.length_cons] at back
    cases found
    exact ⟨front, by omega⟩

theorem redirection_stops (good : GoodPwd sh.pwd) (bound : ∀ text ∈ args, text.length < bufferSize) :
    Stops (sh.redirectionCopies args) (sh.handleRedirection env args) := by
  unfold redirectionCopies handleRedirection
  cases cutting : args.bind cutRedirection with
  | none => exact stops_nil
  | some cuts =>
    obtain ⟨mode, cut, target⟩ := cuts
    obtain ⟨text, given, cut_⟩ := Option.bind_eq_some_iff.mp cutting
    have short := bound text given
    have first : (firstText sh.pwd (some target)).length < bufferSize := firstText_short good fun _ same => by
      rw [← Option.some.inj same]
      exact Nat.lt_of_le_of_lt (cutRedirection_short cut_).2 short
    refine (resolve_stops good first).bind fun full _ => createMissing_stops ?_
    exact (create_stops sh.vfs full .file env.fresh).last

theorem handleRedirection_same {output : Ptr} {mode : WriteMode} {args' : Option CString}
    (run : sh.handleRedirection env args = .ok (output, mode, args', sh')) :
    sh'.pwd = sh.pwd ∧ (args' = args ∨ ∃ cut target, args' = some cut ∧
      args.bind cutRedirection = some (mode, cut, target)) := by
  rw [handleRedirection] at run
  split at run
  · cases run
    exact ⟨rfl, .inl rfl⟩
  · rename_i mode cut target cutting
    obtain ⟨full, _, run⟩ := bind_ok run
    obtain ⟨found, _, run⟩ := bind_ok run
    split at run
    · cases run
      exact ⟨rfl, .inr ⟨cut, target, rfl, cutting⟩⟩
    · obtain ⟨⟨err, vfs⟩, _, run⟩ := bind_ok run
      dsimp only at run
      split at run
      · cases run
        exact ⟨rfl, .inr ⟨cut, target, rfl, cutting⟩⟩
      · obtain ⟨handle, _, run⟩ := bind_ok run
        cases run
        exact ⟨rfl, .inr ⟨cut, target, rfl, cutting⟩⟩

/-- The arguments that a redirection leaves are no longer than those it was given. -/
theorem handleRedirection_args {output : Ptr} {mode : WriteMode} {args' : Option CString}
    (run : sh.handleRedirection env args = .ok (output, mode, args', sh'))
    (bound : ∀ text ∈ args, text.length < bufferSize) :
    sh'.pwd = sh.pwd ∧ ∀ text ∈ args', text.length < bufferSize := by
  obtain ⟨same, rfl | ⟨cut, target, rfl, cutting⟩⟩ := handleRedirection_same run
  · exact ⟨same, bound⟩
  · obtain ⟨text, given, cut_⟩ := Option.bind_eq_some_iff.mp cutting
    refine ⟨same, fun text' member => ?_⟩
    rw [← Option.some.inj member]
    exact Nat.lt_of_le_of_lt (cutRedirection_short cut_).1 (bound text given)

/-- Without an argument, `ls` resolves the working directory. -/
theorem listed_short (good : GoodPwd pwd) (bound : ∀ text ∈ args, text.length < bufferSize) :
    ∀ text ∈ some (args.getD pwd), text.length < bufferSize := by
  intro text same
  rw [← Option.some.inj same]
  cases args with
  | none => exact Nat.lt_trans good.short (by decide)
  | some text => exact bound text rfl

theorem cd_stops {f : Ptr → Result Shell} (entered : ∀ handle, f (some handle) = (do
      let n ← sh.vfs.load handle
      if n.type ≠ .folder then pure (sh.puts "Not a directory.\n".toList)
      else
        let pwd ← copyString 256 full
        pure { sh with pwd := pwd })) : Stops (sh.cdCopies full) (sh.vfs.openPath full >>= f) := by
  refine Stops.after fun handle _ => ?_
  cases handle with
  | none => exact stops_nil
  | some handle =>
    dsimp only
    rw [entered]
    refine Stops.after fun n _ => ?_
    split
    · exact stops_nil
    · by_cases short : full.length < 256
      · exact .inl (fit_cons.mpr ⟨short, fit_nil⟩)
      · right
        rw [copyString, if_neg short]
        rfl

end Shell

open Shell

/-- A path copy that does not fit is where the command stops. -/
theorem command_stops (command : Command) (good : GoodPwd sh.pwd)
    (bound : ∀ text ∈ args, text.length < bufferSize) :
    Stops (command.copies env sh args) (command.run env sh args) := by
  have redirected : Stops (sh.redirectionCopies args) (sh.handleRedirection env args) :=
    redirection_stops good bound
  have first := firstText_short good bound
  have resolved := resolve_stops good first
  cases command with
  | help => exact redirected.last
  | clear => exact stops_nil
  | echo => exact Stops.guard redirected.last
  | rm => exact Stops.guard resolved.last
  | rmdir => exact Stops.guard resolved.last
  | mkdir => exact Stops.guard (resolved.bind fun full _ => (create_stops sh.vfs full .folder env.fresh).last)
  | touch =>
    refine Stops.guard (resolved.bind fun full _ => createMissing_stops ?_)
    exact (create_stops sh.vfs full .file env.fresh).last
  | cd => exact Stops.guard (resolved.bind fun full _ => cd_stops fun handle => rfl)
  | ls =>
    refine redirected.bind fun r done => Stops.after fun offset _ => Stops.last ?_
    obtain ⟨same, shorter⟩ := handleRedirection_args done bound
    have good' := same ▸ good
    exact resolve_stops good' (firstText_short good' (listed_short good' shorter))
  | cat =>
    refine Stops.guard (redirected.bind fun r done => Stops.after fun offset _ => Stops.last ?_)
    obtain ⟨same, shorter⟩ := handleRedirection_args done bound
    have good' := same ▸ good
    exact resolve_stops good' (firstText_short good' shorter)

end Laomb.Fshell
