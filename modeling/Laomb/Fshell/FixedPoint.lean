import Laomb.Fshell.NormalForm
import Laomb.Fshell.PathBuffers

/-! When resolving a resolved path changes nothing. The second pass trims what the
first one keeps: a last component that ends in whitespace, as in "/a /.", loses it. -/
namespace Laomb.Fshell
open VFS Fields Cancel Transition Vfs Shell

/-- The last component of the path that no later ".." cancels, if there is one, does not
end in whitespace. -/
def endsTidy (pwd : CString) (path : Option CString) : Bool :=
  match newest isDot isDotDot 0 (meantParts pwd path).reverse with
  | none => true
  | some part => !part.getLast?.any isspace

def resolveTwice (pwd : CString) (path : Option CString) : Result CString := do
  resolvePath pwd (some (← resolvePath pwd path))

/-- Every way to name the working directory resolves to it. -/
structure FixedPoint (pwd : CString) : Prop where
  itself : resolvePath pwd (some pwd) = .ok pwd
  omitted : resolvePath pwd none = .ok pwd
  empty : resolvePath pwd (some []) = .ok pwd
  dot : resolvePath pwd (some ['.']) = .ok pwd

variable {pwd full text : CString} {path args : Option CString} {parts : List CString}
    {sh sh' : Shell} {line : Line}

theorem trimmed_absolute (slash : text.head? = some '/') : trimmed text = text.rdropWhile isspace := by
  obtain ⟨rest, rfl⟩ := List.head?_eq_some_iff.mp slash
  rw [trimmed, List.dropWhile_cons_of_neg (by decide)]

/-- Trimming keeps an absolute path exactly if it does not end in whitespace. -/
theorem trimmed_self_iff (slash : text.head? = some '/') :
    trimmed text = text ↔ text.getLast?.any isspace = false := by
  rw [trimmed_absolute slash, List.rdropWhile_eq_self_iff]
  cases last : text.getLast? with
  | none =>
    rw [List.getLast?_eq_none_iff.mp last] at slash
    cases slash
  | some c =>
    obtain ⟨front, rfl⟩ := List.getLast?_eq_some_iff.mp last
    simp

theorem trimmed_shorter (slash : text.head? = some '/') (differs : trimmed text ≠ text) :
    (trimmed text).length < text.length := by
  rw [trimmed_absolute slash] at differs ⊢
  have front := List.rdropWhile_prefix isspace (l := text)
  by_contra long
  exact differs (front.eq_of_length_le (by omega))

/-- A path in normal form has only parts that are kept. -/
theorem Canonical.kept (canonical : Canonical full) :
    '/' :: ['/'].intercalate (keptParts (full.splitOn '/')) = full := by
  obtain ⟨rest, rfl, shape⟩ := canonical
  have split : ('/' :: rest).splitOn '/' = [] :: rest.splitOn '/' :=
    List.splitOnP_append_cons [] rest (by simp)
  have silent : keptParts ([] :: rest.splitOn '/') = keptParts (rest.splitOn '/') := rfl
  rw [split, silent]
  rcases shape with rfl | plain
  · rfl
  · rw [keptParts, settle_plain plain, List.append_nil, List.reverse_reverse, List.intercalate_splitOn]

theorem resolvePath_absolute (slash : full.head? = some '/') (short : full.length < bufferSize) :
    resolvePath pwd (some full) = .ok ('/' :: joinComponents (normalParts (trimmed full))) := by
  have nonempty : full ≠ [] := by
    rintro rfl
    cases slash
  have first : firstText pwd (some full) = full := if_neg nonempty
  have text : absoluteText pwd (some full) = trimmed full := by
    rw [absoluteText, first, trimWhitespace_eq, if_pos (trimmed_slash slash)]
  have shorter := trimWhitespace_length full
  rw [trimWhitespace_eq] at shorter
  have rejoined := rejoined_length (trimmed_slash slash)
  rw [resolvePath_eq (by rw [first]; exact short) (by rw [ShortText, text]; omega)
    (by rw [normalPath, text]; omega), normalPath, text]

/-- A path in normal form is a fixed point exactly if it does not end in whitespace. -/
theorem resolvePath_fixed_iff (pwd : CString) (canonical : Canonical full)
    (short : full.length < bufferSize) :
    resolvePath pwd (some full) = .ok full ↔ full.getLast?.any isspace = false := by
  have slash := canonical.slash
  rw [resolvePath_absolute slash short, ← trimmed_self_iff slash]
  constructor
  · intro fixed
    by_contra differs
    have shorter := trimmed_shorter slash differs
    have rejoined := rejoined_length (trimmed_slash slash)
    rw [Except.ok.inj fixed] at rejoined
    omega
  · intro same
    rw [same, joinComponents_eq, normalParts_eq, canonical.kept]

/-- The last character of a joined path is that of its last part. -/
theorem join_getLast (named : ∀ part ∈ parts, part ≠ []) :
    ('/' :: ['/'].intercalate parts).getLast? = some ((parts.getLast?.bind List.getLast?).getD '/') := by
  rcases List.eq_nil_or_concat parts with rfl | ⟨front, part, rfl⟩
  · rfl
  · rw [List.concat_eq_append] at named ⊢
    have nonempty := named part (by simp)
    obtain ⟨last, ends⟩ : ∃ last, part.getLast? = some last :=
      Option.ne_none_iff_exists'.mp (by simpa using nonempty)
    rw [← joinComponents_eq, join_render (by simp), render, join, List.flatMap_append]
    simp [List.getLast?_append, List.getLast?_cons, ends]

theorem endsTidy_iff : endsTidy pwd path = true ↔ (normalForm pwd path).getLast?.any isspace = false := by
  have named : ∀ part ∈ keptParts (meantParts pwd path), part ≠ [] := by
    intro part member
    have plain := (keptParts_plain member).2.1
    rintro rfl
    exact absurd plain (by simp [isDot])
  have newestKept : (keptParts (meantParts pwd path)).getLast? =
      newest isDot isDotDot 0 (meantParts pwd path).reverse := by
    rw [keptParts, List.getLast?_reverse, settle_head]
  rw [normalForm, join_getLast named, newestKept, endsTidy]
  cases found : newest isDot isDotDot 0 (meantParts pwd path).reverse with
  | none => decide
  | some part =>
    rw [found] at newestKept
    have nonempty := named part (List.mem_of_getLast? newestKept)
    obtain ⟨last, ends⟩ : ∃ last, part.getLast? = some last :=
      Option.ne_none_iff_exists'.mp (by simpa using nonempty)
    simp [ends]

theorem absolutePath_ok (run : absolutePath pwd (trimWhitespace (firstText pwd path)) = .ok full) :
    full = absoluteText pwd path := by
  unfold absolutePath at run
  unfold absoluteText
  split at run
  · rename_i slash
    rw [if_pos slash]
    exact (Except.ok.inj run).symm
  · rename_i relative
    rw [if_neg relative]
    exact copyString_ok run

/-- Where `resolve_path` returns, it leaves the normal form, and that fits. -/
theorem resolvePath_ok (run : resolvePath pwd path = .ok full) :
    full = normalForm pwd path ∧ full.length < bufferSize := by
  obtain ⟨copied, first, run⟩ := bind_ok run
  rw [copyString_ok first] at run
  obtain ⟨absolute, taken, run⟩ := bind_ok run
  rw [absolutePath_ok taken] at run
  dsimp only at run
  obtain ⟨parts, loop, run⟩ := bind_ok run
  have kept := resolveLoop_eq (absoluteText pwd path).length (some (absoluteText pwd path)) [] (Nat.le_refl _)
  rw [loop] at kept
  have same := copyString_ok run
  rw [Except.ok.inj kept] at same
  exact ⟨same.trans (normalPath_eq pwd path), copyString_short run⟩

theorem resolveTwice_iff (canonical : Canonical pwd)
    (fits : pwd.length + 1 + (path.getD []).length < bufferSize) :
    resolveTwice pwd path = resolvePath pwd path ↔ endsTidy pwd path = true := by
  have once := resolvePath_fits canonical.slash fits
  rw [normalPath_eq] at once
  have short := (resolvePath_ok once).2
  rw [resolveTwice, once, endsTidy_iff]
  dsimp only [bind, Except.bind]
  exact resolvePath_fixed_iff pwd (normalForm_canonical pwd path) short

/-- Only the text that the path stands for matters. -/
theorem resolvePath_congr {path' : Option CString} (same : firstText pwd path = firstText pwd path') :
    resolvePath pwd path = resolvePath pwd path' := by
  change (if path.getD [] = [] then pwd else path.getD []) = if path'.getD [] =
    [] then pwd else path'.getD [] at same
  rw [resolvePath, resolvePath, same]

/-- A working directory as `cd` leaves it. -/
structure NormalPwd (pwd : CString) : Prop where
  canonical : Canonical pwd
  short : pwd.length < 256

theorem NormalPwd.fixed_iff (normal : NormalPwd pwd) : FixedPoint pwd ↔ pwd.getLast?.any isspace = false := by
  obtain ⟨canonical, short⟩ := normal
  have wide : pwd.length < bufferSize := Nat.lt_trans short (by decide)
  rw [← resolvePath_fixed_iff pwd canonical wide]
  refine ⟨FixedPoint.itself, fun itself => ⟨itself, ?_, ?_, ?_⟩⟩
  · rw [resolvePath_congr (show firstText pwd none = firstText pwd (some pwd) by simp [firstText]), itself]
  · rw [resolvePath_congr
      (show firstText pwd (some []) = firstText pwd (some pwd) by simp [firstText]), itself]
  · have dotted : meantParts pwd (some ['.']) = pwd.splitOn '/' ++ [['.']] := rfl
    have silent : keptParts (pwd.splitOn '/' ++ [['.']]) = keptParts (pwd.splitOn '/') := by
      rw [keptParts, settle_append]
      rfl
    rw [resolvePath_fits canonical.slash
      (by simp only [Option.getD_some, List.length_singleton, bufferSize]; omega),
      normalPath_eq, normalForm, dotted, silent, canonical.kept]

/-- A line leaves the working directory, or it is a `cd` and enters what its path resolves to. -/
theorem executeLine_pwd (run : sh.executeLine line = .ok sh') : sh'.pwd = sh.pwd ∨
    line.command = "cd".toList ∧ resolvePath sh.pwd line.args = .ok sh'.pwd ∧ sh'.pwd.length < 256 := by
  obtain ⟨command, copied, run⟩ := bind_ok run
  obtain ⟨next, executed, run⟩ := bind_ok run
  cases run
  change next.pwd = sh.pwd ∨ _ ∧ resolvePath sh.pwd line.args = .ok next.pwd ∧ next.pwd.length < 256
  obtain rfl := copyString_ok copied
  unfold Shell.executeCommand at executed
  split at executed
  · cases executed
    exact .inl rfl
  · split at executed
    · rename_i entry found
      by_cases cd : entry.2 = .cd
      · have named : ∀ entry ∈ commands, entry.2 = .cd → entry.1 = "cd".toList := by decide
        have called : entry.1 = line.command := by simpa using List.find?_some found
        rw [cd] at executed
        rcases commandCd_pwd executed with same | entered
        · exact .inl same
        · exact .inr ⟨called ▸ named entry (List.mem_of_find?_eq_some found) cd, entered⟩
      · exact .inl (command_keeps cd next executed)
    · split at executed
      · obtain ⟨full, _, executed⟩ := bind_ok executed
        exact .inl (textEditor_keeps next executed)
      · cases executed
        exact .inl rfl

/-- Every line keeps the working directory in normal form. -/
theorem executeLine_normal (normal : NormalPwd sh.pwd) (run : sh.executeLine line = .ok sh') :
    NormalPwd sh'.pwd := by
  rcases executeLine_pwd run with same | ⟨_, resolved, short⟩
  · exact same ▸ normal
  · exact ⟨(resolvePath_ok resolved).1 ▸ normalForm_canonical sh.pwd line.args, short⟩

theorem init_normal (root : Addr) : NormalPwd (Shell.init root).pwd :=
  ⟨⟨[], rfl, .inl rfl⟩, show 1 < 256 by decide⟩

/-- A `cd` whose path does not leave a component that ends in whitespace at its end. -/
def Line.EntersTidy (sh : Shell) (line : Line) : Prop :=
  line.command = "cd".toList → endsTidy sh.pwd line.args = true

theorem executeLine_fixed_iff (run : sh.executeLine line = .ok sh') (normal : NormalPwd sh.pwd)
    (moved : sh'.pwd ≠ sh.pwd) : FixedPoint sh'.pwd ↔ endsTidy sh.pwd line.args = true := by
  rcases executeLine_pwd run with same | ⟨_, resolved, _⟩
  · exact absurd same moved
  · rw [(executeLine_normal normal run).fixed_iff, endsTidy_iff, (resolvePath_ok resolved).1]

theorem executeLine_keepsFixed (run : sh.executeLine line = .ok sh') (tidy : line.EntersTidy sh)
    (normal : NormalPwd sh.pwd) (fixed : FixedPoint sh.pwd) : FixedPoint sh'.pwd := by
  by_cases same : sh'.pwd = sh.pwd
  · exact same ▸ fixed
  · rcases executeLine_pwd run with unmoved | ⟨called, _⟩
    · exact absurd unmoved same
    · exact (executeLine_fixed_iff run normal same).mpr (tidy called)

/-- The working directory stays a fixed point in every run whose `cd` lines do not leave a
component that ends in whitespace at the end; the line that first moves to such a directory
ends that; and resolving twice is resolving once exactly for paths without such an end. -/
theorem run_pwdFixed_iff (root : Addr) :
    (∀ sh, Reachable (Along LineStep fun sh line => line.EntersTidy sh) (Shell.init root) sh →
      FixedPoint sh.pwd) ∧
    (∀ sh line sh', Reachable LineStep (Shell.init root) sh → LineStep sh line sh' → sh'.pwd ≠ sh.pwd →
      (FixedPoint sh'.pwd ↔ endsTidy sh.pwd line.args = true)) ∧
    (∀ pwd path, Canonical pwd → pwd.length + 1 + (path.getD []).length < bufferSize →
      (resolveTwice pwd path = resolvePath pwd path ↔ endsTidy pwd path = true)) := by
  refine ⟨?_, ?_, fun pwd path => resolveTwice_iff⟩
  · intro sh run
    have kept : NormalPwd sh.pwd ∧ FixedPoint sh.pwd := by
      refine run.invariant (I := fun sh => NormalPwd sh.pwd ∧ FixedPoint sh.pwd) ?_ ?_
      · rintro sh line sh' ⟨normal, fixed⟩ ⟨⟨_, executed⟩, tidy⟩
        exact ⟨executeLine_normal normal executed, executeLine_keepsFixed executed tidy normal fixed⟩
      · exact ⟨init_normal root, (init_normal root).fixed_iff.mpr rfl⟩
    exact kept.2
  · intro sh line sh' run step moved
    have normal : NormalPwd sh.pwd :=
      run.invariant (I := fun sh => NormalPwd sh.pwd)
        (fun _ _ _ normal step => executeLine_normal normal step.2) (init_normal root)
    exact executeLine_fixed_iff step.2 normal moved

instance (sh : Shell) (line : Line) : Decidable (line.EntersTidy sh) := inferInstanceAs (Decidable (_ → _))

/-- A folder whose name ends in a space, spelled with more behind it. -/
def spacedFolder : List Line := [typed 1 "mkdir /a /.".toList, typed 2 "cd /a /.".toList]

/-- After these lines the working directory "/a " resolves to "/a". -/
theorem spacedFolder_moves : ∃ sh, Run LineStep (Shell.init 0) spacedFolder sh ∧ ¬ FixedPoint sh.pwd := by
  have tested : (spacedFolder.foldlM (finishLine fun _ _ => true) (Shell.init 0)).any
      (fun sh => sh.pwd = "/a ".toList) = true := by decide +kernel
  obtain ⟨sh, run, inside⟩ := Run.of_tested (fun _ _ _ done => (finishLine_step done).1) tested
  refine ⟨sh, run, fun fixed => ?_⟩
  have normal : NormalPwd "/a ".toList := ⟨⟨"a ".toList, rfl, .inr (by decide)⟩, by decide⟩
  rw [inside] at fixed
  exact absurd (normal.fixed_iff.mp fixed) (by decide)

theorem run_pwdFixed_folder : ∃ sh, Run LineStep (Shell.init 0) makeFolder sh ∧ sh.pwd = "/a".toList ∧
    FixedPoint sh.pwd := by
  have tested : (makeFolder.foldlM (finishLine fun sh line => line.EntersTidy sh) (Shell.init 0)).any
      (fun sh => sh.pwd = "/a".toList) = true := by decide +kernel
  have sound : ∀ sh line sh', finishLine (fun sh line => line.EntersTidy sh) sh line = some sh' →
      Along LineStep (fun sh line => line.EntersTidy sh) sh line sh' :=
    fun _ _ _ done => ⟨(finishLine_step done).1, of_decide_eq_true (finishLine_step done).2⟩
  obtain ⟨sh, run, inside⟩ := Run.of_tested sound tested
  exact ⟨sh, run.mono fun _ _ _ step => step.1, inside, (run_pwdFixed_iff 0).1 sh ⟨_, run⟩⟩

end Laomb.Fshell
