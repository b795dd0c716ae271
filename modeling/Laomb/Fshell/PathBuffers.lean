import Laomb.Fshell.PathCopies

/-! The lengths under which the path copies of a line stay in their arrays, over runs of
typed lines. The working directory is the only text that one line leaves for the next. -/
namespace Laomb.Fshell
open VFS Transition Shell

variable {α : Type} {copies : List Copy} {pwd full : CString} {path args : Option CString} {env : Env}
  {sh sh' : Shell} {line : Line}

namespace Shell

/-- A path that is created because `open` does not find it. -/
def ShortMissing (sh : Shell) (path : CString) : Prop := sh.vfs.openPath path = .ok none → ShortParent path

def ShortRedirection (sh : Shell) (args : Option CString) : Prop :=
  ∀ mode cut target, args.bind cutRedirection = some (mode, cut, target) →
    ShortText sh.pwd (some target) ∧ sh.ShortMissing (normalPath sh.pwd (some target))

/-- The arguments after a redirection that was set up. -/
def ShortAfter (env : Env) (sh : Shell) (args : Option CString)
    (path : Option CString → Option CString) : Prop :=
  ∀ output mode args' sh' offset, sh.handleRedirection env args = .ok (output, mode, args', sh') →
    sh'.startOffset mode output = .ok offset → ShortText sh.pwd (path args')

/-- A folder that `cd` makes the working directory. -/
def ShortFolder (sh : Shell) (path : CString) : Prop :=
  ∀ handle n, sh.vfs.openPath path = .ok (some handle) → sh.vfs.load handle = .ok n → n.type = .folder →
    path.length < 256

end Shell

/-- The lengths under which the path copies of a command stay in their arrays. -/
def Command.Short (env : Env) (sh : Shell) (args : Option CString) : Command → Prop
  | help => sh.ShortRedirection args
  | echo => args.getD [] ≠ [] → sh.ShortRedirection args
  | clear => True
  | ls => sh.ShortRedirection args ∧ sh.ShortAfter env args fun args => some (args.getD sh.pwd)
  | cat => args.getD [] ≠ [] → sh.ShortRedirection args ∧ sh.ShortAfter env args fun args => args
  | mkdir => args.getD [] ≠ [] → ShortText sh.pwd args ∧ ShortParent (normalPath sh.pwd args)
  | cd => args.getD [] ≠ [] → ShortText sh.pwd args ∧ sh.ShortFolder (normalPath sh.pwd args)
  | touch => args.getD [] ≠ [] → ShortText sh.pwd args ∧ sh.ShortMissing (normalPath sh.pwd args)
  | rm => args.getD [] ≠ [] → ShortText sh.pwd args
  | rmdir => args.getD [] ≠ [] → ShortText sh.pwd args

theorem fit_guard {p : Prop} [Decidable p] : Fit (if p then [] else copies) ↔ (¬ p → Fit copies) := by
  split
  · rename_i holds
    exact iff_of_true fit_nil fun fails => absurd holds fails
  · rename_i fails
    exact (imp_iff_right fails).symm

theorem fit_createMissing (sh : Shell) (path : CString) :
    Fit (sh.createMissing path) ↔ sh.ShortMissing path := by
  rw [createMissing, fit_copiesAfter]
  constructor
  · intro all absent
    exact (fit_createCopies path).mp (all none absent)
  · intro short handle opened
    split
    · rename_i none
      exact (fit_createCopies path).mpr (short (none ▸ opened))
    · exact fit_nil

theorem fit_cdCopies (sh : Shell) (path : CString) : Fit (sh.cdCopies path) ↔ sh.ShortFolder path := by
  rw [cdCopies, fit_copiesAfter]
  constructor
  · intro all handle n opened loaded folder
    have fit := fit_copiesAfter.mp (all (some handle) opened) n loaded
    rw [if_neg (not_not.mpr folder)] at fit
    exact (fit_cons.mp fit).1
  · intro short handle opened
    cases handle with
    | none => exact fit_nil
    | some handle =>
      refine fit_copiesAfter.mpr fun n loaded => fit_guard.mpr fun folder => fit_cons.mpr ⟨?_, fit_nil⟩
      exact short handle n opened loaded (not_not.mp folder)

theorem fit_redirection (good : GoodPwd sh.pwd) (bound : ∀ text ∈ args, text.length < bufferSize) :
    Fit (sh.redirectionCopies args) ↔ sh.ShortRedirection args := by
  unfold redirectionCopies ShortRedirection
  cases cutting : args.bind cutRedirection with
  | none => exact iff_of_true fit_nil fun _ _ _ some => by cases some
  | some cuts =>
    obtain ⟨mode, cut, target⟩ := cuts
    obtain ⟨text, given, cut_⟩ := Option.bind_eq_some_iff.mp cutting
    have first : (firstText sh.pwd (some target)).length < bufferSize := firstText_short good fun _ same => by
      rw [← Option.some.inj same]
      exact Nat.lt_of_le_of_lt (cutRedirection_short cut_).2 (bound text given)
    have each : Fit (resolveThen sh.pwd (some target) sh.createMissing) ↔
        ShortText sh.pwd (some target) ∧ sh.ShortMissing (normalPath sh.pwd (some target)) :=
      (fit_resolveThen good first).trans (and_congr_right fun _ => fit_createMissing sh _)
    constructor
    · rintro fit _ _ _ same
      cases same
      exact each.mp fit
    · exact fun short => each.mpr (short mode cut target rfl)

theorem fit_afterRedirection (path : CString → Option CString → Option CString) (good : GoodPwd sh.pwd)
    (bound : ∀ text ∈ args, text.length < bufferSize)
    (first : ∀ args', (∀ text ∈ args', text.length < bufferSize) →
      (firstText sh.pwd (path sh.pwd args')).length < bufferSize) :
    Fit (copiesAfter (sh.handleRedirection env args) fun (output, mode, args, sh) =>
      copiesAfter (sh.startOffset mode output) fun _ => resolveCopies sh.pwd (path sh.pwd args)) ↔
    sh.ShortAfter env args (path sh.pwd) := by
  rw [fit_copiesAfter]
  constructor
  · intro all output mode args' sh' offset run started
    obtain ⟨same, shorter⟩ := handleRedirection_args run bound
    have fit := fit_copiesAfter.mp (all _ run) offset started
    rw [same] at fit
    exact (fit_resolveCopies good (first args' shorter)).mp fit
  · rintro short ⟨output, mode, args', sh'⟩ run
    obtain ⟨same, shorter⟩ := handleRedirection_args run bound
    refine fit_copiesAfter.mpr fun offset started => ?_
    rw [same]
    exact (fit_resolveCopies good (first args' shorter)).mpr (short output mode args' sh' offset run started)

/-- The lengths are exactly those under which every path copy of the command fits. -/
theorem command_fit_iff (command : Command) (good : GoodPwd sh.pwd)
    (bound : ∀ text ∈ args, text.length < bufferSize) :
    Fit (command.copies env sh args) ↔ command.Short env sh args := by
  have first := firstText_short good bound
  have redirected := fit_redirection good bound
  have resolved := fit_resolveCopies good first
  cases command with
  | help => exact redirected
  | clear => exact iff_of_true fit_nil trivial
  | echo => exact fit_guard.trans (imp_congr_right fun _ => redirected)
  | rm => exact fit_guard.trans (imp_congr_right fun _ => resolved)
  | rmdir => exact fit_guard.trans (imp_congr_right fun _ => resolved)
  | mkdir =>
    refine fit_guard.trans (imp_congr_right fun _ => (fit_resolveThen good first).trans ?_)
    exact and_congr_right fun _ => fit_createCopies _
  | touch =>
    refine fit_guard.trans (imp_congr_right fun _ => (fit_resolveThen good first).trans ?_)
    exact and_congr_right fun _ => fit_createMissing sh _
  | cd =>
    refine fit_guard.trans (imp_congr_right fun _ => (fit_resolveThen good first).trans ?_)
    exact and_congr_right fun _ => fit_cdCopies sh _
  | ls =>
    refine fit_append.trans (and_congr redirected ?_)
    exact fit_afterRedirection (fun pwd args => some (args.getD pwd)) good bound
      fun args' shorter => firstText_short good (listed_short good shorter)
  | cat =>
    refine fit_guard.trans (imp_congr_right fun _ => fit_append.trans (and_congr redirected ?_))
    exact fit_afterRedirection (fun _ args => args) good bound fun args' shorter =>
      firstText_short good shorter

/-- Whatever a piece of code ends in, it is in this directory. -/
def Keeps (pwd : CString) (x : Result Shell) : Prop := ∀ sh, x = .ok sh → sh.pwd = pwd

theorem Keeps.bind {f : α → Result Shell} (rest : ∀ v, x = .ok v → Keeps pwd (f v)) :
    Keeps pwd (x >>= f) := by
  intro sh run
  obtain ⟨v, done, run⟩ := bind_ok run
  exact rest v done sh run

theorem keeps_pure (same : sh.pwd = pwd) : Keeps pwd (pure sh) := by
  intro sh' run
  rw [← Except.ok.inj run]
  exact same

theorem keeps_error (fault : Fault) : Keeps pwd (.error fault) := fun _ run => by cases run

namespace Shell

variable {output : Ptr} {offset offset' : Nat}

theorem emit_pwd {text : CString} {junk : Nat → Byte}
    (run : sh.emit output offset text junk = .ok (sh', offset')) :
    sh'.pwd = sh.pwd := by
  cases output with
  | none =>
    cases run
    rfl
  | some handle =>
    obtain ⟨⟨err, vfs⟩, _, run⟩ := bind_ok run
    cases run
    rfl

theorem emitAll_pwd {junk : Nat → Nat → Byte} {texts : List CString}
    (run : emitAll junk sh output offset texts = .ok (sh', offset')) : sh'.pwd = sh.pwd := by
  induction texts generalizing sh offset with
  | nil =>
    cases run
    rfl
  | cons text rest ih =>
    obtain ⟨⟨next, offset''⟩, first, run⟩ := bind_ok run
    exact (ih run).trans (emit_pwd first)

theorem report_keeps {size : Nat} {text : CString} :
    Keeps sh.pwd (report env sh output offset size text) := by
  cases output with
  | none => exact keeps_pure rfl
  | some handle => exact Keeps.bind fun _ _ => keeps_pure rfl

theorem listChildren_pwd {fuel : Nat} {child : Ptr}
    (run : listChildren env output fuel sh offset child = .ok (sh', offset')) : sh'.pwd = sh.pwd := by
  induction fuel generalizing sh offset child with
  | zero => cases run
  | succ fuel ih =>
    cases child with
    | none =>
      cases run
      rfl
    | some child =>
      obtain ⟨n, _, run⟩ := bind_ok run
      split at run
      · cases run
      · obtain ⟨⟨next, offset''⟩, shown, run⟩ := bind_ok run
        obtain ⟨m, _, run⟩ := bind_ok run
        exact (ih run).trans (emitAll_pwd shown)

theorem editKeys_keeps {handle : Addr} {buffer : List Byte} {bufferPos : Nat} {keys : List Char} :
    Keeps sh.pwd (editKeys env handle sh buffer bufferPos keys) := by
  induction keys generalizing sh buffer bufferPos with
  | nil => exact keeps_pure rfl
  | cons key keys ih =>
    refine Keeps.bind fun r pressed => ?_
    obtain ⟨next, buffer', bufferPos'⟩ := r
    have same : next.pwd = sh.pwd := by
      unfold editKey at pressed
      split at pressed
      · cases pressed
        rfl
      · split at pressed
        · split at pressed
          · cases pressed
            rfl
          · cases pressed
            rfl
        · split at pressed
          · obtain ⟨⟨err, vfs⟩, _, pressed⟩ := bind_ok pressed
            cases pressed
            rfl
          · split at pressed
            · cases pressed
              rfl
            · cases pressed
              rfl
    exact same ▸ ih

theorem textEditor_keeps {keys : List Char} {path : CString} :
    Keeps sh.pwd (sh.textEditor env keys path) := by
  refine Keeps.bind fun handle _ => ?_
  cases handle with
  | none => exact keeps_error _
  | some handle =>
    refine Keeps.bind fun n _ => ?_
    cases n.ops with
    | none => exact keeps_error _
    | some driver =>
      cases driver with
      | ramfs =>
        dsimp only
        split
        · exact keeps_error _
        · exact Keeps.bind fun _ _ => editKeys_keeps

theorem redirected_keeps {f : Ptr × WriteMode × Option CString × Shell → Result Shell}
    (rest : ∀ r, r.2.2.2.pwd = sh.pwd → Keeps r.2.2.2.pwd (f r)) :
    Keeps sh.pwd (sh.handleRedirection env args >>= f) := by
  refine Keeps.bind fun r run => ?_
  have same := (handleRedirection_same run).1
  exact same ▸ rest r same

end Shell

open Shell

theorem guard_keeps {p : Prop} [Decidable p] {text : CString} {x : Result Shell} (rest : Keeps sh.pwd x) :
    Keeps sh.pwd (if p then pure (sh.puts text) else x) := by
  split
  · exact keeps_pure rfl
  · exact rest

/-- Every command but `cd` stays where it is. -/
theorem command_keeps {command : Command} (other : command ≠ .cd) :
    Keeps sh.pwd (command.run env sh args) := by
  cases command with
  | cd => exact absurd rfl other
  | clear => exact keeps_pure rfl
  | help =>
    refine redirected_keeps fun r _ => Keeps.bind fun offset _ => Keeps.bind fun shown done => keeps_pure ?_
    exact emitAll_pwd done
  | echo =>
    refine guard_keeps (redirected_keeps fun r _ => Keeps.bind fun offset _ => Keeps.bind fun shown done =>
      keeps_pure ?_)
    exact emitAll_pwd done
  | mkdir =>
    refine guard_keeps (Keeps.bind fun full _ => Keeps.bind fun r _ => ?_)
    obtain ⟨err, vfs⟩ := r
    cases err <;> exact keeps_pure rfl
  | touch =>
    refine guard_keeps (Keeps.bind fun full _ => Keeps.bind fun handle _ => ?_)
    cases handle with
    | some handle => exact keeps_pure rfl
    | none =>
      refine Keeps.bind fun r _ => ?_
      obtain ⟨err, vfs⟩ := r
      cases err <;> exact keeps_pure rfl
  | rm =>
    refine guard_keeps (Keeps.bind fun full _ => Keeps.bind fun handle _ => ?_)
    cases handle with
    | none => exact keeps_pure rfl
    | some handle =>
      refine Keeps.bind fun n _ => guard_keeps (Keeps.bind fun r _ => ?_)
      dsimp only
      split
      · exact keeps_pure rfl
      · exact keeps_pure rfl
  | rmdir =>
    refine guard_keeps (Keeps.bind fun full _ => Keeps.bind fun handle _ => ?_)
    cases handle with
    | none => exact keeps_pure rfl
    | some handle =>
      refine Keeps.bind fun n _ => guard_keeps (guard_keeps (Keeps.bind fun r _ => ?_))
      dsimp only
      split
      · exact keeps_pure rfl
      · exact keeps_pure rfl
  | ls =>
    refine redirected_keeps fun r _ => Keeps.bind fun offset _ => Keeps.bind fun full _ =>
      Keeps.bind fun handle _ => ?_
    cases handle with
    | none => exact report_keeps
    | some handle =>
      refine Keeps.bind fun n _ => ?_
      dsimp only
      split
      · exact report_keeps
      · refine Keeps.bind fun listed done => Keeps.bind fun shown last => keeps_pure ?_
        exact (emit_pwd last).trans (listChildren_pwd done)
  | cat =>
    refine guard_keeps (redirected_keeps fun r _ => Keeps.bind fun offset _ => Keeps.bind fun full _ =>
      Keeps.bind fun handle _ => ?_)
    cases handle with
    | none => exact report_keeps
    | some handle =>
      refine Keeps.bind fun n _ => ?_
      dsimp only
      split
      · exact report_keeps
      · split
        · exact keeps_error _
        · refine Keeps.bind fun read _ => ?_
          split
          · exact Keeps.bind fun _ _ => keeps_pure rfl
          · split
            · exact keeps_pure rfl
            · exact keeps_error _

theorem resolvePath_slash (run : resolvePath pwd path = .ok full) : full.head? = some '/' := by
  rw [resolvePath] at run
  obtain ⟨copied, _, run⟩ := bind_ok run
  obtain ⟨absolute, _, run⟩ := bind_ok run
  dsimp only at run
  obtain ⟨parts, _, run⟩ := bind_ok run
  rw [copyString_ok run]
  rfl

/-- `cd` stays, or it enters what its path resolves to. -/
theorem commandCd_pwd (run : sh.commandCd args = .ok sh') : sh'.pwd = sh.pwd ∨
    resolvePath sh.pwd args = .ok sh'.pwd ∧ sh'.pwd.length < 256 := by
  rw [commandCd] at run
  split at run
  · cases run
    exact .inl rfl
  · obtain ⟨full, resolved, run⟩ := bind_ok run
    obtain ⟨handle, _, run⟩ := bind_ok run
    split at run
    · cases run
      exact .inl rfl
    · obtain ⟨n, _, run⟩ := bind_ok run
      split at run
      · cases run
        exact .inl rfl
      · obtain ⟨pwd, copied, run⟩ := bind_ok run
        cases run
        obtain rfl := copyString_ok copied
        exact .inr ⟨resolved, copyString_short copied⟩

theorem cd_good (good : GoodPwd sh.pwd) (run : sh.commandCd args = .ok sh') : GoodPwd sh'.pwd := by
  rcases commandCd_pwd run with same | ⟨resolved, short⟩
  · exact same ▸ good
  · exact ⟨resolvePath_slash resolved, short⟩

theorem command_good {command : Command} (good : GoodPwd sh.pwd) (run : command.run env sh args = .ok sh') :
    GoodPwd sh'.pwd := by
  by_cases cd : command = .cd
  · subst cd
    exact cd_good good run
  · rw [command_keeps cd sh' run]
    exact good

namespace Line

/-- The lengths under which the path copies of a line stay in their arrays. -/
def Short (sh : Shell) (line : Line) : Prop :=
  line.command.length < 64 → line.command ≠ [] →
    match commands.find? (fun entry => entry.1 = line.command) with
    | some entry => entry.2.Short line.env sh line.args
    | none => line.command = "edit".toList → ShortText sh.pwd line.args

theorem args_short (bounds : line.text.length < bufferSize) :
    ∀ text ∈ line.args, text.length < bufferSize := by
  have suffix := (List.dropWhile_suffix (l := line.text) (· ≠ ' ')).length_le
  unfold args
  split
  · exact fun text member => absurd member (Option.not_mem_none text)
  · rename_i rest
    intro text member
    rw [rest, List.length_cons] at suffix
    rw [← Option.some.inj member]
    omega

theorem fit_iff (good : GoodPwd sh.pwd) (bounds : line.text.length < bufferSize) :
    Fit (line.copies sh) ↔ line.Short sh := by
  have texts := args_short bounds
  unfold copies Short copyString
  by_cases short : line.command.length < 64
  · rw [if_pos short, imp_iff_right short]
    refine fit_guard.trans (imp_congr_right fun _ => ?_)
    cases commands.find? (fun entry => entry.1 = line.command) with
    | some entry => exact command_fit_iff entry.2 good texts
    | none =>
      by_cases edit : line.command = "edit".toList
      · simp only [if_pos edit, imp_iff_right edit]
        exact fit_resolveCopies good (firstText_short good texts)
      · simp only [if_neg edit]
        exact iff_of_true fit_nil fun same => absurd same edit
  · rw [if_neg short]
    exact iff_of_true fit_nil fun shorter => absurd shorter short

/-- A path copy that does not fit is where the line stops. -/
theorem stops (good : GoodPwd sh.pwd) (bounds : line.text.length < bufferSize) :
    Stops (line.copies sh) (sh.executeLine line) := by
  have texts := args_short bounds
  unfold copies executeLine
  refine Stops.after fun command copied => Stops.last (Stops.guard ?_)
  cases commands.find? (fun entry => entry.1 = command) with
  | some entry => exact command_stops entry.2 good texts
  | none =>
    dsimp only
    split
    · exact (resolve_stops good (firstText_short good texts)).last
    · exact stops_nil

end Line

theorem executeLine_good (good : GoodPwd sh.pwd) (run : sh.executeLine line = .ok sh') : GoodPwd sh'.pwd := by
  obtain ⟨command, _, run⟩ := bind_ok run
  obtain ⟨next, executed, run⟩ := bind_ok run
  cases run
  change GoodPwd next.pwd
  unfold executeCommand at executed
  split at executed
  · cases executed
    exact good
  · split at executed
    · exact command_good good executed
    · split at executed
      · obtain ⟨full, _, executed⟩ := bind_ok executed
        have same := textEditor_keeps next executed
        exact same ▸ good
      · cases executed
        exact good

/-- A typed line of at most 511 characters, with whatever memory and keys it finds. -/
def LineStep (sh : Shell) (line : Line) (sh' : Shell) : Prop :=
  line.text.length ≤ 511 ∧ sh.executeLine line = .ok sh'

/-- In a run of typed lines that are each short in their state, the next line keeps all its
path copies inside their arrays if and only if it is short too. -/
theorem run_pathCopies (root : Addr)
    (run : Reachable (Along LineStep fun sh line => line.Short sh) (Shell.init root) sh)
    (bounds : line.text.length ≤ 511) : (∀ c ∈ line.copies sh, c.Fits) ↔ line.Short sh := by
  have start : GoodPwd (Shell.init root).pwd := ⟨rfl, show 1 < 256 by decide⟩
  have good : GoodPwd sh.pwd :=
    run.invariant (I := fun sh => GoodPwd sh.pwd)
      (fun _ _ _ good step => executeLine_good good step.1.2) start
  exact Line.fit_iff good (Nat.lt_of_le_of_lt bounds (by decide))

/-- A line that passes the check, if it has its length and finishes. -/
def finishLine (check : Shell → Line → Bool) (sh : Shell) (line : Line) : Option Shell :=
  if line.text.length ≤ 511 ∧ check sh line = true then (sh.executeLine line).toOption else none

theorem finishLine_step {check : Shell → Line → Bool} (done : finishLine check sh line = some sh') :
    LineStep sh line sh' ∧ check sh line = true := by
  unfold finishLine at done
  split at done
  · rename_i checks
    exact ⟨⟨checks.1, ok_of_toOption done⟩, checks.2⟩
  · cases done

/-- A line with a free address for a new node. -/
def typed (fresh : Addr) (text : CString) : Line := ⟨text, ⟨fresh, fun _ _ => 0, fun _ => 0⟩, []⟩

instance (sh : Shell) (line : Line) : Decidable (Fit (line.copies sh)) :=
  inferInstanceAs (Decidable (∀ c ∈ line.copies sh, c.Fits))

/-- A line, if it has its length, its copies fit and it finishes. -/
def typeFitting (sh : Shell) (line : Line) : Option Shell :=
  if line.text.length ≤ 511 ∧ sh.pwd.head? = some '/' ∧ sh.pwd.length < 256 ∧ Fit (line.copies sh) then
    (sh.executeLine line).toOption
  else none

theorem typeFitting_step (done : typeFitting sh line = some sh') :
    Along LineStep (fun sh line => line.Short sh) sh line sh' := by
  unfold typeFitting at done
  split at done
  · rename_i checks
    obtain ⟨bounds, slash, short, fit⟩ := checks
    exact ⟨⟨bounds, ok_of_toOption done⟩,
      (Line.fit_iff ⟨slash, short⟩ (Nat.lt_of_le_of_lt bounds (by decide))).mp fit⟩
  · cases done

def makeFolder : List Line := [typed 1 "mkdir a".toList, typed 2 "cd a".toList]

/-- A folder, and a file in it by a relative path. -/
theorem run_pathCopies_touch : ∃ sh, Run LineStep (Shell.init 0) makeFolder sh ∧ sh.pwd = "/a".toList ∧
    (typed 2 "touch b".toList).Short sh := by
  have tested : (makeFolder.foldlM typeFitting (Shell.init 0)).any (fun sh => sh.pwd = "/a".toList ∧
      Fit ((typed 2 "touch b".toList).copies sh)) = true := by decide +kernel
  obtain ⟨sh, run, inside, fit⟩ := Run.of_tested (fun _ _ _ => typeFitting_step) tested
  refine ⟨sh, run.mono fun _ _ _ step => step.1, inside, ?_⟩
  exact (run_pathCopies 0 ⟨_, run⟩ (by decide)).mp fit

/-- A parent path of 257 characters goes past the end of `parent_path`. -/
theorem touch_overflows : (typed 1 ("touch /".toList ++ List.replicate 256 'a' ++ "/x".toList)).text.length ≤ 511 ∧
    ¬ ∀ c ∈ (typed 1 ("touch /".toList ++ List.replicate 256 'a' ++ "/x".toList)).copies (Shell.init 0), c.Fits := by
  decide +kernel

end Laomb.Fshell
