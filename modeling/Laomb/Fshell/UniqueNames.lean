import Laomb.Fshell.Effects
import Laomb.VFS.Tidy

/-! Names identify files over runs of shell commands. `touch` and output
redirection open a path before they create it; `mkdir` does not. -/
namespace Laomb.Fshell
open VFS Transition Fields Vfs

variable {env : Env} {sh sh' : Shell} {args : Option CString} {root : Addr} {full pwd : CString}
  {parts components rest : List CString} {output : Ptr} {offset offset' : Nat}

theorem join_render (nonempty : parts ≠ []) : '/' :: joinComponents parts = render parts := by
  induction parts with
  | nil => exact absurd rfl nonempty
  | cons c parts ih =>
    cases parts with
    | nil => simp [joinComponents, render, join]
    | cons d parts =>
      have more := ih (List.cons_ne_nil d parts)
      simp only [joinComponents, render, join, List.flatMap_cons, List.cons_append] at more ⊢
      rw [more]

theorem pushComponent_good {token : CString} (good : ∀ c ∈ parts, Component c) (component : Component token) :
    ∀ c ∈ pushComponent parts token, Component c := by
  intro c member
  unfold pushComponent at member
  split at member
  · exact good c member
  · split at member
    · exact good c (List.dropLast_subset _ member)
    · rcases List.mem_append.mp member with old | new
      · exact good c old
      · exact List.mem_singleton.mp new ▸ component

/-- The loop over the tokens keeps components that a path can spell. -/
theorem resolveLoop_good (fuel : Nat) (str : Option CString) (good : ∀ c ∈ parts, Component c)
    (run : resolveLoop fuel (strtok str).1 (strtok str).2 parts = .ok components) :
    ∀ c ∈ components, Component c := by
  induction fuel generalizing str parts with
  | zero =>
    rcases strtok_components str with ⟨_, last⟩ | ⟨token, last, next, _⟩
    · rw [last] at run
      cases run
      exact good
    · rw [next] at run
      cases run
  | succ fuel ih =>
    rcases strtok_components str with ⟨_, last⟩ | ⟨token, last, next, split, _⟩
    · rw [last] at run
      cases run
      exact good
    · rw [next] at run
      have component : Component token :=
        components_good (str.getD []) token (by rw [split]; exact List.mem_cons_self)
      exact ih last (pushComponent_good good component) run

theorem copyString_ok {size : Nat} {text text' : CString} (run : copyString size text = .ok text') :
    text' = text := by
  rw [copyString] at run
  split at run
  · cases run
    rfl
  · cases run

theorem copyString_short {size : Nat} {text text' : CString} (run : copyString size text = .ok text') :
    text'.length < size := by
  have same := copyString_ok run
  rw [copyString] at run
  split at run
  · rename_i short
    exact same ▸ short
  · cases run

/-- `resolve_path` returns "/" or a canonical path. -/
theorem resolvePath_canonical (run : resolvePath pwd args = .ok full) :
    full = ['/'] ∨ ∃ parts, Named parts ∧ full = render parts := by
  rw [resolvePath] at run
  obtain ⟨copied, _, run⟩ := bind_ok run
  obtain ⟨absolute, _, run⟩ := bind_ok run
  dsimp only at run
  obtain ⟨parts, looped, run⟩ := bind_ok run
  have good := resolveLoop_good _ (some absolute) (fun c member => absurd member List.not_mem_nil) looped
  rw [copyString_ok run]
  by_cases empty : parts = []
  · exact .inl (by rw [empty]; rfl)
  · exact .inr ⟨parts, ⟨empty, good⟩, join_render empty⟩

/-- Some assignment of children makes the tree tidy. -/
def TidyAt (root : Addr) (s : Vfs) : Prop := ∃ kids, Tidy s kids root

namespace TidyAt
variable {s s' : Vfs}

/-- Creating a resolved path that was not found. -/
theorem create {type : NodeType} {err : Err} {a : Addr} (tidy : TidyAt root s)
    (resolved : resolvePath pwd args = .ok full) (absent : s.openPath full = .ok none) (free : s.Fresh a)
    (run : s.create full type a = .ok (err, s')) : TidyAt root s' := by
  obtain ⟨kids, tidy⟩ := tidy
  rcases resolvePath_canonical resolved with rfl | ⟨parts, named, rfl⟩
  · rw [openPath, traverse_eq tidy.rooted (by simp)] at absent
    cases absent
  · exact tidy.create named absent free run

theorem remove {err : Err} {c : Addr} (tidy : TidyAt root s) (run : s.remove (some c) = .ok (err, s')) :
    TidyAt root s' := by
  obtain ⟨kids, tidy⟩ := tidy
  exact tidy.remove run

theorem write {a : Addr} {start size : Nat} {buffer : List Byte} {junk : Nat → Byte} {err : Err}
    (tidy : TidyAt root s) (run : s.write a start size buffer junk = .ok (err, s')) : TidyAt root s' := by
  obtain ⟨kids, tidy⟩ := tidy
  exact ⟨kids, tidy.of_shape (write_shape run)⟩

end TidyAt

namespace Shell

theorem handleRedirection_tidy {mode : WriteMode} {args' : Option CString} (tidy : TidyAt root sh.vfs)
    (free : sh.vfs.Fresh env.fresh) (run : handleRedirection env sh args = .ok (output, mode, args', sh')) :
    TidyAt root sh'.vfs := by
  rcases handleRedirection_vfs run with same | ⟨args, full, err, resolved, absent, created⟩
  · rwa [same]
  · exact tidy.create resolved absent free created

theorem Writes.tidy {s s' : Vfs} (writes : Writes output s s') (tidy : TidyAt root s) : TidyAt root s' := by
  induction writes with
  | refl => exact tidy
  | write _ written _ ih => exact ih (tidy.write written)

theorem Redirected.tidy (redirected : Redirected env sh args sh') (tidy : TidyAt root sh.vfs)
    (free : sh.vfs.Fresh env.fresh) : TidyAt root sh'.vfs := by
  obtain ⟨output, mode, cut, sh₁, opened, writes⟩ := redirected
  exact writes.tidy (handleRedirection_tidy tidy free opened)

theorem commandTouch_tidy (tidy : TidyAt root sh.vfs) (free : sh.vfs.Fresh env.fresh)
    (run : sh.commandTouch env args = .ok sh') : TidyAt root sh'.vfs := by
  rcases commandTouch_vfs run with same | ⟨args, full, err, resolved, absent, created⟩
  · rwa [same]
  · exact tidy.create resolved absent free created

theorem commandRm_tidy (tidy : TidyAt root sh.vfs) (run : sh.commandRm args = .ok sh') :
    TidyAt root sh'.vfs := by
  rcases commandRm_vfs run with same | ⟨a, err, removed⟩
  · rwa [same]
  · exact tidy.remove removed

theorem commandRmdir_tidy (tidy : TidyAt root sh.vfs) (run : sh.commandRmdir args = .ok sh') :
    TidyAt root sh'.vfs := by
  rcases commandRmdir_vfs run with same | ⟨a, err, removed⟩
  · rwa [same]
  · exact tidy.remove removed

theorem commandMkdir_tidy (tidy : TidyAt root sh.vfs) (free : sh.vfs.Fresh env.fresh)
    (unused : ∀ full, args.getD [] ≠ [] → resolvePath sh.pwd args = .ok full →
      sh.vfs.openPath full = .ok none)
    (run : sh.commandMkdir env args = .ok sh') : TidyAt root sh'.vfs := by
  rcases commandMkdir_vfs run with same | ⟨full, err, given, resolved, created⟩
  · rwa [same]
  · exact tidy.create resolved (unused full given resolved) free created

end Shell

/-- One command line, with whatever memory it finds. -/
def ShellStep (sh : Shell) (line : Command × Option CString) (sh' : Shell) : Prop :=
  ∃ env, sh.vfs.Fresh env.fresh ∧ line.1.run env sh line.2 = .ok sh'

/-- `open` does not find the path a `mkdir` is about to create. -/
def UnusedMkdir (sh : Shell) (line : Command × Option CString) : Prop :=
  line.1 = .mkdir → ∀ full, line.2.getD [] ≠ [] → resolvePath sh.pwd line.2 = .ok full →
    sh.vfs.openPath full = .ok none

theorem step_tidy {line : Command × Option CString} (tidy : TidyAt root sh.vfs)
    (step : Along ShellStep UnusedMkdir sh line sh') : TidyAt root sh'.vfs := by
  obtain ⟨⟨env, free, run⟩, unused⟩ := step
  obtain ⟨command, args⟩ := line
  cases command with
  | help => exact (Shell.commandHelp_writes run).tidy tidy free
  | echo =>
    rcases Shell.commandEcho_writes run with same | redirected
    · rwa [same]
    · exact redirected.tidy tidy free
  | clear =>
    cases run
    exact tidy
  | ls => exact (Shell.commandLs_writes run).tidy tidy free
  | cat =>
    rcases Shell.commandCat_writes run with same | redirected
    · rwa [same]
    · exact redirected.tidy tidy free
  | mkdir => exact Shell.commandMkdir_tidy tidy free (unused rfl) run
  | cd =>
    rw [Shell.commandCd_vfs run]
    exact tidy
  | touch => exact Shell.commandTouch_tidy tidy free run
  | rm => exact Shell.commandRm_tidy tidy run
  | rmdir => exact Shell.commandRmdir_tidy tidy run

/-- Names identify files in every state of a run in which each `mkdir` is
given a path that `open` does not find. -/
theorem run_namesIdentify (root : Addr)
    (reached : Reachable (Along ShellStep UnusedMkdir) (Shell.init root) sh) : NamesIdentify sh.vfs := by
  have tidy : TidyAt root sh.vfs :=
    reached.invariant (I := fun sh => TidyAt root sh.vfs) (fun _ _ _ tidy step => step_tidy tidy step)
      ⟨_, .boot root⟩
  obtain ⟨kids, tidy⟩ := tidy
  exact tidy.namesIdentify

/-- One command line, if it passes the check and finishes, with the first of a
few free addresses for a new node. -/
def typeLine (check : Shell → Command × Option CString → Bool) (sh : Shell)
    (line : Command × Option CString) : Option Shell := do
  let fresh ← ([1, 2, 3, 4] : List Addr).find? fun a => sh.vfs.Fresh a
  if check sh line then (line.1.run ⟨fresh, fun _ _ => 0, fun _ => 0⟩ sh line.2).toOption else none

theorem typeLine_step {check : Shell → Command × Option CString → Bool} {line : Command × Option CString}
    (typed : typeLine check sh line = some sh') : ShellStep sh line sh' ∧ check sh line = true := by
  obtain ⟨fresh, found, typed⟩ := Option.bind_eq_some_iff.mp typed
  have free : sh.vfs.Fresh fresh := by simpa using List.find?_some found
  split at typed
  · rename_i passed
    exact ⟨⟨⟨fresh, fun _ _ => 0, fun _ => 0⟩, free, ok_of_toOption typed⟩, passed⟩
  · cases typed

/-- A test for `UnusedMkdir`. -/
def unusedMkdir (sh : Shell) (line : Command × Option CString) : Bool :=
  line.1 ≠ .mkdir ∨ (resolvePath sh.pwd line.2).bind sh.vfs.openPath = .ok none

theorem unusedMkdir_sound {line : Command × Option CString} (passed : unusedMkdir sh line = true) :
    UnusedMkdir sh line := by
  intro command full _ resolved
  rcases of_decide_eq_true passed with other | absent
  · exact absurd command other
  · rwa [resolved] at absent

/-- A folder, a file written by redirection, one touched beside it, and one removed again. -/
def session : List (Command × Option CString) :=
  [(.mkdir, some "a".toList), (.cd, some "a".toList), (.echo, some "hi > f".toList),
    (.touch, some "g".toList), (.rm, some "f".toList)]

theorem run_namesIdentify_session : ∃ sh, Run ShellStep (Shell.init 0) session sh ∧ NamesIdentify sh.vfs := by
  have tested : (session.foldlM (typeLine unusedMkdir) (Shell.init 0)).any (fun _ => True) = true := by
    decide +kernel
  obtain ⟨sh, run, _⟩ : ∃ sh, Run (Along ShellStep UnusedMkdir) (Shell.init 0) session sh ∧ True := by
    refine Run.of_tested (fun sh line next call => ?_) tested
    obtain ⟨step, passed⟩ := typeLine_step call
    exact ⟨step, unusedMkdir_sound passed⟩
  exact ⟨sh, run.mono fun _ _ _ step => step.1, run_namesIdentify 0 ⟨_, run⟩⟩

/-- `mkdir a` twice makes two folders of the same name. -/
def twice : List (Command × Option CString) := [(.mkdir, some "a".toList), (.mkdir, some "a".toList)]

theorem mkdir_twice_duplicates : ∃ sh, Run ShellStep (Shell.init 0) twice sh ∧ ¬ NamesIdentify sh.vfs := by
  have tested : (twice.foldlM (typeLine fun _ _ => true) (Shell.init 0)).any (fun sh =>
      (sh.vfs.heap 0).map Node.children = some (some 1) ∧ sh.vfs.nextOf 1 = some (some 2) ∧
      sh.vfs.nextOf 2 = some none ∧ sh.vfs.nameOf 1 = sh.vfs.nameOf 2) = true := by decide +kernel
  have sound : ∀ sh line next, typeLine (fun _ _ => true) sh line = some next → ShellStep sh line next :=
    fun _ _ _ call => (typeLine_step call).1
  obtain ⟨sh, run, top, first, second, same⟩ := Run.of_tested sound tested
  refine ⟨sh, run, fun names => ?_⟩
  obtain ⟨n, found, children⟩ := Option.map_eq_some_iff.mp top
  have list : sh.vfs.ChildList 0 [1, 2] := ⟨n, found, children ▸ .cons first (.cons second .nil)⟩
  have distinct := names.distinct 0 [1, 2] list
  simp [same] at distinct

end Laomb.Fshell
