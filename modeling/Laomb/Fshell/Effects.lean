import Laomb.Fshell.Commands

/-! What the commands of the shell do to the tree, said once for each of them. Those that print write
only to the file that they are redirected to. -/
namespace Laomb.Fshell
open VFS

namespace Shell

variable {env : Env} {sh sh' : Shell} {args cut : Option CString} {output : Ptr} {mode : WriteMode}

/-- `create` has been called for a file at a resolved path that was not found. -/
def CreatesFile (env : Env) (sh sh' : Shell) : Prop :=
  ∃ args full err, resolvePath sh.pwd args = .ok full ∧ sh.vfs.openPath full = .ok none ∧
    sh.vfs.create full .file env.fresh = .ok (err, sh'.vfs)

theorem handleRedirection_vfs (run : sh.handleRedirection env args = .ok (output, mode, cut, sh')) :
    sh'.vfs = sh.vfs ∨ CreatesFile env sh sh' := by
  rw [handleRedirection] at run
  split at run
  · cases run
    exact .inl rfl
  · rename_i target _
    obtain ⟨full, resolved, run⟩ := bind_ok run
    obtain ⟨found, opened, run⟩ := bind_ok run
    split at run
    · cases run
      exact .inl rfl
    · obtain ⟨⟨err, vfs⟩, created, run⟩ := bind_ok run
      dsimp only at run
      split at run
      · cases run
        exact .inr ⟨some target, full, err, resolved, opened, created⟩
      · obtain ⟨handle, _, run⟩ := bind_ok run
        cases run
        exact .inr ⟨some target, full, err, resolved, opened, created⟩

theorem commandTouch_vfs (run : sh.commandTouch env args = .ok sh') :
    sh'.vfs = sh.vfs ∨ CreatesFile env sh sh' := by
  rw [commandTouch] at run
  split at run
  · cases run
    exact .inl rfl
  · obtain ⟨full, resolved, run⟩ := bind_ok run
    obtain ⟨found, opened, run⟩ := bind_ok run
    split at run
    · cases run
      exact .inl rfl
    · obtain ⟨⟨err, vfs⟩, created, run⟩ := bind_ok run
      refine .inr ⟨args, full, err, resolved, opened, ?_⟩
      cases err <;> cases run <;> exact created

theorem commandMkdir_vfs (run : sh.commandMkdir env args = .ok sh') :
    sh'.vfs = sh.vfs ∨ ∃ full err, args.getD [] ≠ [] ∧ resolvePath sh.pwd args = .ok full ∧
      sh.vfs.create full .folder env.fresh = .ok (err, sh'.vfs) := by
  rw [commandMkdir] at run
  split at run
  · cases run
    exact .inl rfl
  · rename_i given
    obtain ⟨full, resolved, run⟩ := bind_ok run
    obtain ⟨⟨err, vfs⟩, created, run⟩ := bind_ok run
    refine .inr ⟨full, err, given, resolved, ?_⟩
    cases err <;> cases run <;> exact created

theorem commandRm_vfs (run : sh.commandRm args = .ok sh') :
    sh'.vfs = sh.vfs ∨ ∃ a err, sh.vfs.remove (some a) = .ok (err, sh'.vfs) := by
  rw [commandRm] at run
  split at run
  · cases run
    exact .inl rfl
  · obtain ⟨full, _, run⟩ := bind_ok run
    obtain ⟨found, _, run⟩ := bind_ok run
    split at run
    · cases run
      exact .inl rfl
    · obtain ⟨n, _, run⟩ := bind_ok run
      split at run
      · cases run
        exact .inl rfl
      · obtain ⟨⟨err, vfs⟩, removed, run⟩ := bind_ok run
        refine .inr ⟨_, err, removed.trans ?_⟩
        dsimp only at run
        split at run <;> cases run <;> rfl

theorem commandRmdir_vfs (run : sh.commandRmdir args = .ok sh') :
    sh'.vfs = sh.vfs ∨ ∃ a err, sh.vfs.remove (some a) = .ok (err, sh'.vfs) := by
  rw [commandRmdir] at run
  split at run
  · cases run
    exact .inl rfl
  · obtain ⟨full, _, run⟩ := bind_ok run
    obtain ⟨found, _, run⟩ := bind_ok run
    split at run
    · cases run
      exact .inl rfl
    · obtain ⟨n, _, run⟩ := bind_ok run
      split at run
      · cases run
        exact .inl rfl
      · split at run
        · cases run
          exact .inl rfl
        · obtain ⟨⟨err, vfs⟩, removed, run⟩ := bind_ok run
          refine .inr ⟨_, err, removed.trans ?_⟩
          dsimp only at run
          split at run <;> cases run <;> rfl

theorem commandCd_vfs (run : sh.commandCd args = .ok sh') : sh'.vfs = sh.vfs := by
  rw [commandCd] at run
  split at run
  · cases run
    rfl
  · obtain ⟨full, _, run⟩ := bind_ok run
    obtain ⟨found, _, run⟩ := bind_ok run
    split at run
    · cases run
      rfl
    · obtain ⟨n, _, run⟩ := bind_ok run
      split at run
      · cases run
        rfl
      · obtain ⟨copied, _, run⟩ := bind_ok run
        cases run
        rfl

/-! ## What goes to the output handle -/

/-- The file at the handle has been written, any number of times, and nothing else is changed. -/
inductive Writes (output : Ptr) : Vfs → Vfs → Prop where
  | refl (s : Vfs) : Writes output s s
  | write {s s₁ s₂ : Vfs} {handle : Addr} {start size : Nat} {buffer : List Byte} {junk : Nat → Byte}
      {err : Err} (opened : output = some handle)
      (written : s.write handle start size buffer junk = .ok (err, s₁)) (rest : Writes output s₁ s₂) :
      Writes output s s₂

theorem Writes.trans {s s₁ s₂ : Vfs} (first : Writes output s s₁) (second : Writes output s₁ s₂) :
    Writes output s s₂ := by
  induction first with
  | refl => exact second
  | write opened written _ ih => exact .write opened written (ih second)

theorem Writes.none_eq {s s' : Vfs} (writes : Writes none s s') : s' = s := by
  cases writes with
  | refl => rfl
  | write opened => cases opened

variable {offset offset' size : Nat} {text : CString} {texts : List CString}

theorem emit_writes {junk : Nat → Byte} (run : sh.emit output offset text junk = .ok (sh', offset')) :
    Writes output sh.vfs sh'.vfs := by
  cases output with
  | none =>
    cases run
    exact .refl _
  | some handle =>
    obtain ⟨⟨err, vfs⟩, written, run⟩ := bind_ok run
    cases run
    exact .write rfl written (.refl _)

theorem emitAll_writes {junk : Nat → Nat → Byte}
    (run : emitAll junk sh output offset texts = .ok (sh', offset')) : Writes output sh.vfs sh'.vfs := by
  induction texts generalizing sh offset with
  | nil =>
    cases run
    exact .refl _
  | cons text texts ih =>
    obtain ⟨⟨next, moved⟩, emitted, run⟩ := bind_ok run
    exact (emit_writes emitted).trans (ih run)

theorem report_writes (run : report env sh output offset size text = .ok sh') :
    Writes output sh.vfs sh'.vfs := by
  cases output with
  | none =>
    cases run
    exact .refl _
  | some handle =>
    obtain ⟨⟨err, vfs⟩, written, run⟩ := bind_ok run
    cases run
    exact .write rfl written (.refl _)

theorem listChildren_writes {fuel : Nat} {child : Ptr}
    (run : listChildren env output fuel sh offset child = .ok (sh', offset')) :
    Writes output sh.vfs sh'.vfs := by
  induction fuel generalizing sh offset child with
  | zero => cases run
  | succ fuel ih =>
    cases child with
    | none =>
      cases run
      exact .refl _
    | some child =>
      rw [listChildren] at run
      obtain ⟨n, _, run⟩ := bind_ok run
      split at run
      · cases run
      · obtain ⟨⟨next, moved⟩, emitted, run⟩ := bind_ok run
        obtain ⟨m, _, run⟩ := bind_ok run
        exact (emitAll_writes emitted).trans (ih run)

/-- The command has opened what it is redirected to, and then written there only. -/
def Redirected (env : Env) (sh : Shell) (args : Option CString) (sh' : Shell) : Prop :=
  ∃ output mode cut sh₁, sh.handleRedirection env args = .ok (output, mode, cut, sh₁) ∧
    Writes output sh₁.vfs sh'.vfs

theorem commandHelp_writes (run : sh.commandHelp env args = .ok sh') : Redirected env sh args sh' := by
  obtain ⟨⟨output, mode, cut, sh₁⟩, opened, run⟩ := bind_ok run
  obtain ⟨offset, _, run⟩ := bind_ok run
  obtain ⟨⟨sh₂, _⟩, emitted, run⟩ := bind_ok run
  cases run
  exact ⟨output, mode, cut, sh₁, opened, emitAll_writes emitted⟩

theorem commandEcho_writes (run : sh.commandEcho env args = .ok sh') :
    sh'.vfs = sh.vfs ∨ Redirected env sh args sh' := by
  rw [commandEcho] at run
  split at run
  · cases run
    exact .inl rfl
  · obtain ⟨⟨output, mode, cut, sh₁⟩, opened, run⟩ := bind_ok run
    obtain ⟨offset, _, run⟩ := bind_ok run
    obtain ⟨⟨sh₂, _⟩, emitted, run⟩ := bind_ok run
    cases run
    exact .inr ⟨output, mode, cut, sh₁, opened, emitAll_writes emitted⟩

theorem commandLs_writes (run : sh.commandLs env args = .ok sh') : Redirected env sh args sh' := by
  obtain ⟨⟨output, mode, cut, sh₁⟩, opened, run⟩ := bind_ok run
  refine ⟨output, mode, cut, sh₁, opened, ?_⟩
  obtain ⟨offset, _, run⟩ := bind_ok run
  obtain ⟨full, _, run⟩ := bind_ok run
  obtain ⟨found, _, run⟩ := bind_ok run
  split at run
  · exact report_writes run
  · obtain ⟨n, _, run⟩ := bind_ok run
    split at run
    · exact report_writes run
    · obtain ⟨⟨sh₂, offset₂⟩, listed, run⟩ := bind_ok run
      obtain ⟨⟨sh₃, offset₃⟩, emitted, run⟩ := bind_ok run
      cases run
      exact (listChildren_writes listed).trans (emit_writes emitted)

theorem commandCat_writes (run : sh.commandCat env args = .ok sh') :
    sh'.vfs = sh.vfs ∨ Redirected env sh args sh' := by
  rw [commandCat] at run
  split at run
  · cases run
    exact .inl rfl
  · obtain ⟨⟨output, mode, cut, sh₁⟩, opened, run⟩ := bind_ok run
    refine .inr ⟨output, mode, cut, sh₁, opened, ?_⟩
    obtain ⟨offset, _, run⟩ := bind_ok run
    obtain ⟨full, _, run⟩ := bind_ok run
    obtain ⟨found, _, run⟩ := bind_ok run
    split at run
    · exact report_writes run
    · obtain ⟨n, _, run⟩ := bind_ok run
      split at run
      · exact report_writes run
      · split at run
        · cases run
        · obtain ⟨⟨err, bytes⟩, _, run⟩ := bind_ok run
          dsimp only at run
          split at run
          · obtain ⟨⟨err, vfs⟩, written, run⟩ := bind_ok run
            cases run
            exact .write rfl written (.refl _)
          · split at run
            · cases run
              exact .refl _
            · cases run

end Shell
end Laomb.Fshell
