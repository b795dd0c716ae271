import Laomb.Fshell.Effects
import Laomb.Fshell.Redirection
import Laomb.VFS.EveryFile

/-! What the commands write into a redirected file, and what the file is afterwards. -/
namespace Laomb.Fshell
open VFS Word Vfs

/-- Where a command starts to write. -/
def WriteMode.start (mode : WriteMode) (n : Node) : Nat :=
  match mode with
  | .append => n.size
  | .truncate => 0

/-- `m` is the file `n` with `text` at `offset`: what is in front of the text stays, and
what lies behind it is cleared. -/
structure Extends (n : Node) (offset : Nat) (text : List Byte) (m : Node) : Prop where
  filled : m.Filled
  size : m.size = max n.size (offset + text.length)
  content : m.content = n.content.take offset ++ text ++ List.replicate (n.size - (offset + text.length)) 0

/-- If `a` is a file it is extended, and otherwise nothing happens. -/
def Wrote (s : Vfs) (a : Addr) (offset : Nat) (text : List Byte) (s' : Vfs) : Prop :=
  (∃ n m, s.heap a = some n ∧ n.type = .file ∧ Extends n offset text m ∧ s' = s.store a m) ∨
    (∃ n, s.heap a = some n ∧ n.type ≠ .file) ∧ s' = s

/-- A write at `offset` starts in the file `a`, or at its end. -/
def StartsIn (s : Vfs) (a : Addr) (offset : Nat) : Prop :=
  ∀ n, s.heap a = some n → n.type = .file → offset ≤ n.size

variable {s s' s'' : Vfs} {sh sh' sh₁ : Shell} {a : Addr} {n m k : Node} {offset offset' size : Nat}
  {x y text : List Byte} {chunks : List CString} {junk : Nat → Byte} {err : Err} {env : Env}
  {args cut : Option CString} {mode : WriteMode}

theorem content_length (filled : n.Filled) : n.content.length = n.size := by
  rw [filled.content_eq, filled.length]

theorem Extends.trans (filled : n.Filled) (start : offset ≤ n.size) (first : Extends n offset x m)
    (second : Extends m (offset + x.length) y k) : Extends n offset (x ++ y) k := by
  have grown := first.size
  have front : (n.content.take offset ++ x).length = offset + x.length := by
    rw [List.length_append, List.length_take, content_length filled, Nat.min_eq_left start]
  refine ⟨second.filled, ?_, ?_⟩
  · rw [second.size, List.length_append]
    omega
  · have rest : m.size - (offset + x.length + y.length) = n.size - (offset + (x ++ y).length) := by
      rw [List.length_append]
      omega
    rw [second.content, first.content, rest, ← front, List.take_left,
      List.append_assoc (n.content.take offset)]

namespace Wrote

theorem trans (filled : EveryFile Node.Filled s) (start : StartsIn s a offset) (first : Wrote s a offset x s')
    (second : Wrote s' a (offset + x.length) y s'') : Wrote s a offset (x ++ y) s'' := by
  rcases first with ⟨n, m, found, type, extended, rfl⟩ | ⟨⟨n, found, other⟩, rfl⟩
  · have again : (s.store a m).heap a = some m := Function.update_self ..
    rcases second with ⟨m', k, found', _, extended', rfl⟩ | ⟨⟨m', found', other⟩, _⟩
    · cases Option.some.inj (again.symm.trans found')
      refine .inl
        ⟨n, k, found, type, extended.trans (filled a n found type) (start n found type) extended', ?_⟩
      simp only [store, Function.update_idem]
    · cases Option.some.inj (again.symm.trans found')
      exact absurd extended.filled.type other
  · rcases second with ⟨m', k, found', type, _⟩ | ⟨_, rfl⟩
    · cases Option.some.inj (found.symm.trans found')
      exact absurd type other
    · exact .inr ⟨⟨n, found, other⟩, rfl⟩

theorem filled (all : EveryFile Node.Filled s) (wrote : Wrote s a offset text s') :
    EveryFile Node.Filled s' := by
  rcases wrote with ⟨n, m, _, _, extended, rfl⟩ | ⟨_, rfl⟩
  · exact all.store fun _ => extended.filled
  · exact all

theorem startsIn (wrote : Wrote s a offset text s') : StartsIn s' a (offset + text.length) := by
  intro k found type
  rcases wrote with ⟨n, m, _, _, extended, rfl⟩ | ⟨⟨n, found', other⟩, rfl⟩
  · rw [store_heap, Function.update_self] at found
    cases found
    have grown := extended.size
    omega
  · cases Option.some.inj (found.symm.trans found')
    exact absurd type other

end Wrote

theorem write_wrote (filled : EveryFile Node.Filled s) (start : StartsIn s a offset)
    (word : offset + text.length < 2 ^ 32) (run : s.write a offset text.length text junk = .ok (err, s')) :
    Wrote s a offset text s' := by
  cases found : s.heap a with
  | none => simp [write, load_dead found, bind, Except.bind] at run
  | some n =>
    by_cases type : n.type = .file
    · have old := filled a n found type
      obtain ⟨m, made, filled', size, content⟩ := n.written_content text junk old (start n found type) word
      rw [write_eq found type old.ops, made] at run
      cases run
      exact .inl ⟨n, m, found, type, ⟨filled', size, content⟩, rfl⟩
    · rcases write_cases run with rfl | ⟨m, _, found', type', _⟩
      · exact .inr ⟨⟨n, found, type⟩, rfl⟩
      · cases Option.some.inj (found.symm.trans found')
        exact absurd type' type

/-- `ramfs_write` looks at the first `size` bytes of its source only. -/
theorem write_front (fits : size ≤ text.length) :
    s.write a offset size text junk = s.write a offset (text.take size).length (text.take size) junk := by
  have length : (text.take size).length = size := by rw [List.length_take, Nat.min_eq_left fits]
  have same : ∀ n : Node, n.written offset size text junk = n.written offset size (text.take size) junk := by
    intro n
    simp only [Node.written, List.take_take, Nat.min_self]
  rw [length]
  unfold write ramfsWrite
  simp only [List.take_take, Nat.min_self]

namespace Shell

theorem emitAll_wrote {junk : Nat → Nat → Byte} (filled : EveryFile Node.Filled sh.vfs)
    (start : StartsIn sh.vfs a offset) (word : offset + (joined chunks).length < 2 ^ 32)
    (nonempty : chunks ≠ []) (run : sh.emitAll junk (some a) offset chunks = .ok (sh', offset')) :
    Wrote sh.vfs a offset (joined chunks) sh'.vfs := by
  induction chunks generalizing sh offset with
  | nil => exact absurd rfl nonempty
  | cons text rest ih =>
    obtain ⟨⟨sh₁, offset₁⟩, emitted, run⟩ := bind_ok run
    obtain ⟨⟨err, vfs⟩, written, emitted⟩ := bind_ok emitted
    cases emitted
    rw [joined_cons, List.length_append, bytesOf_length] at word
    rw [u32_of_lt (by omega), ← bytesOf_length text] at written
    have wrote := write_wrote filled start (by rw [bytesOf_length]; omega) written
    rw [joined_cons]
    cases rest with
    | nil =>
      cases run
      rw [show joined [] = [] from rfl, List.append_nil]
      exact wrote
    | cons next rest =>
      have moved := wrote.startsIn
      rw [bytesOf_length] at moved
      have later := @ih (sh.setVfs vfs) _ (wrote.filled filled) moved (by omega) (List.cons_ne_nil _ _) run
      rw [← bytesOf_length text] at later
      exact wrote.trans filled start later

theorem emitAll_other {junk : Nat → Nat → Byte} (found : sh.vfs.heap a = some n) (other : n.type ≠ .file)
    (run : sh.emitAll junk (some a) offset chunks = .ok (sh', offset')) : sh'.vfs = sh.vfs := by
  induction chunks generalizing sh offset with
  | nil =>
    cases run
    rfl
  | cons text rest ih =>
    obtain ⟨⟨sh₁, offset₁⟩, emitted, run⟩ := bind_ok run
    obtain ⟨⟨err, vfs⟩, written, emitted⟩ := bind_ok emitted
    cases emitted
    rcases write_cases written with same | ⟨m, _, found', type, _⟩
    · rw [same] at run
      exact @ih (sh.setVfs sh.vfs) _ found run
    · cases Option.some.inj (found.symm.trans found')
      exact absurd type other

theorem startOffset_start {output : Ptr} (here : output = some a) (found : sh.vfs.heap a = some n)
    (run : sh.startOffset mode output = .ok offset) : offset = mode.start n := by
  subst here
  cases mode with
  | truncate =>
    cases run
    rfl
  | append =>
    rw [startOffset, load_eq found] at run
    cases run
    rfl

end Shell

/-- The text ends below 4 GiB if it goes into a file. -/
def Ends (s : Vfs) (a : Addr) (mode : WriteMode) (text : List Byte) : Prop :=
  ∀ n, s.heap a = some n → n.type = .file → mode.start n + text.length < 2 ^ 32

/-- The text is written where the mode says. -/
def Received (s : Vfs) (a : Addr) (mode : WriteMode) (text : List Byte) (s' : Vfs) : Prop :=
  ∃ n, s.heap a = some n ∧ Wrote s a (mode.start n) text s'

theorem start_startsIn (mode : WriteMode) (found : s.heap a = some n) : StartsIn s a (mode.start n) := by
  intro m found' _
  cases Option.some.inj (found.symm.trans found')
  cases mode with
  | truncate => exact Nat.zero_le _
  | append => exact Nat.le_refl _

theorem redirect_received {junk : Nat → Nat → Byte} (filled : EveryFile Node.Filled sh.vfs)
    (ends : Ends sh.vfs a mode (joined chunks)) (nonempty : chunks ≠ [])
    (run : redirect junk sh mode a chunks = .ok sh') : Received sh.vfs a mode (joined chunks) sh'.vfs := by
  obtain ⟨offset, started, run⟩ := bind_ok run
  obtain ⟨⟨sh₁, _⟩, emitted, run⟩ := bind_ok run
  cases run
  cases found : sh.vfs.heap a with
  | none =>
    obtain ⟨text, rest, rfl⟩ := List.exists_cons_of_ne_nil nonempty
    simp [Shell.emitAll, Shell.emit, write, load_dead found, bind, Except.bind] at emitted
  | some n =>
    have start := Shell.startOffset_start rfl found started
    subst start
    refine ⟨n, found, ?_⟩
    by_cases type : n.type = .file
    · exact Shell.emitAll_wrote filled (start_startsIn mode found) (ends n found type) nonempty emitted
    · exact .inr ⟨⟨n, found, type⟩, Shell.emitAll_other found type emitted⟩

/-- One write of the first `size` bytes of `source`. -/
theorem single_received {source : List Byte} {output : Ptr} (here : output = some a)
    (filled : EveryFile Node.Filled sh.vfs) (ends : Ends sh.vfs a mode (source.take size))
    (fits : size ≤ source.length) (started : sh.startOffset mode output = .ok offset)
    (run : sh.vfs.write a (u32 offset) size source junk = .ok (err, s')) :
    Received sh.vfs a mode (source.take size) s' := by
  cases found : sh.vfs.heap a with
  | none => simp [write, load_dead found, bind, Except.bind] at run
  | some n =>
    have start := Shell.startOffset_start here found started
    refine ⟨n, found, ?_⟩
    by_cases type : n.type = .file
    · have word := ends n found type
      rw [start, u32_of_lt (by omega), write_front fits] at run
      exact write_wrote filled (start_startsIn mode found) word run
    · rcases write_cases run with rfl | ⟨m, _, found', type', _⟩
      · exact .inr ⟨⟨n, found, type⟩, rfl⟩
      · cases Option.some.inj (found.symm.trans found')
        exact absurd type' type

namespace Shell

/-! ## The text of a command -/

/-- What a redirected command writes, in the state behind `handle_redirection`. -/
def output (sh : Shell) (args : Option CString) : Command → Result (List Byte)
  | .help => pure (joined (commands.flatMap fun command => [command.1, ['\n']]))
  | .echo => pure (joined [args.getD [], ['\n']])
  | .ls => do
    let fullPath ← resolvePath sh.pwd (some (args.getD sh.pwd))
    match ← sh.vfs.openPath fullPath with
    | none => pure ((bytesOf "Directory not found.\n".toList).take 17)
    | some handle =>
      let n ← sh.vfs.load handle
      if n.type ≠ .folder then pure ((bytesOf "Not a directory.\n".toList).take 16)
      else
        let names ← listNames sh.vfs limit n.children
        pure (joined ((names.flatMap fun name => [name, [' ']]) ++ [['\n']]))
  | .cat => do
    let fullPath ← resolvePath sh.pwd args
    match ← sh.vfs.openPath fullPath with
    | none => pure ((bytesOf "File not found.\n".toList).take 15)
    | some handle =>
      let n ← sh.vfs.load handle
      if n.type ≠ .file then pure ((bytesOf "Not a file.\n".toList).take 11)
      else pure n.content
  | _ => pure []

end Shell

theorem report_received {text : CString} (filled : EveryFile Node.Filled sh₁.vfs)
    (started : sh₁.startOffset mode (some a) = .ok offset) (fits : size ≤ text.length)
    (ends : Ends sh₁.vfs a mode ((bytesOf text).take size))
    (run : sh₁.report env (some a) offset size text = .ok sh') :
    Received sh₁.vfs a mode ((bytesOf text).take size) sh'.vfs := by
  obtain ⟨⟨err, vfs⟩, written, run⟩ := bind_ok run
  cases run
  exact single_received rfl filled ends (by rwa [bytesOf_length]) started written

/-- Without arguments there is nothing to redirect to. -/
theorem redirected_args (opened : sh.handleRedirection env args = .ok (some a, mode, cut, sh₁)) :
    args.getD [] ≠ [] := by
  intro empty
  have none_cut : args.bind Shell.cutRedirection = none := by
    cases args with
    | none => rfl
    | some text =>
      rw [Option.getD_some] at empty
      subst empty
      rfl
  rw [Shell.handleRedirection, none_cut] at opened
  cases opened

/-- The bytes that `command_cat` reads into its buffer. -/
theorem vfsRead_content (found : s.heap a = some n) (filled : n.Filled) :
    s.vfsRead a 0 n.size = .ok (.success, n.content) := by
  have length := filled.length
  rw [Node.buffer] at length
  simp only [vfsRead, ramfsRead, load_eq found, bind, Except.bind, filled.ops, filled.type, ne_eq,
    not_true_eq_false, if_false, length, Nat.zero_add, Nat.le_refl, or_true, if_true, List.drop_zero]
  rfl

/-- The stack buffer with the file in it. -/
def catBuffer (env : Env) (n : Node) : List Byte :=
  overwrite ((List.range bufferSize).map env.stack) 0 n.content

theorem catBuffer_take (env : Env) (filled : n.Filled) (fits : n.size ≤ bufferSize) :
    (catBuffer env n).take n.size = n.content := by
  have length := content_length filled
  have stack : ((List.range bufferSize).map env.stack).length = bufferSize := by
    rw [List.length_map, List.length_range]
  have room : 0 + n.content.length ≤ ((List.range bufferSize).map env.stack).length := by omega
  have whole := overwrite_take room
  rwa [Nat.zero_add, length, List.take_zero, List.nil_append] at whole

section Commands
variable (filled : EveryFile Node.Filled sh₁.vfs)
  (opened : sh.handleRedirection env args = .ok (some a, mode, cut, sh₁))
include filled opened

theorem commandHelp_received (ends : ∀ text, sh₁.output cut .help = .ok text → Ends sh₁.vfs a mode text)
    (run : sh.commandHelp env args = .ok sh') :
    ∃ text, sh₁.output cut .help = .ok text ∧ Received sh₁.vfs a mode text sh'.vfs := by
  rw [commandHelp_redirect opened] at run
  exact ⟨_, rfl, redirect_received filled (ends _ rfl) (by decide) run⟩

theorem commandEcho_received (ends : ∀ text, sh₁.output cut .echo = .ok text → Ends sh₁.vfs a mode text)
    (run : sh.commandEcho env args = .ok sh') :
    ∃ text, sh₁.output cut .echo = .ok text ∧ Received sh₁.vfs a mode text sh'.vfs := by
  rw [commandEcho_redirect (redirected_args opened) opened] at run
  exact ⟨_, rfl, redirect_received filled (ends _ rfl) (List.cons_ne_nil _ _) run⟩

theorem commandLs_received (ends : ∀ text, sh₁.output cut .ls = .ok text → Ends sh₁.vfs a mode text)
    (run : sh.commandLs env args = .ok sh') :
    ∃ text, sh₁.output cut .ls = .ok text ∧ Received sh₁.vfs a mode text sh'.vfs := by
  have whole := run
  obtain ⟨_, opened', run⟩ := bind_ok run
  cases Except.ok.inj (opened.symm.trans opened')
  obtain ⟨offset, started, run⟩ := bind_ok run
  obtain ⟨path, resolved, run⟩ := bind_ok run
  obtain ⟨handle, target, run⟩ := bind_ok run
  simp only [Shell.output, resolved, target, bind, Except.bind] at ends ⊢
  cases handle with
  | none => exact ⟨_, rfl, report_received filled started (by decide) (ends _ rfl) run⟩
  | some handle =>
    obtain ⟨n, loaded, run⟩ := bind_ok run
    simp only [loaded] at ends ⊢
    by_cases folder : n.type = .folder
    · obtain ⟨junk, names, listed, run⟩ :=
        commandLs_redirect opened resolved target (load_ok.mp loaded) folder whole
      simp only [folder, ne_eq, not_true_eq_false, if_false, listed] at ends ⊢
      exact ⟨_, rfl, redirect_received filled (ends _ rfl) (by simp) run⟩
    · rw [if_pos folder] at run
      simp only [ne_eq, folder, not_false_eq_true, if_true] at ends ⊢
      exact ⟨_, rfl, report_received filled started (by decide) (ends _ rfl) run⟩

theorem commandCat_received (ends : ∀ text, sh₁.output cut .cat = .ok text → Ends sh₁.vfs a mode text)
    (run : sh.commandCat env args = .ok sh') :
    ∃ text, sh₁.output cut .cat = .ok text ∧ Received sh₁.vfs a mode text sh'.vfs := by
  rw [Shell.commandCat, if_neg (redirected_args opened)] at run
  obtain ⟨_, opened', run⟩ := bind_ok run
  cases Except.ok.inj (opened.symm.trans opened')
  obtain ⟨offset, started, run⟩ := bind_ok run
  obtain ⟨path, resolved, run⟩ := bind_ok run
  obtain ⟨handle, target, run⟩ := bind_ok run
  simp only [Shell.output, resolved, target, bind, Except.bind] at ends ⊢
  cases handle with
  | none => exact ⟨_, rfl, report_received filled started (by decide) (ends _ rfl) run⟩
  | some handle =>
    obtain ⟨n, loaded, run⟩ := bind_ok run
    simp only [loaded] at ends ⊢
    by_cases file : n.type = .file
    · have found := load_ok.mp loaded
      have old := filled handle n found file
      rw [if_neg (not_not.mpr file)] at run
      simp only [file, ne_eq, not_true_eq_false, if_false] at ends ⊢
      split at run
      · cases run
      · rename_i fits
        obtain ⟨⟨_, bytes⟩, read, run⟩ := bind_ok run
        cases (vfsRead_content found old).symm.trans read
        obtain ⟨⟨err, vfs⟩, written, run⟩ := bind_ok run
        cases run
        have copied := catBuffer_take env old (Nat.not_lt.mp fits)
        refine ⟨_, rfl, ?_⟩
        have ends := ends _ rfl
        rw [← copied] at ends ⊢
        refine single_received rfl filled ends ?_ started written
        rw [catBuffer, overwrite_length, List.length_map, List.length_range]
        exact Nat.not_lt.mp fits
    · rw [if_pos file] at run
      simp only [ne_eq, file, not_false_eq_true, if_true] at ends ⊢
      exact ⟨_, rfl, report_received filled started (by decide) (ends _ rfl) run⟩

end Commands

/-! ## Without redirection -/

def Command.redirects : Command → Bool
  | .help | .echo | .ls | .cat => true
  | _ => false

/-- A command that only tells its usage changes no file; the others first open what they
are redirected to, and then write there only. -/
theorem command_opened {command : Command} (redirects : command.redirects = true)
    (run : command.run env sh args = .ok sh') : sh'.vfs = sh.vfs ∨ Shell.Redirected env sh args sh' := by
  cases command with
  | clear | mkdir | cd | touch | rm | rmdir => cases redirects
  | help => exact .inr (Shell.commandHelp_writes run)
  | echo => exact Shell.commandEcho_writes run
  | ls => exact .inr (Shell.commandLs_writes run)
  | cat => exact Shell.commandCat_writes run

/-- The output goes into the file it is redirected to. -/
theorem command_received {command : Command} (filled : EveryFile Node.Filled sh₁.vfs)
    (redirects : command.redirects = true)
    (opened : sh.handleRedirection env args = .ok (some a, mode, cut, sh₁))
    (ends : ∀ text, sh₁.output cut command = .ok text → Ends sh₁.vfs a mode text)
    (run : command.run env sh args = .ok sh') :
    ∃ text, sh₁.output cut command = .ok text ∧ Received sh₁.vfs a mode text sh'.vfs := by
  cases command with
  | clear | mkdir | cd | touch | rm | rmdir => cases redirects
  | help => exact commandHelp_received filled opened ends run
  | echo => exact commandEcho_received filled opened ends run
  | ls => exact commandLs_received filled opened ends run
  | cat => exact commandCat_received filled opened ends run

end Laomb.Fshell
