import Laomb.Fshell.Resolve
import Laomb.VFS.RamFile

/-! The shell commands. `console` is the text passed to `puts`; colours, the
screen and the keyboard are left out. -/
namespace Laomb.Fshell
open VFS Word

structure Shell where
  vfs : Vfs
  pwd : CString
  console : CString

/-- What a command finds outside the shell: the address of its new node, the
bytes of fresh heap memory for each of its writes, and those of its stack. -/
structure Env where
  fresh : Addr
  junk : Nat → Nat → Byte
  stack : Nat → Byte

inductive WriteMode where
  | truncate
  | append
deriving DecidableEq, Repr

inductive Command where
  | help
  | echo
  | clear
  | ls
  | cat
  | mkdir
  | cd
  | touch
  | rm
  | rmdir
deriving DecidableEq, Repr

/-- The table `commands`. -/
def commands : List (CString × Command) :=
  [("help".toList, .help), ("echo".toList, .echo), ("clear".toList, .clear), ("ls".toList, .ls),
    ("cat".toList, .cat), ("mkdir".toList, .mkdir), ("cd".toList, .cd), ("touch".toList, .touch),
    ("rm".toList, .rm), ("rmdir".toList, .rmdir)]

def bytesOf (text : CString) : List Byte := text.map fun c => BitVec.ofNat 8 c.toNat

def textOf (bytes : List Byte) : CString := bytes.map fun b => Char.ofNat b.toNat

namespace Shell

/-- A shell on a fresh root, as `fshell_callback` starts it. -/
def init (root : Addr) : Shell := ⟨Vfs.boot root, ['/'], []⟩

def puts (sh : Shell) (text : CString) : Shell := { sh with console := sh.console ++ text }

def setVfs (sh : Shell) (vfs : Vfs) : Shell := { sh with vfs := vfs }

/-- `strstr(args, ">")` and the cuts after it: the mode, what is left of `args`,
and the text the target path starts at. -/
def cutRedirection (args : CString) : Option (WriteMode × CString × CString) :=
  match args.dropWhile (· ≠ '>') with
  | [] => none
  | _ :: '>' :: target => some (.append, args.takeWhile (· ≠ '>'), target.dropWhile (· = ' '))
  | _ :: target => some (.truncate, args.takeWhile (· ≠ '>'), target.dropWhile (· = ' '))

/-- `handle_redirection`: the output handle, the write mode and the cut `args`. -/
def handleRedirection (env : Env) (sh : Shell) (args : Option CString) :
    Result (Ptr × WriteMode × Option CString × Shell) :=
  match args.bind cutRedirection with
  | none => pure (none, .truncate, args, sh)
  | some (mode, args, target) => do
    let fullPath ← resolvePath sh.pwd (some target)
    match ← sh.vfs.openPath fullPath with
    | some handle => pure (some handle, mode, some args, sh)
    | none =>
      let (err, vfs) ← sh.vfs.create fullPath .file env.fresh
      let sh := sh.setVfs vfs
      if err ≠ .success then
        pure (none, mode, some args, sh.puts "Failed to create file for redirection.\n".toList)
      else
        let handle ← sh.vfs.openPath fullPath
        pure (handle, mode, some args, sh)

/-- `(write_mode == WRITE_MODE_APPEND && output_handle) ? output_handle->size : 0`. -/
def startOffset (sh : Shell) (mode : WriteMode) (output : Ptr) : Result Nat :=
  match mode, output with
  | .append, some handle => do
    let n ← sh.vfs.load handle
    pure n.size
  | _, _ => pure 0

/-- Write `text` to the output handle at `offset` and move on, or print it. -/
def emit (sh : Shell) (output : Ptr) (offset : Nat) (text : CString) (junk : Nat → Byte) :
    Result (Shell × Nat) :=
  match output with
  | none => pure (sh.puts text, offset)
  | some handle => do
    let (_, vfs) ← sh.vfs.write handle (u32 offset) text.length (bytesOf text) junk
    pure (sh.setVfs vfs, offset + text.length)

/-- Several chunks back to back. -/
def emitAll (junk : Nat → Nat → Byte) (sh : Shell) (output : Ptr) (offset : Nat) :
    List CString → Result (Shell × Nat)
  | [] => pure (sh, offset)
  | text :: rest => do
    let (sh, offset) ← sh.emit output offset text (junk rest.length)
    emitAll junk sh output offset rest

def commandHelp (env : Env) (sh : Shell) (args : Option CString) : Result Shell := do
  let (output, mode, _, sh) ← handleRedirection env sh args
  let offset ← sh.startOffset mode output
  let (sh, _) ← emitAll env.junk sh output offset (commands.flatMap fun command => [command.1, ['\n']])
  pure sh

def commandEcho (env : Env) (sh : Shell) (args : Option CString) : Result Shell :=
  if args.getD [] = [] then pure (sh.puts "Usage: echo <message>\n".toList)
  else do
    let (output, mode, args, sh) ← handleRedirection env sh args
    let offset ← sh.startOffset mode output
    let (sh, _) ← emitAll env.junk sh output offset [args.getD [], ['\n']]
    pure sh

def commandClear (sh : Shell) : Result Shell := pure sh

/-- A message printed whole, or its first `size` bytes written to the output handle. -/
def report (env : Env) (sh : Shell) (output : Ptr) (offset size : Nat) (text : CString) : Result Shell :=
  match output with
  | none => pure (sh.puts text)
  | some handle => do
    let (_, vfs) ← sh.vfs.write handle (u32 offset) size (bytesOf text) (env.junk 0)
    pure (sh.setVfs vfs)

def commandCat (env : Env) (sh : Shell) (args : Option CString) : Result Shell :=
  if args.getD [] = [] then pure (sh.puts "Usage: cat <file>\n".toList)
  else do
    let (output, mode, args, sh) ← handleRedirection env sh args
    let offset ← sh.startOffset mode output
    let fullPath ← resolvePath sh.pwd args
    match ← sh.vfs.openPath fullPath with
    | none => report env sh output offset 15 "File not found.\n".toList
    | some handle =>
      let n ← sh.vfs.load handle
      if n.type ≠ .file then report env sh output offset 11 "Not a file.\n".toList
      else
        -- `buffer` holds 512 bytes, of which the file fills the first `size`
        if bufferSize < n.size then .error .outOfBounds
        else
          let (_, bytes) ← sh.vfs.vfsRead handle 0 n.size
          let buffer := overwrite ((List.range bufferSize).map env.stack) 0 bytes
          match output with
          | some out =>
            let (_, vfs) ← sh.vfs.write out (u32 offset) n.size buffer (env.junk 0)
            pure (sh.setVfs vfs)
          | none =>
            if 0 ∈ buffer then
              pure ((sh.puts (textOf (buffer.takeWhile (· ≠ 0)))).puts ['\n'])
            else .error .outOfBounds

def commandTouch (env : Env) (sh : Shell) (args : Option CString) : Result Shell :=
  if args.getD [] = [] then pure (sh.puts "Usage: touch <file>\n".toList)
  else do
    let fullPath ← resolvePath sh.pwd args
    match ← sh.vfs.openPath fullPath with
    | some _ => pure sh
    | none =>
      let (err, vfs) ← sh.vfs.create fullPath .file env.fresh
      let sh := sh.setVfs vfs
      match err with
      | .notFound => pure (sh.puts "Directory doesn't exist.\n".toList)
      | .error => pure (sh.puts "Failed to create file.\n".toList)
      | .notPermitted => pure (sh.puts "Cannot create file in a special directory.\n".toList)
      | .success => pure sh

def commandRm (sh : Shell) (args : Option CString) : Result Shell :=
  if args.getD [] = [] then pure (sh.puts "Usage: rm <file>\n".toList)
  else do
    let fullPath ← resolvePath sh.pwd args
    match ← sh.vfs.openPath fullPath with
    | none => pure (sh.puts "File not found.\n".toList)
    | some handle =>
      let n ← sh.vfs.load handle
      if n.type ≠ .file then pure (sh.puts "Not a file.\n".toList)
      else
        let (err, vfs) ← sh.vfs.remove (some handle)
        let sh := sh.setVfs vfs
        if err ≠ .success then pure (sh.puts "Failed to remove file.\n".toList)
        else pure (sh.puts "File removed successfully.\n".toList)

def commandRmdir (sh : Shell) (args : Option CString) : Result Shell :=
  if args.getD [] = [] then pure (sh.puts "Usage: rmdir <directory>\n".toList)
  else do
    let fullPath ← resolvePath sh.pwd args
    match ← sh.vfs.openPath fullPath with
    | none => pure (sh.puts "Directory not found.\n".toList)
    | some handle =>
      let n ← sh.vfs.load handle
      if n.type ≠ .folder then pure (sh.puts "Not a directory.\n".toList)
      else if n.children ≠ none then pure (sh.puts "Directory is not empty.\n".toList)
      else
        let (err, vfs) ← sh.vfs.remove (some handle)
        let sh := sh.setVfs vfs
        if err ≠ .success then pure (sh.puts "Failed to remove directory.\n".toList)
        else pure (sh.puts "Directory removed successfully.\n".toList)

/-- The loop of `command_ls` over the children. -/
def listChildren (env : Env) (output : Ptr) : (fuel : Nat) → (sh : Shell) → (offset : Nat) →
    (child : Ptr) → Result (Shell × Nat)
  | 0, _, _, _ => .error .diverges
  | _ + 1, sh, offset, none => pure (sh, offset)
  | fuel + 1, sh, offset, some child => do
    let n ← sh.vfs.load child
    match n.name with
    | none => .error .nullDeref
    | some name =>
      let (sh, offset) ← emitAll (fun k => env.junk (2 * fuel + k + 1)) sh output offset [name, [' ']]
      let n ← sh.vfs.load child
      listChildren env output fuel sh offset n.next

def commandLs (env : Env) (sh : Shell) (args : Option CString) : Result Shell := do
  let (output, mode, args, sh) ← handleRedirection env sh args
  let offset ← sh.startOffset mode output
  let fullPath ← resolvePath sh.pwd (some (args.getD sh.pwd))
  match ← sh.vfs.openPath fullPath with
  | none => report env sh output offset 17 "Directory not found.\n".toList
  | some handle =>
    let n ← sh.vfs.load handle
    if n.type ≠ .folder then report env sh output offset 16 "Not a directory.\n".toList
    else
      let (sh, offset) ← listChildren env output limit sh offset n.children
      let (sh, _) ← sh.emit output offset ['\n'] (env.junk 0)
      pure sh

/-- `command_mkdir` calls `create` without opening the path first. -/
def commandMkdir (env : Env) (sh : Shell) (args : Option CString) : Result Shell :=
  if args.getD [] = [] then pure (sh.puts "Usage: mkdir <path>\n".toList)
  else do
    let fullPath ← resolvePath sh.pwd args
    let (err, vfs) ← sh.vfs.create fullPath .folder env.fresh
    let sh := sh.setVfs vfs
    match err with
    | .notFound => pure (sh.puts "Folder doesn't exist.\n".toList)
    | .error => pure (sh.puts "Failed to create folder.\n".toList)
    | .notPermitted => pure (sh.puts "Cannot create folder in a special file.\n".toList)
    | .success => pure sh

def commandCd (sh : Shell) (args : Option CString) : Result Shell :=
  if args.getD [] = [] then pure (sh.puts "Usage: cd <path>\n".toList)
  else do
    let fullPath ← resolvePath sh.pwd args
    match ← sh.vfs.openPath fullPath with
    | none => pure (sh.puts "Directory not found.\n".toList)
    | some handle =>
      let n ← sh.vfs.load handle
      if n.type ≠ .folder then pure (sh.puts "Not a directory.\n".toList)
      else
        -- `fshell_ctx.pwd` has 256 bytes
        let pwd ← copyString 256 fullPath
        pure { sh with pwd := pwd }

end Shell

def Command.run (env : Env) (sh : Shell) (args : Option CString) : Command → Result Shell
  | help => sh.commandHelp env args
  | echo => sh.commandEcho env args
  | clear => sh.commandClear
  | ls => sh.commandLs env args
  | cat => sh.commandCat env args
  | mkdir => sh.commandMkdir env args
  | cd => sh.commandCd args
  | touch => sh.commandTouch env args
  | rm => sh.commandRm args
  | rmdir => sh.commandRmdir args

end Laomb.Fshell
