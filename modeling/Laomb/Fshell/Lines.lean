import Laomb.Fshell.Commands

/-! `execute_command` on a typed line, with the editor that `edit` starts. -/
namespace Laomb.Fshell
open VFS

/-- A line as `fshell_callback` has it at its newline, what the command finds outside the
shell, and the keys the editor would get before the escape key. -/
structure Line where
  text : CString
  env : Env
  keys : List Char

namespace Line

/-- The text up to `strchr(buffer, ' ')`. -/
def command (line : Line) : CString := line.text.takeWhile (· ≠ ' ')

def args (line : Line) : Option CString :=
  match line.text.dropWhile (· ≠ ' ') with
  | [] => none
  | _ :: args => some args

end Line

/-- `BUFFER_SIZE` of the editor. -/
def editorSize : Nat := 4096

namespace Shell

/-- One key of `text_editor` other than escape. The cursor and the characters on the screen
are left out; `buffer` and `buffer_pos` are as the loop has them. -/
def editKey (env : Env) (handle : Addr) (sh : Shell) (buffer : List Byte) (bufferPos : Nat) (key : Char) :
    Result (Shell × List Byte × Nat) :=
  if key = 'w' ∨ key = 's' ∨ key = 'a' ∨ key = 'd' then pure (sh, buffer, bufferPos)
  else if key = '\x7F' then
    if 0 < bufferPos then pure (sh, buffer.set (bufferPos - 1) (BitVec.ofNat 8 ' '.toNat), bufferPos - 1)
    else pure (sh, buffer, bufferPos)
  else if key = '\t' then do
    let (_, vfs) ← sh.vfs.write handle 0 bufferPos buffer (env.junk 0)
    pure (sh.setVfs vfs, buffer, bufferPos)
  else if bufferPos < editorSize - 1 then
    pure (sh, buffer.set bufferPos (BitVec.ofNat 8 key.toNat), bufferPos + 1)
  else pure (sh, buffer, bufferPos)

def editKeys (env : Env) (handle : Addr) (sh : Shell) (buffer : List Byte) (bufferPos : Nat) :
    List Char → Result Shell
  | [] => pure sh
  | key :: keys => do
    let (sh, buffer, bufferPos) ← sh.editKey env handle buffer bufferPos key
    editKeys env handle sh buffer bufferPos keys

/-- `text_editor`: it uses the handle of `open` without a look at it. -/
def textEditor (env : Env) (keys : List Char) (sh : Shell) (path : CString) : Result Shell := do
  match ← sh.vfs.openPath path with
  | none => .error .nullDeref
  | some handle =>
    let n ← sh.vfs.load handle
    match n.ops with
    | none => .error .nullDeref
    | some .ramfs =>
      -- the file goes into `BUFFER_SIZE` bytes of fresh memory
      if editorSize < n.size then .error .outOfBounds
      else
        let (_, bytes) ← sh.vfs.ramfsRead handle 0 n.size
        let buffer := overwrite ((List.range editorSize).map (env.junk 1)) 0 bytes
        let sh := ((sh.puts " ------------ ".toList).puts path).puts " ------------ \n".toList
        editKeys env handle sh buffer 0 keys

/-- `execute_command`; `fshell_callback` also leaves out a call for an empty command. -/
def executeCommand (sh : Shell) (line : Line) (command : CString) : Result Shell :=
  if command = [] then pure sh
  else match commands.find? (fun entry => entry.1 = command) with
    | some entry => entry.2.run line.env sh line.args
    | none =>
      if command = "edit".toList then do
        let fullPath ← resolvePath sh.pwd line.args
        sh.textEditor line.env line.keys fullPath
      else pure (((sh.puts "Unknown command: ".toList).puts command).puts ['\n'])

/-- The line after its newline: `strcpy` into `command[64]`, the command, and the prompt. -/
def executeLine (sh : Shell) (line : Line) : Result Shell := do
  let command ← copyString 64 line.command
  let sh ← sh.executeCommand line command
  pure ((sh.puts sh.pwd).puts "> ".toList)

end Shell

end Laomb.Fshell
