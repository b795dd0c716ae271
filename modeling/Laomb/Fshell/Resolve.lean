import Laomb.VFS.Path

/-! Path handling of the shell: trimming, and `resolve_path` with the bounds
of its 512-byte buffers. -/
namespace Laomb.Fshell
open VFS

/-- `FSHELL_BUFFER_SIZE`. -/
def bufferSize : Nat := 512

/-- `strcpy` or `strcat` that leaves `text` and its terminator in an array of `size` bytes. -/
def copyString (size : Nat) (text : CString) : Result CString :=
  if text.length < size then pure text else .error .outOfBounds

def isspace (c : Char) : Bool :=
  c = ' ' || c = '\t' || c = '\n' || c = '\x0b' || c = '\x0c' || c = '\r'

def trimWhitespace (str : CString) : CString :=
  match str.dropWhile isspace with
  | [] => []
  | start => (start.reverse.dropWhile isspace).reverse

/-- What one token does to the components collected so far. -/
def pushComponent (components : List CString) (token : CString) : List CString :=
  if token = ['.'] then components
  else if token = ['.', '.'] then components.dropLast
  else components ++ [token]

def resolveLoop : (fuel : Nat) → (token last : Option CString) → (components : List CString) →
    Result (List CString)
  | _, none, _, components => pure components
  | 0, some _, _, _ => .error .diverges
  | fuel + 1, some token, last, components =>
    let (next, last) := strtok last
    resolveLoop fuel next last (pushComponent components token)

/-- The final loop: components with slashes between them. -/
def joinComponents : List CString → CString
  | [] => []
  | [c] => c
  | c :: rest => c ++ '/' :: joinComponents rest

/-- A path that does not start with a slash is taken from `pwd`. -/
def absolutePath (pwd resolved : CString) : Result CString :=
  if resolved.head? = some '/' then pure resolved else copyString bufferSize (pwd ++ '/' :: resolved)

def resolvePath (pwd : CString) (path : Option CString) : Result CString := do
  let resolved ← copyString bufferSize (if path.getD [] = [] then pwd else path.getD [])
  let resolved ← absolutePath pwd (trimWhitespace resolved)
  let (token, last) := strtok (some resolved)
  let components ← resolveLoop resolved.length token last []
  copyString bufferSize ('/' :: joinComponents components)

end Laomb.Fshell
